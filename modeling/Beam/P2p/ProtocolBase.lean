import Mathlib.Algebra.Order.Ring.Nat
import Mathlib.Data.List.Basic

/-!
# `ProtocolBase`: message headers and what a protocol decides about them

`src/p2p/protocol_base.h`.  Every message on the wire starts with an 8-byte `MsgHeader`:
three version bytes, the message type and the size of the rest, little-endian.  A
`ProtocolBase` holds the versions, the dispatch table of message types and the virtual
hooks `Decrypt`, `get_MacSize` and `VerifyMsg` that `ProtocolPlus` overrides; the state
the hooks read and change (the ciphers) is a type parameter `σ`.

The results: a header reads back from its bytes (`read_write`), and
`approve_msg_header` accepts exactly the headers with the protocol's versions, a type
with a callback and a size within its bounds (`approveMsgHeader_iff`).
-/

namespace Beam.P2p

/-- `MsgHeader`: the header of a message, laid out in memory as it is on the wire. -/
structure MsgHeader where
  V0 : UInt8
  V1 : UInt8
  V2 : UInt8
  type : UInt8
  size : UInt32
  deriving DecidableEq, Repr

namespace MsgHeader

/-- `MsgHeader::SIZE`. -/
def SIZE : Nat := 8

/-- `MsgHeader::write`: a `memcpy` of the structure on a little-endian machine. -/
def write (h : MsgHeader) : List UInt8 :=
  [h.V0, h.V1, h.V2, h.type, UInt8.ofNat h.size.toNat, UInt8.ofNat (h.size.toNat / 2 ^ 8),
    UInt8.ofNat (h.size.toNat / 2 ^ 16), UInt8.ofNat (h.size.toNat / 2 ^ 24)]

/-- `MsgHeader::read`: the header in the first `SIZE` bytes. -/
def read (b : List UInt8) : MsgHeader where
  V0 := b.getD 0 0
  V1 := b.getD 1 0
  V2 := b.getD 2 0
  type := b.getD 3 0
  size := UInt32.ofNat ((b.getD 4 0).toNat + 2 ^ 8 * (b.getD 5 0).toNat + 2 ^ 16 * (b.getD 6 0).toNat +
    2 ^ 24 * (b.getD 7 0).toNat)

@[simp] theorem length_write (h : MsgHeader) : h.write.length = SIZE := rfl

/-- A header reads back from its bytes, whatever follows them. -/
@[simp] theorem read_write (h : MsgHeader) (rest : List UInt8) : read (h.write ++ rest) = h := by
  have hsize : UInt32.ofNat ((UInt8.ofNat h.size.toNat).toNat + 2 ^ 8 * (UInt8.ofNat (h.size.toNat / 2 ^ 8)).toNat +
      2 ^ 16 * (UInt8.ofNat (h.size.toNat / 2 ^ 16)).toNat + 2 ^ 24 * (UInt8.ofNat (h.size.toNat / 2 ^ 24)).toNat) =
      h.size := by
    apply UInt32.toNat_inj.mp
    simp only [UInt32.toNat_ofNat', UInt8.toNat_ofNat']
    have := h.size.toNat_lt
    omega
  simp only [read, write, List.cons_append, List.getD_cons_zero, List.getD_cons_succ, hsize]

/-- The header depends only on the first `SIZE` bytes. -/
theorem read_append {b : List UInt8} (hb : SIZE ≤ b.length) (rest : List UInt8) : read (b ++ rest) = read b := by
  have hget : ∀ i < SIZE, (b ++ rest).getD i 0 = b.getD i 0 := fun i hi => by
    rw [List.getD_eq_getElem?_getD, List.getD_eq_getElem?_getD, List.getElem?_append_left (by omega)]
  simp only [read, hget 0 (by decide), hget 1 (by decide), hget 2 (by decide), hget 3 (by decide),
    hget 4 (by decide), hget 5 (by decide), hget 6 (by decide), hget 7 (by decide)]

end MsgHeader

/-- `ProtocolError`, the errors `approve_msg_header` and the reader report. -/
inductive ProtocolError
  | noError
  | versionError
  | msgTypeError
  | msgSizeError
  | messageCorrupted
  | unexpectedMsgType
  deriving DecidableEq, Repr

/-- `ProtocolBase::DispatchTableItem`: the callback of a message type, which deserialises the
message and hands it to its handler (abstract: whether it accepts the bytes it is given),
and the bounds on the size of the message. -/
structure DispatchTableItem where
  callback : Option (List UInt8 → Bool)
  minSize : Nat
  maxSize : Nat

/-- What `ProtocolBase` holds of its own: the versions every message must carry, the number
of message types and their dispatch table. -/
structure ProtocolConfig where
  V0 : UInt8
  V1 : UInt8
  V2 : UInt8
  maxMessageTypes : Nat
  dispatchTable : UInt8 → DispatchTableItem

/-- `ProtocolBase`: its own data and the virtual hooks over the state `σ` they keep. -/
structure ProtocolBase (σ : Type) extends ProtocolConfig where
  /-- `Decrypt(p, nSize)`: the bytes decrypted in place. -/
  decrypt : σ → List UInt8 → List UInt8 × σ
  /-- `get_MacSize()`. -/
  getMacSize : σ → UInt32
  /-- `VerifyMsg(p, nSize)`, of header, body and MAC together. -/
  verifyMsg : σ → List UInt8 → Bool

namespace ProtocolConfig

variable (P : ProtocolConfig)

/-- The error `approve_msg_header` reports for a header, `noError` when it approves it. -/
def headerError (header : MsgHeader) : ProtocolError :=
  if header.V0 ≠ P.V0 ∨ header.V1 ≠ P.V1 ∨ header.V2 ≠ P.V2 then .versionError
  else if P.maxMessageTypes ≤ header.type.toNat then .msgTypeError
  else if (P.dispatchTable header.type).callback.isNone then .msgTypeError
  else if (P.dispatchTable header.type).minSize > header.size.toNat ∨
      (P.dispatchTable header.type).maxSize < header.size.toNat then .msgSizeError
  else .noError

/-- `ProtocolBase::approve_msg_header`. -/
def approveMsgHeader (header : MsgHeader) : Bool := P.headerError header = .noError

/-- `ProtocolBase::on_new_message`: the callback of the type on the message's bytes, `false`
for a type without one. -/
def onNewMessage (type : UInt8) (data : List UInt8) : Bool :=
  match (P.dispatchTable type).callback with
  | none => false
  | some callback => callback data

/-- A type whose callback accepts a message has a callback. -/
theorem isSome_callback_of_onNewMessage {type : UInt8} {data : List UInt8} (h : P.onNewMessage type data = true) :
    (P.dispatchTable type).callback.isSome := by
  cases hc : (P.dispatchTable type).callback with
  | none =>
    rw [onNewMessage, hc] at h
    cases h
  | some _ => rfl

/-- `approve_msg_header` accepts exactly the headers with the protocol's versions and a type
below `maxMessageTypes` with a callback, whose size is within the type's bounds. -/
theorem approveMsgHeader_iff (header : MsgHeader) :
    P.approveMsgHeader header = true ↔
      header.V0 = P.V0 ∧ header.V1 = P.V1 ∧ header.V2 = P.V2 ∧ header.type.toNat < P.maxMessageTypes ∧
        (P.dispatchTable header.type).callback.isSome ∧
        (P.dispatchTable header.type).minSize ≤ header.size.toNat ∧
        header.size.toNat ≤ (P.dispatchTable header.type).maxSize := by
  unfold approveMsgHeader headerError
  by_cases hv : header.V0 ≠ P.V0 ∨ header.V1 ≠ P.V1 ∨ header.V2 ≠ P.V2
  · simp only [if_pos hv, decide_eq_true_eq, reduceCtorEq, false_iff]
    tauto
  · simp only [if_neg hv]
    simp only [not_or, not_not] at hv
    split_ifs <;> simp_all [Option.isNone_iff_eq_none, Option.isSome_iff_ne_none]
    -- what is left is the size check against the bounds
    omega

end ProtocolConfig

end Beam.P2p
