import Beam.Core.Aes
import Beam.P2p.MsgReader
import Beam.P2p.MsgSerializer

/-!
# `ProtocolPlus`: messages sealed with a MAC and a stream cipher

`src/core/proto.cpp`.  Past the handshake, in `Duplex` mode, `ProtocolPlus::Encrypt` appends
a placeholder for an 8-byte MAC to the message being serialized, finalizes it, computes the
HMAC of everything before the placeholder, copies it over the placeholder (which may be cut
between fragments: `n2` counts the bytes left from the current fragment on) and encrypts
every fragment in turn with the outbound cipher.  On the other side `Decrypt` runs the
inbound cipher and `VerifyMsg` recomputes the MAC.  The AES key is the block function `enc`
of `Beam.Aes`, and the keyed `m_HMac` with `get_HMac` is an abstract function `mac` from the
bytes it is given to a `MacValue`.

The main result, `send_spec`: from between two messages, `Send` puts on the wire the
header, with the size of the body and MAC, the body and the MAC of both, xor-ed with the
outbound key stream, and leaves the serializer between two messages.
-/

namespace Beam.Proto

open ByteStream Aes P2p

/-- `ProtocolPlus::Mode`. -/
inductive Mode
  | plaintext
  | outgoing
  | duplex
  deriving DecidableEq, Repr

/-- `ProtocolPlus`: the mode and the two ciphers. -/
structure ProtocolPlus where
  mode : Mode
  cipherIn : StreamCipher
  cipherOut : StreamCipher

/-- `ProtocolPlus::MacValue::nBytes`. -/
def macSize : Nat := 8

namespace ProtocolPlus

variable (enc : Nat → Vector UInt8 16) (mac : List UInt8 → Vector UInt8 macSize)

/-! ## The reader's hooks -/

/-- `ProtocolPlus::Decrypt`: the inbound cipher, in duplex mode. -/
def decrypt (pp : ProtocolPlus) (p : List UInt8) : List UInt8 × ProtocolPlus :=
  if pp.mode = .duplex then
    ((StreamCipher.xcrypt enc pp.cipherIn p).1, { pp with cipherIn := (StreamCipher.xcrypt enc pp.cipherIn p).2 })
  else (p, pp)

/-- `ProtocolPlus::get_MacSize`. -/
def getMacSize (mode : Mode) : UInt32 := if mode = .duplex then 8 else 0

/-- `ProtocolPlus::VerifyMsg`: in duplex mode the last `macSize` bytes are the MAC of the
others. -/
def verifyMsg (mode : Mode) (p : List UInt8) : Bool :=
  if mode ≠ .duplex then true
  else if p.length < macSize then false
  else (mac (p.take (p.length - macSize))).toList == p.drop (p.length - macSize)

/-- The `ProtocolBase` a `ProtocolPlus` is, with its own data `cfg`. -/
def protocol (cfg : ProtocolConfig) : ProtocolBase ProtocolPlus :=
  { cfg with
    decrypt := decrypt enc
    getMacSize := fun pp => getMacSize pp.mode
    verifyMsg := fun pp => verifyMsg mac pp.mode }

/-! ## `Encrypt` -/

/-- Step 3 of `ProtocolPlus::Encrypt`: the bytes given to `hm.Write`, the first `n2` bytes of
the fragments. -/
def macLoop : Nat → List (List UInt8) → List UInt8
  | _, [] => []
  | n2, iov :: rest => if n2 ≤ iov.length then iov.take n2 else iov ++ macLoop (n2 - iov.length) rest

/-- The `memcpy` of step 4 of `ProtocolPlus::Encrypt` into a fragment, `n2` the bytes left from
it on: the tail of the MAC when the fragment is within its last `macSize` bytes, else the
head of the MAC from where the MAC starts in the fragment, if it does. -/
def overwriteMac (hmac : List UInt8) (n2 : Nat) (iov : List UInt8) : List UInt8 :=
  if n2 ≤ macSize then overwrite iov 0 ((hmac.drop (macSize - n2)).take iov.length)
  else if n2 - macSize < iov.length then overwrite iov (n2 - macSize) (hmac.take (iov.length - (n2 - macSize)))
  else iov

/-- Step 4 of `ProtocolPlus::Encrypt`: each fragment gets its part of the MAC and is encrypted
with the outbound cipher. -/
def sealLoop (hmac : List UInt8) : Nat → StreamCipher → List (List UInt8) → List (List UInt8) × StreamCipher
  | _, c, [] => ([], c)
  | n2, c, iov :: rest =>
    let x := StreamCipher.xcrypt enc c (overwriteMac hmac n2 iov)
    let r := sealLoop hmac (n2 - iov.length) x.2 rest
    (x.1 :: r.1, r.2)

/-- `ProtocolPlus::Encrypt`: outside plaintext mode a zero MAC is serialized as a placeholder,
and after `finalize` the MAC of the rest is written over it and every fragment encrypted. -/
def encrypt (pp : ProtocolPlus) (ser : MsgSerializeOstream) :
    List (List UInt8) × MsgSerializeOstream × ProtocolPlus :=
  if pp.mode = .plaintext then ((ser.finalize 0).1, (ser.finalize 0).2, pp)
  else
    let f := (ser.write (List.replicate macSize 0)).finalize 0
    let n := (f.1.map List.length).sum
    let hmac := (mac (macLoop (n - macSize) f.1)).toList
    let r := sealLoop enc hmac n pp.cipherOut f.1
    (r.1, f.2, { pp with cipherOut := r.2 })

/-- `NodeConnection::Send`: `serializeNoFinalize` (the type, then the bytes the message's
serialization writes) and `Encrypt`. -/
def send (pp : ProtocolPlus) (ser : MsgSerializeOstream) (type : UInt8) (writes : List (List UInt8)) :
    List (List UInt8) × MsgSerializeOstream × ProtocolPlus :=
  encrypt enc mac pp (writes.foldl MsgSerializeOstream.write (ser.newMessage type))

/-- Messages sent one after another: the fragments on the wire, in order. -/
def sendAll : MsgSerializeOstream × ProtocolPlus → List (UInt8 × List (List UInt8)) →
    List (List UInt8) × MsgSerializeOstream × ProtocolPlus
  | (ser, pp), [] => ([], ser, pp)
  | (ser, pp), m :: ms =>
    let x := send enc mac pp ser m.1 m.2
    let r := sendAll (x.2.1, x.2.2) ms
    (x.1 ++ r.1, r.2)

/-! ## What `Encrypt` puts on the wire -/

variable {enc mac}

/-- `hm.Write` is given the first `n2` bytes of the message. -/
theorem macLoop_eq : ∀ (n2 : Nat) (frags : List (List UInt8)), n2 ≤ frags.flatten.length →
    macLoop n2 frags = frags.flatten.take n2
  | n2, [], h => by rw [List.flatten_nil, List.length_nil] at h; rw [macLoop, Nat.le_zero.mp h]; rfl
  | n2, iov :: rest, h => by
    rw [macLoop, List.flatten_cons]
    split
    · rw [List.take_append_of_le_length (by assumption)]
    · rw [List.flatten_cons, List.length_append] at h
      rw [macLoop_eq (n2 - iov.length) rest (by omega), List.take_append, List.take_of_length_le (l := iov) (by omega)]

theorem length_overwriteMac (hmac : List UInt8) (n2 : Nat) (iov : List UInt8) :
    (overwriteMac hmac n2 iov).length = iov.length := by
  unfold overwriteMac
  split_ifs
  · exact length_overwrite (Nat.zero_le _)
  · exact length_overwrite (by omega)
  · rfl

/-- **The MAC lands on the last `macSize` bytes**, however it is cut between fragments: a
fragment with `n2` bytes from it on, followed by the rest `R` with the MAC over its last bytes,
is the message with the MAC over its last bytes. -/
theorem overwriteMac_append {hmac : List UInt8} (hmac_len : hmac.length = macSize) (iov R : List UInt8) :
    overwriteMac hmac (iov.length + R.length) iov ++ (R.take (R.length - macSize) ++ hmac.drop (macSize - R.length)) =
      (iov ++ R).take (iov.length + R.length - macSize) ++ hmac.drop (macSize - (iov.length + R.length)) := by
  unfold overwriteMac
  split_ifs with h1 h2
  · -- the fragment is within the MAC: it gets the MAC's bytes from where it starts
    have hsrc : ((hmac.drop (macSize - (iov.length + R.length))).take iov.length).length = iov.length := by
      rw [List.length_take, List.length_drop]; omega
    rw [overwrite_of_eq (by rw [hsrc, Nat.zero_add]), List.take_zero, List.nil_append,
      show R.length - macSize = 0 by omega, List.take_zero, List.nil_append,
      show iov.length + R.length - macSize = 0 by omega, List.take_zero, List.nil_append,
      show macSize - R.length = macSize - (iov.length + R.length) + iov.length by omega, ← List.drop_drop,
      List.take_append_drop]
  · -- the MAC starts within the fragment
    have hsrc : (hmac.take (iov.length - (iov.length + R.length - macSize))).length =
        iov.length - (iov.length + R.length - macSize) := by
      rw [List.length_take]; omega
    rw [overwrite_of_eq (by rw [hsrc]; omega), show R.length - macSize = 0 by omega, List.take_zero,
      List.nil_append, show macSize - (iov.length + R.length) = 0 by omega, List.drop_zero,
      show macSize - R.length = iov.length - (iov.length + R.length - macSize) by omega, List.append_assoc,
      List.take_append_drop, List.take_append_of_le_length (by omega)]
  · -- the MAC starts after the fragment
    rw [show macSize - R.length = 0 by omega, show macSize - (iov.length + R.length) = 0 by omega,
      List.drop_zero, List.take_append, List.take_of_length_le (l := iov) (by omega), List.append_assoc,
      show iov.length + R.length - macSize - iov.length = R.length - macSize by omega]

/-- **Step 4 seals the message**: the fragments, with the MAC over the last `macSize` bytes,
xor-ed with the key stream from `p` on. -/
theorem sealLoop_spec {hmac : List UInt8} (hmac_len : hmac.length = macSize) {c0 : Nat} :
    ∀ (frags : List (List UInt8)) (c : StreamCipher) (p : Nat), StreamCipher.At enc c c0 p →
      (sealLoop enc hmac frags.flatten.length c frags).1.flatten =
          xorAt (StreamCipher.keyStream enc c0) p
            (frags.flatten.take (frags.flatten.length - macSize) ++ hmac.drop (macSize - frags.flatten.length)) ∧
        StreamCipher.At enc (sealLoop enc hmac frags.flatten.length c frags).2 c0 (p + frags.flatten.length)
  | [], c, p, h => by
    rw [sealLoop, List.flatten_nil, List.length_nil, Nat.sub_zero, List.drop_eq_nil_of_le (Nat.le_of_eq hmac_len)]
    exact ⟨rfl, h⟩
  | iov :: rest, c, p, h => by
    obtain ⟨hx, hat⟩ := StreamCipher.xcrypt_spec c (overwriteMac hmac (iov :: rest).flatten.length iov) h
    rw [length_overwriteMac] at hat
    obtain ⟨hr, hat'⟩ := sealLoop_spec hmac_len rest _ _ hat
    have hn : (iov :: rest).flatten.length - iov.length = rest.flatten.length := by
      rw [List.flatten_cons, List.length_append]; omega
    rw [sealLoop]
    dsimp only
    rw [hn, List.flatten_cons, hr, hx, ← length_overwriteMac hmac (iov :: rest).flatten.length iov, ← xorAt_append,
      List.flatten_cons, List.length_append, overwriteMac_append hmac_len]
    refine ⟨rfl, ?_⟩
    rw [List.flatten_cons, List.length_append, Nat.add_assoc] at hat'
    exact hat'

/-- **What `Send` puts on the wire.** From between two messages, outside plaintext mode: the
header, with the size of the body and the MAC, the body and the MAC of both, xor-ed with the
outbound key stream from where the cipher stands; the serializer is between two messages
again, and the outbound cipher stands after the message. -/
theorem send_spec {ser : MsgSerializeOstream} (hser : ser.Idle) {pp : ProtocolPlus} (hmode : pp.mode ≠ .plaintext)
    {c0 p : Nat} (hat : StreamCipher.At enc pp.cipherOut c0 p) (type : UInt8) (writes : List (List UInt8)) :
    (send enc mac pp ser type writes).1.flatten =
        xorAt (StreamCipher.keyStream enc c0) p
          ({ ser.currentHeader with type, size := UInt32.ofNat (writes.flatten.length + macSize) }.write ++
            writes.flatten ++
            (mac ({ ser.currentHeader with type, size := UInt32.ofNat (writes.flatten.length + macSize) }.write ++
              writes.flatten)).toList) ∧
      (send enc mac pp ser type writes).2.1.Idle ∧
      (send enc mac pp ser type writes).2.1.currentHeader =
        { ser.currentHeader with type, size := UInt32.ofNat (writes.flatten.length + macSize) } ∧
      (send enc mac pp ser type writes).2.2 = { pp with cipherOut := (send enc mac pp ser type writes).2.2.cipherOut } ∧
      StreamCipher.At enc (send enc mac pp ser type writes).2.2.cipherOut c0
        (p + (MsgHeader.SIZE + writes.flatten.length + macSize)) := by
  -- the serializer: header, body, placeholder, then the header written again with the size
  obtain ⟨hopen, hhdr⟩ := MsgSerializeOstream.open_newMessage hser type
  obtain ⟨hbody, hhdr'⟩ := MsgSerializeOstream.open_foldl_write writes hopen
  have hplace := MsgSerializeOstream.open_write hbody (List.replicate macSize 0)
  obtain ⟨hflat, hidle, hcur⟩ := MsgSerializeOstream.finalize_spec hplace 0
  have hb : ({ ser.currentHeader with type }.write ++ writes.flatten ++ List.replicate macSize 0).drop MsgHeader.SIZE =
      writes.flatten ++ List.replicate macSize 0 := by
    rw [List.append_assoc, List.drop_left' (MsgHeader.length_write _)]
  have hbl : ({ ser.currentHeader with type }.write ++ writes.flatten ++ List.replicate macSize 0).length -
      MsgHeader.SIZE + 0 = writes.flatten.length + macSize := by
    rw [List.length_append, List.length_append, MsgHeader.length_write, List.length_replicate]
    omega
  rw [hb, hbl, MsgSerializeOstream.currentHeader_write, hhdr', hhdr] at hflat
  rw [hbl, MsgSerializeOstream.currentHeader_write, hhdr', hhdr] at hcur
  set frags := ((writes.foldl MsgSerializeOstream.write (ser.newMessage type)).write
    (List.replicate macSize 0)).finalize 0 |>.1 with hfrags
  set header : MsgHeader := { ser.currentHeader with type, size := UInt32.ofNat (writes.flatten.length + macSize) }
  have hlen : frags.flatten.length = MsgHeader.SIZE + writes.flatten.length + macSize := by
    rw [hflat, List.length_append, List.length_append, MsgHeader.length_write, List.length_replicate,
      Nat.add_assoc]
  -- the MAC is of the header and the body
  have hmac : macLoop ((frags.map List.length).sum - macSize) frags = header.write ++ writes.flatten := by
    rw [← List.length_flatten, macLoop_eq _ _ (Nat.sub_le _ _), hlen, hflat, ← List.append_assoc,
      List.take_append_of_le_length (by rw [List.length_append, MsgHeader.length_write]; omega),
      List.take_of_length_le (by rw [List.length_append, MsgHeader.length_write]; omega)]
  -- the MAC over the placeholder, and every fragment encrypted
  have hmac_len : (mac (header.write ++ writes.flatten)).toList.length = macSize := Vector.length_toList
  obtain ⟨hseal, hat'⟩ := sealLoop_spec hmac_len frags pp.cipherOut p hat
  rw [send, encrypt, if_neg hmode]
  dsimp only
  rw [← hfrags, hmac, ← List.length_flatten]
  refine ⟨?_, hidle, hcur, rfl, by rw [← hlen]; exact hat'⟩
  rw [hseal, hlen, show MsgHeader.SIZE + writes.flatten.length + macSize - macSize =
      (header.write ++ writes.flatten).length by rw [List.length_append, MsgHeader.length_write]; omega,
    show macSize - (MsgHeader.SIZE + writes.flatten.length + macSize) = 0 by omega, List.drop_zero, hflat,
    ← List.append_assoc, List.take_left]

end ProtocolPlus

end Beam.Proto
