import Beam.Core.Proto

/-!
# Sent messages are read back

The two ends of a connection past the handshake, both in `Duplex` mode: `ProtocolPlus::Encrypt`
on the sending side, and on the other the `MsgReader` with a `ProtocolPlus` as its protocol,
its inbound cipher at the place in the key stream where the sender's outbound cipher
started.  The main result, `encrypted_framing_round_trip`: however the fragments on the
wire are cut into reads, the reader delivers every message once, in order, with its type
and its body.

The two sides meet at the sealed messages, header, body and MAC, xor-ed with the key stream.
`sendAll_spec` shows the sender puts them on the wire.  On the reader's side `ProtocolPlus`
is simulated by `specProtocol`, whose state is only the mode and a position in the key
stream (`simulates_spec`); its `Decrypt` splits (`decryptSplits_spec`), so that the cut into
reads does not matter (`MsgReader.feed_splits`), and it reads the sealed messages one after
another (`spec_reads_all`).
-/

namespace Beam.Proto

open ByteStream Aes P2p

namespace ProtocolPlus

/-! ## The inbound side as a position in the key stream -/

/-- A `ProtocolPlus` seen from its inbound side: the mode, and the position in the key
stream `ks` where the inbound cipher stands. -/
def specProtocol (mac : List UInt8 → Vector UInt8 macSize) (cfg : ProtocolConfig) (ks : Nat → UInt8) :
    ProtocolBase (Mode × Nat) :=
  { cfg with
    decrypt := fun s d => if s.1 = .duplex then (xorAt ks s.2 d, (s.1, s.2 + d.length)) else (d, s)
    getMacSize := fun s => getMacSize s.1
    verifyMsg := fun s => verifyMsg mac s.1 }

theorem specProtocol_decrypt (mac : List UInt8 → Vector UInt8 macSize) (cfg : ProtocolConfig) (ks : Nat → UInt8)
    (s : Mode × Nat) (d : List UInt8) :
    (specProtocol mac cfg ks).decrypt s d = if s.1 = .duplex then (xorAt ks s.2 d, (s.1, s.2 + d.length)) else (d, s) :=
  rfl

theorem specProtocol_decrypt_duplex (mac : List UInt8 → Vector UInt8 macSize) (cfg : ProtocolConfig)
    (ks : Nat → UInt8) (p : Nat) (d : List UInt8) :
    (specProtocol mac cfg ks).decrypt (.duplex, p) d = (xorAt ks p d, (.duplex, p + d.length)) := by
  rw [specProtocol_decrypt, if_pos rfl]

variable {enc : Nat → Vector UInt8 16} {mac : List UInt8 → Vector UInt8 macSize}

theorem decryptSplits_spec (cfg : ProtocolConfig) (ks : Nat → UInt8) :
    MsgReader.DecryptSplits (specProtocol mac cfg ks) where
  length s d := by
    rw [specProtocol_decrypt]
    split
    · exact length_xorAt ks s.2 d
    · rfl
  nil s := by
    rw [specProtocol_decrypt]
    split
    · rw [xorAt_nil, List.length_nil, Nat.add_zero]
    · rfl
  append s a b := by
    simp only [specProtocol_decrypt]
    by_cases h : s.1 = .duplex
    · simp only [if_pos h, xorAt_append, List.length_append, Nat.add_assoc]
    · simp only [if_neg h]

/-- The inbound side of `pp` is at the position `s` of the key stream of `c0`. -/
def Tracks (enc : Nat → Vector UInt8 16) (c0 : Nat) (pp : ProtocolPlus) (s : Mode × Nat) : Prop :=
  pp.mode = s.1 ∧ StreamCipher.At enc pp.cipherIn c0 s.2

/-- **`ProtocolPlus` reads as its position in the key stream**: `Decrypt` through
`XCrypt` is the xor with the key stream from where the inbound cipher stands. -/
theorem simulates_spec (cfg : ProtocolConfig) (c0 : Nat) :
    MsgReader.Simulates (protocol enc mac cfg) (specProtocol mac cfg (StreamCipher.keyStream enc c0))
      (Tracks enc c0) where
  approve _ := rfl
  onNewMessage _ _ := rfl
  decrypt pp s d hR := by
    obtain ⟨hm, hat⟩ := hR
    show (decrypt enc pp d).1 = _ ∧ Tracks enc c0 (decrypt enc pp d).2 _
    rw [decrypt, specProtocol_decrypt]
    by_cases h : pp.mode = .duplex
    · obtain ⟨hx, hat'⟩ := StreamCipher.xcrypt_spec pp.cipherIn d hat
      rw [if_pos h, if_pos (hm ▸ h)]
      exact ⟨hx, hm, hat'⟩
    · rw [if_neg h, if_neg (hm ▸ h)]
      exact ⟨rfl, hm, hat⟩
  getMacSize pp s hR := by
    show getMacSize pp.mode = getMacSize s.1
    rw [hR.1]
  verifyMsg pp s buf hR := by
    show verifyMsg mac pp.mode buf = verifyMsg mac s.1 buf
    rw [hR.1]

/-! ## The sealed messages -/

/-- The header `Send` writes for a message of type `type` with the body `body`, the
serializer's header before it being `h0`: the size counts the body and the MAC. -/
def msgHeader (h0 : MsgHeader) (type : UInt8) (body : List UInt8) : MsgHeader :=
  { h0 with type, size := UInt32.ofNat (body.length + macSize) }

/-- A message before encryption: its header, its body and the MAC of both. -/
def sealed (mac : List UInt8 → Vector UInt8 macSize) (header : MsgHeader) (body : List UInt8) : List UInt8 :=
  header.write ++ body ++ (mac (header.write ++ body)).toList

theorem length_sealed (header : MsgHeader) (body : List UInt8) :
    (sealed mac header body).length = MsgHeader.SIZE + body.length + macSize := by
  rw [sealed, List.length_append, List.length_append, MsgHeader.length_write, Vector.length_toList]

/-- The messages one after another, sealed with the headers from `h0`. -/
def sealedAll (mac : List UInt8 → Vector UInt8 macSize) (h0 : MsgHeader) (msgs : List (UInt8 × List UInt8)) :
    List UInt8 :=
  (msgs.map fun m => sealed mac (msgHeader h0 m.1 m.2) m.2).flatten

theorem sealedAll_nil (h0 : MsgHeader) : sealedAll mac h0 [] = [] := rfl

theorem sealedAll_cons (h0 : MsgHeader) (m : UInt8 × List UInt8) (ms : List (UInt8 × List UInt8)) :
    sealedAll mac h0 (m :: ms) = sealed mac (msgHeader h0 m.1 m.2) m.2 ++ sealedAll mac h0 ms := rfl

/-- **What `Send` puts on the wire, message after message**: the sealed messages xor-ed with
the outbound key stream; the serializer keeps its versions, the mode does not change and the
outbound cipher stands after the last message. -/
theorem sendAll_spec {c0 : Nat} :
    ∀ (msgs : List (UInt8 × List (List UInt8))) (ser : MsgSerializeOstream) (pp : ProtocolPlus) (p : Nat),
      ser.Idle → pp.mode ≠ .plaintext → StreamCipher.At enc pp.cipherOut c0 p →
      (sendAll enc mac (ser, pp) msgs).1.flatten =
          xorAt (StreamCipher.keyStream enc c0) p
            (sealedAll mac ser.currentHeader (msgs.map fun m => (m.1, m.2.flatten))) ∧
        (sendAll enc mac (ser, pp) msgs).2.2.mode = pp.mode ∧
        StreamCipher.At enc (sendAll enc mac (ser, pp) msgs).2.2.cipherOut c0
          (p + (sealedAll mac ser.currentHeader (msgs.map fun m => (m.1, m.2.flatten))).length)
  | [], ser, pp, p, _, _, hat => ⟨rfl, rfl, hat⟩
  | m :: ms, ser, pp, p, hser, hmode, hat => by
    obtain ⟨hwire, hidle, hcur, hpp, hat'⟩ := @send_spec enc mac _ hser _ hmode _ _ hat m.1 m.2
    change _ = xorAt _ p (sealed mac (msgHeader ser.currentHeader m.1 m.2.flatten) m.2.flatten) at hwire
    have hmode' : (send enc mac pp ser m.1 m.2).2.2.mode = pp.mode := by rw [hpp]
    rw [← @length_sealed mac (msgHeader ser.currentHeader m.1 m.2.flatten)] at hat'
    obtain ⟨hrest, hrmode, hrat⟩ := sendAll_spec ms _ _ _ hidle (hmode' ▸ hmode) hat'
    -- the next message's header is made from the one before, which differs only in type and size
    have hh : ∀ msgs, sealedAll mac (send enc mac pp ser m.1 m.2).2.1.currentHeader msgs =
        sealedAll mac ser.currentHeader msgs :=
      fun msgs => by rw [hcur]; rfl
    rw [hh] at hrest hrat
    rw [sendAll]
    dsimp only
    refine ⟨?_, hrmode.trans hmode', ?_⟩
    · rw [List.flatten_append, hwire, hrest, ← xorAt_append]
      rfl
    · rw [List.map_cons, sealedAll_cons, List.length_append, ← Nat.add_assoc]
      exact hrat

/-! ## Reading the sealed messages -/

section Read

variable {cfg : ProtocolConfig} {ks : Nat → UInt8} {r : MsgReader} {h0 : MsgHeader}

/-- What a message must be for the reader to take it: a type the reader expects and the
protocol approves with the header's size, a size that fits the header, and a body its
callback accepts. -/
def Deliverable (cfg : ProtocolConfig) (r : MsgReader) (h0 : MsgHeader) (m : UInt8 × List UInt8) : Prop :=
  r.expectedMsgTypes m.1 = true ∧ cfg.approveMsgHeader (msgHeader h0 m.1 m.2) = true ∧
    m.2.length + macSize < 2 ^ 32 ∧ cfg.onNewMessage m.1 m.2 = true

/-- `VerifyMsg` takes the MAC of header and body. -/
theorem verifyMsg_sealed (header : MsgHeader) (body : List UInt8) :
    verifyMsg mac .duplex (sealed mac header body) = true := by
  have hlen : (sealed mac header body).length - macSize = (header.write ++ body).length := by
    rw [length_sealed, List.length_append, MsgHeader.length_write]; omega
  rw [verifyMsg, if_neg (by decide), if_neg (by rw [length_sealed]; omega), hlen, sealed, List.take_left,
    List.drop_left]
  exact beq_self_eq_true _

/-- **One sealed message.** The reader between two messages reads the header and the body
and MAC of a sealed message, xor-ed with the key stream from its position, gives the body to
`on_new_message` and is between two messages again, after the message in the key stream. -/
theorem spec_reads_message (hr : r.Idle) {m : UInt8 × List UInt8} (hm : Deliverable cfg r h0 m) (p : Nat)
    (rest : List UInt8) :
    MsgReader.readLoop (specProtocol mac cfg ks) r (.duplex, p)
        (xorAt ks p (sealed mac (msgHeader h0 m.1 m.2) m.2) ++ rest) =
      (⟨true, r, (.duplex, p + (sealed mac (msgHeader h0 m.1 m.2) m.2).length), [m]⟩ : Outcome _).andThen
        fun r' s' => MsgReader.readLoop (specProtocol mac cfg ks) r' s' rest := by
  obtain ⟨hexp, happ, hsize, hon⟩ := hm
  set header := msgHeader h0 m.1 m.2
  set tail := m.2 ++ (mac (header.write ++ m.2)).toList
  have hsealed : sealed mac header m.2 = header.write ++ tail := by rw [sealed, List.append_assoc]
  have hd1 := specProtocol_decrypt_duplex mac cfg ks p (xorAt ks p header.write)
  have hd2 := specProtocol_decrypt_duplex mac cfg ks (p + header.write.length)
    (xorAt ks (p + header.write.length) tail)
  rw [xorAt_xorAt, length_xorAt] at hd1
  rw [xorAt_xorAt, length_xorAt] at hd2
  have hread : MsgHeader.read header.write = header := by
    simpa only [List.append_nil] using MsgHeader.read_write header []
  have htail : tail.length = m.2.length + macSize := by
    rw [List.length_append, Vector.length_toList]
  have hsize' : header.size.toNat = m.2.length + macSize := UInt32.toNat_ofNat_of_lt' hsize
  -- the payload is the body: the header's size less the MAC
  have hpay : tail.take (header.size - (specProtocol mac cfg ks).getMacSize
      (.duplex, p + header.write.length + tail.length)).toNat = m.2 := by
    have hmac : ((specProtocol mac cfg ks).getMacSize (.duplex, p + header.write.length + tail.length)).toNat =
        macSize := rfl
    rw [UInt32.toNat_sub_of_le _ _ (by rw [UInt32.le_iff_toNat_le, hmac, hsize']; omega), hmac, hsize',
      Nat.add_sub_cancel, List.take_left]
  have hmsg := MsgReader.readLoop_message (decryptSplits_spec cfg ks) hr (.duplex, p) (xorAt ks p header.write)
    (xorAt ks (p + header.write.length) tail) rest (length_xorAt ks p header.write)
    (by rw [hd1, hread]; exact happ) (by rw [hd1, hread]; exact hexp)
    (by rw [length_xorAt, hd1, hread, hsize', htail])
    (by rw [hd1, hd2, ← hsealed]; exact verifyMsg_sealed header m.2)
  have hon' : (specProtocol mac cfg ks).onNewMessage m.1 m.2 = true := hon
  rw [hd1, hd2, hread, hpay, show header.type = m.1 from rfl, hon'] at hmsg
  have hlen : (sealed mac header m.2).length = header.write.length + tail.length := by
    rw [hsealed, List.length_append]
  rw [hlen, hsealed, xorAt_append, hmsg, Nat.add_assoc]

/-- **All the sealed messages**, one after another, each deliverable: the reader delivers them
in order and ends between two messages, after the last of them in the key stream. -/
theorem spec_reads_all (hr : r.Idle) :
    ∀ (msgs : List (UInt8 × List UInt8)), (∀ m ∈ msgs, Deliverable cfg r h0 m) → ∀ p,
      (MsgReader.readLoop (specProtocol mac cfg ks) r (.duplex, p) (xorAt ks p (sealedAll mac h0 msgs))).toOption =
        some ((r, (.duplex, p + (sealedAll mac h0 msgs).length)), msgs)
  | [], _, p => by
    rw [sealedAll_nil, xorAt_nil,
      MsgReader.readLoop_nil (by rw [hr.1]; decide), Outcome.toOption_ok, List.length_nil, Nat.add_zero]
  | m :: ms, hms, p => by
    have hrest := spec_reads_all hr ms (fun m' hm' => hms m' (List.mem_cons_of_mem m hm'))
    rw [sealedAll_cons, xorAt_append, spec_reads_message hr (hms m List.mem_cons_self),
      Outcome.toOption_andThen, Outcome.toOption_ok, Option.bind_some]
    dsimp only
    rw [hrest, Option.map_some, List.length_append, Nat.add_assoc]
    rfl

end Read

/-! ## The round trip -/

/-- The `ProtocolPlus` reader reads whatever chunks the reader of `specProtocol` reads, from an
inbound cipher at the position of the latter, and delivers the same messages. -/
theorem feedChunks_of_spec (cfg : ProtocolConfig) (c0 : Nat) {cs : List (List UInt8)} {r r' : MsgReader}
    {ppR : ProtocolPlus} {s s' : Mode × Nat} {out : List Msg} (hT : Tracks enc c0 ppR s)
    (h : feedChunks (MsgReader.feed (specProtocol mac cfg (StreamCipher.keyStream enc c0))) (r, s) cs =
      some ((r', s'), out)) :
    ∃ ppR', feedChunks (MsgReader.feed (protocol enc mac cfg)) (r, ppR) cs = some ((r', ppR'), out) ∧
      Tracks enc c0 ppR' s' := by
  -- one read at a time, by the simulation of `ProtocolPlus` by `specProtocol`
  obtain ⟨⟨r1, ppR'⟩, hfeed, hr1, hT'⟩ := feedChunks_sim (fun x y => x.1 = y.1 ∧ Tracks enc c0 x.2 y.2)
    (fun x y a y' o hR hg => by
      obtain ⟨r2, y2⟩ := y
      obtain ⟨h1, hR⟩ := hR
      dsimp only at h1 hR
      obtain ⟨x', hf, hR'⟩ := MsgReader.feed_sim (simulates_spec cfg c0) hR (h1 ▸ hg)
      exact ⟨(y'.1, x'), hf, rfl, hR'⟩)
    cs (r, ppR) (r, s) (r', s') out ⟨rfl, hT⟩ h
  dsimp only at hr1
  subst hr1
  exact ⟨ppR', hfeed, hT'⟩

/-- **Sent messages are read back, however the wire is cut.** A sender between two messages,
with the receiver's versions, and a receiver between two messages, both in duplex mode, the
sender's outbound and the receiver's inbound cipher at the same place `p` of the key stream of
`c0`.  For messages each of a type the receiver expects and approves with the size of its
body and MAC, and whose body its callback accepts, any cut `cs` into reads of the fragments
`Send` puts on the wire is read with every message delivered once, in order, with its type
and its body; the receiver's inbound cipher stands after the last message. -/
theorem encrypted_framing_round_trip (cfg : ProtocolConfig) (msgs : List (UInt8 × List (List UInt8)))
    {ser : MsgSerializeOstream} (hser : ser.Idle)
    (hV : ser.currentHeader.V0 = cfg.V0 ∧ ser.currentHeader.V1 = cfg.V1 ∧ ser.currentHeader.V2 = cfg.V2)
    {pp ppR : ProtocolPlus} (hmode : pp.mode = .duplex) (hmodeR : ppR.mode = .duplex) {c0 p : Nat}
    (hout : StreamCipher.At enc pp.cipherOut c0 p) (hin : StreamCipher.At enc ppR.cipherIn c0 p)
    {r : MsgReader} (hr : r.Idle)
    (hmsgs : ∀ m ∈ msgs, r.expectedMsgTypes m.1 = true ∧ m.1.toNat < cfg.maxMessageTypes ∧
      (cfg.dispatchTable m.1).minSize ≤ m.2.flatten.length + macSize ∧
      m.2.flatten.length + macSize ≤ (cfg.dispatchTable m.1).maxSize ∧
      m.2.flatten.length + macSize < 2 ^ 32 ∧ cfg.onNewMessage m.1 m.2.flatten = true)
    (cs : List (List UInt8)) (hcs : cs.flatten = (sendAll enc mac (ser, pp) msgs).1.flatten) :
    ∃ ppR', feedChunks (MsgReader.feed (protocol enc mac cfg)) (r, ppR) cs =
        some ((r, ppR'), msgs.map fun m => (m.1, m.2.flatten)) ∧
      ppR'.mode = .duplex ∧ StreamCipher.At enc ppR'.cipherIn c0 (p + cs.flatten.length) := by
  obtain ⟨hwire, -, -⟩ := sendAll_spec msgs ser pp p hser (by rw [hmode]; decide) hout
  -- every message passes `approve_msg_header` and has a callback
  have hdel : ∀ m ∈ msgs.map (fun m => (m.1, m.2.flatten)), Deliverable cfg r ser.currentHeader m := by
    intro m hm
    obtain ⟨m0, hm0, rfl⟩ := List.mem_map.mp hm
    obtain ⟨hexp, htype, hmin, hmax, hsize, hon⟩ := hmsgs m0 hm0
    have hs : (msgHeader ser.currentHeader m0.1 m0.2.flatten).size.toNat = m0.2.flatten.length + macSize :=
      UInt32.toNat_ofNat_of_lt' hsize
    refine ⟨hexp, ?_, hsize, hon⟩
    dsimp only
    rw [ProtocolConfig.approveMsgHeader_iff, hs]
    exact ⟨hV.1, hV.2.1, hV.2.2, htype, cfg.isSome_callback_of_onNewMessage hon, hmin, hmax⟩
  -- the reader of `specProtocol` reads the wire as one chunk
  have hspec : feedChunks (MsgReader.feed (specProtocol mac cfg (StreamCipher.keyStream enc c0))) (r, (.duplex, p))
      cs = some ((r, (.duplex, p + cs.flatten.length)), msgs.map fun m => (m.1, m.2.flatten)) := by
    rw [feedChunks_flatten (MsgReader.feed_splits (decryptSplits_spec cfg _)), MsgReader.feed_of_idle hr, hcs, hwire,
      length_xorAt]
    exact spec_reads_all hr _ hdel p
  obtain ⟨ppR', hfeed, hmR, hatR⟩ := feedChunks_of_spec cfg c0 ⟨hmodeR, hin⟩ hspec
  exact ⟨ppR', hfeed, hmR, hatR⟩

theorem encrypted_framing_round_trip_two_messages :
    let enc : Nat → Vector UInt8 16 := fun n => Vector.replicate 16 (UInt8.ofNat n)
    let mac : List UInt8 → Vector UInt8 macSize := fun b => Vector.replicate macSize (UInt8.ofNat b.length)
    let cfg : ProtocolConfig := ⟨0, 0, 1, 8, fun _ => ⟨some fun _ => true, 0, 64⟩⟩
    let c : StreamCipher := ⟨0, Vector.replicate 16 0, 0⟩
    let pp : ProtocolPlus := ⟨.duplex, c, c⟩
    let ser := MsgSerializeOstream.init 16 (by decide) ⟨0, 0, 1, 0, 0⟩
    let r : MsgReader := ⟨MsgHeader.SIZE, .readingHeader, [], fun _ => true⟩
    let msgs : List (UInt8 × List (List UInt8)) := [(5, [[1, 2], [3]]), (6, [])]
    ∃ ppR', feedChunks (MsgReader.feed (protocol enc mac cfg)) (r, pp) (sendAll enc mac (ser, pp) msgs).1 =
        some ((r, ppR'), [(5, [1, 2, 3]), (6, [])]) ∧
      ppR'.mode = .duplex ∧
      StreamCipher.At enc ppR'.cipherIn 0 (0 + (sendAll enc mac (ser, pp) msgs).1.flatten.length) :=
  encrypted_framing_round_trip _ _ ⟨rfl, rfl, rfl⟩ ⟨rfl, rfl, rfl⟩ rfl rfl (StreamCipher.at_start rfl (by decide))
    (StreamCipher.at_start rfl (by decide)) ⟨rfl, rfl, rfl⟩ (by decide) _ rfl


end ProtocolPlus

end Beam.Proto
