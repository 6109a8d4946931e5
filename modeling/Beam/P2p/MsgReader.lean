import Beam.P2p.ProtocolBase
import Beam.Lib.ByteStream

/-!
# `MsgReader`: messages out of a byte stream

`MsgReader::new_data_from_stream` (`src/p2p/msg_reader.cpp`) is given the bytes of the
stream as they arrive.  It copies them to `_msgBuffer` and decrypts exactly as many as it
expects, the header's 8 bytes and then the header's `size` bytes of the message, so that
the cipher never runs ahead of a message the protocol may change it after.  When the header
is complete the protocol approves it; when the message is complete the protocol verifies
it and `on_new_message` is given the message without its MAC.  The reader is generic over
the protocol's hooks (`ProtocolBase σ`).

The results:
* `readLoop_append`: for a protocol whose `Decrypt` reads a concatenation as its parts in
  turn, the reader does too, so the cut of the stream into calls does not matter
  (`feed_splits`);
* `readLoop_sim`: two protocols whose hooks agree on related states drive the reader
  alike;
* `readLoop_message`: from between two messages, the reader delivers a whole message
  whose header it approves and whose MAC it verifies, and is between two messages again.
-/

namespace Beam.P2p

open ByteStream

/-- `MsgReader::State`. -/
inductive State
  | readingHeader
  | readingMessage
  deriving DecidableEq, Repr

/-- `MsgReader`: the bytes left before the header or the message is complete, the state, the
bytes of `_msgBuffer` before `_cursor`, and `_expectedMsgTypes`. -/
structure MsgReader where
  bytesLeft : Nat
  state : State
  msgBuffer : List UInt8
  expectedMsgTypes : UInt8 → Bool

/-- A message as `on_new_message` is given it: its type and its bytes. -/
abbrev Msg := UInt8 × List UInt8

/-- What a call of the reader ends with: its result, the reader, the protocol's state, and
the messages given to `on_new_message` on the way. -/
structure Outcome (σ : Type) where
  ok : Bool
  reader : MsgReader
  protocol : σ
  delivered : List Msg

namespace MsgReader

/-- `MsgReader::reset`, also the state between two messages. -/
def reset (r : MsgReader) : MsgReader :=
  { r with bytesLeft := MsgHeader.SIZE, state := .readingHeader, msgBuffer := [] }

/-- A reader between two messages. -/
def Idle (r : MsgReader) : Prop :=
  r.bytesLeft = MsgHeader.SIZE ∧ r.state = .readingHeader ∧ r.msgBuffer = []

theorem reset_of_idle {r : MsgReader} (h : r.Idle) : r.reset = r := by
  obtain ⟨h1, h2, h3⟩ := h
  cases r
  simp only [reset] at h1 h2 h3 ⊢
  rw [h1, h2, h3]

/-- How far a reader with nothing left to read is from reading again: what makes the loop
of `new_data_from_stream` terminate on a header of size zero. -/
def rank (r : MsgReader) : Nat :=
  if r.bytesLeft = 0 then (match r.state with | .readingHeader => 2 | .readingMessage => 1) else 0

theorem rank_le (r : MsgReader) : r.rank ≤ 2 := by
  unfold rank
  split
  · split <;> omega
  · omega

end MsgReader

namespace Outcome

variable {σ : Type}

/-- The outcome followed by what `f` does from its reader and protocol state, when it is a
success. -/
def andThen (o : Outcome σ) (f : MsgReader → σ → Outcome σ) : Outcome σ :=
  if o.ok then
    let o' := f o.reader o.protocol
    { o' with delivered := o.delivered ++ o'.delivered }
  else o

/-- A successful outcome as its reader and state with what it delivered, a failure as
`none`: the connection is dropped after a failure. -/
def toOption (o : Outcome σ) : Option ((MsgReader × σ) × List Msg) :=
  if o.ok then some ((o.reader, o.protocol), o.delivered) else none

@[simp] theorem toOption_ok (r : MsgReader) (s : σ) (d : List Msg) :
    (⟨true, r, s, d⟩ : Outcome σ).toOption = some ((r, s), d) := rfl

theorem toOption_of_ok {o : Outcome σ} (h : o.ok = true) :
    o.toOption = some ((o.reader, o.protocol), o.delivered) := by
  rw [toOption, if_pos h]

theorem toOption_of_not_ok {o : Outcome σ} (h : o.ok = false) : o.toOption = none := by
  rw [toOption, if_neg (by rw [h]; decide)]

theorem map_nil_append (x : Option ((MsgReader × σ) × List Msg)) : x.map (fun y => (y.1, [] ++ y.2)) = x := by
  cases x <;> rfl

theorem toOption_andThen (o : Outcome σ) (f : MsgReader → σ → Outcome σ) :
    (o.andThen f).toOption =
      o.toOption.bind fun x => (f x.1.1 x.1.2).toOption.map fun y => (y.1, x.2 ++ y.2) := by
  unfold andThen toOption
  by_cases ho : o.ok
  · by_cases hf : (f o.reader o.protocol).ok <;> simp [ho, hf]
  · simp [ho]

end Outcome

namespace MsgReader

variable {σ : Type} (P : ProtocolBase σ)

/-- The body of the loop of `new_data_from_stream` once the header or the message is
complete: `buf` is `_msgBuffer` up to the cursor, decrypted, and `s` the protocol's state
after decrypting it.  A header must be approved and its type enabled; a message must verify,
and is given to `on_new_message` without the MAC (`header.size - get_MacSize()`, in
`uint32_t`). -/
def complete (r : MsgReader) (buf : List UInt8) (s : σ) : Outcome σ :=
  let header := MsgHeader.read buf
  match r.state with
  | .readingHeader =>
    if !P.approveMsgHeader header then ⟨false, r, s, []⟩
    else if !r.expectedMsgTypes header.type then ⟨false, r, s, []⟩
    else ⟨true, { r with bytesLeft := header.size.toNat, msgBuffer := buf, state := .readingMessage }, s, []⟩
  | .readingMessage =>
    if !P.verifyMsg s buf then ⟨false, r, s, []⟩
    else
      let m : Msg := (header.type, (buf.drop MsgHeader.SIZE).take (header.size - P.getMacSize s).toNat)
      -- `reset` whether or not `on_new_message` accepts the message
      ⟨P.onNewMessage m.1 m.2, r.reset, s, [m]⟩

theorem rank_complete {r : MsgReader} {buf : List UInt8} {s : σ} (hok : (complete P r buf s).ok = true)
    (h0 : r.bytesLeft = 0) : (complete P r buf s).reader.rank < r.rank := by
  unfold complete at hok ⊢
  cases hs : r.state
  · simp only [hs] at hok ⊢
    split_ifs at hok ⊢
    simp only [rank, h0, hs, if_true]
    split <;> omega
  · simp only [hs] at hok ⊢
    split_ifs at hok ⊢
    simp [rank, reset, h0, hs, MsgHeader.SIZE]

/-- The loop of `MsgReader::new_data_from_stream`: while the data hold the bytes left, they
are decrypted and the header or message completed; the rest is decrypted into the buffer. -/
def readLoop (r : MsgReader) (s : σ) (data : List UInt8) : Outcome σ :=
  if r.bytesLeft ≤ data.length then
    let d := P.decrypt s (data.take r.bytesLeft)
    let o := complete P r (r.msgBuffer ++ d.1) d.2
    if o.ok then
      let o' := readLoop o.reader o.protocol (data.drop r.bytesLeft)
      { o' with delivered := o.delivered ++ o'.delivered }
    else o
  else if data = [] then ⟨true, r, s, []⟩
  else
    let d := P.decrypt s data
    ⟨true, { r with msgBuffer := r.msgBuffer ++ d.1, bytesLeft := r.bytesLeft - data.length }, d.2, []⟩
termination_by 3 * data.length + r.rank
decreasing_by
  rename_i hle hok
  simp +zetaDelta only at hok
  have h2 := rank_le (complete P r (r.msgBuffer ++ (P.decrypt s (data.take r.bytesLeft)).1)
    (P.decrypt s (data.take r.bytesLeft)).2).reader
  rw [List.length_drop]
  rcases Nat.eq_zero_or_pos r.bytesLeft with h0 | hpos
  · have := rank_complete P hok h0
    omega
  · omega

/-- `MsgReader::new_data_from_stream` on data that arrived without a connection error. -/
def newDataFromStream (r : MsgReader) (s : σ) (data : List UInt8) : Outcome σ :=
  if data = [] then ⟨true, r, s, []⟩ else readLoop P r s data

/-- The reader and the protocol's state given the data of one read from the stream, `none`
once the reader has failed. -/
def feed (rs : MsgReader × σ) (data : List UInt8) : Option ((MsgReader × σ) × List Msg) :=
  (newDataFromStream P rs.1 rs.2 data).toOption

/-! ## Unfolding the loop -/

section Unfold

variable {P}

theorem readLoop_of_le {r : MsgReader} {s : σ} {data : List UInt8} (h : r.bytesLeft ≤ data.length) :
    readLoop P r s data =
      (complete P r (r.msgBuffer ++ (P.decrypt s (data.take r.bytesLeft)).1)
        (P.decrypt s (data.take r.bytesLeft)).2).andThen
        fun r' s' => readLoop P r' s' (data.drop r.bytesLeft) := by
  rw [readLoop, if_pos h]
  rfl

theorem readLoop_nil {r : MsgReader} {s : σ} (h : 0 < r.bytesLeft) : readLoop P r s [] = ⟨true, r, s, []⟩ := by
  rw [readLoop, if_neg (by rw [List.length_nil]; omega), if_pos rfl]

/-- Fewer bytes than expected are decrypted into the buffer. -/
theorem readLoop_of_lt {r : MsgReader} {s : σ} {data : List UInt8} (h : data.length < r.bytesLeft)
    (hne : data ≠ []) :
    readLoop P r s data =
      ⟨true, { r with msgBuffer := r.msgBuffer ++ (P.decrypt s data).1, bytesLeft := r.bytesLeft - data.length },
        (P.decrypt s data).2, []⟩ := by
  rw [readLoop, if_neg (by omega), if_neg hne]

/-- What `complete` does next depends on the reader only through its state and the types it
expects. -/
theorem toOption_complete {r r' : MsgReader} (hs : r.state = r'.state)
    (he : r.expectedMsgTypes = r'.expectedMsgTypes) (buf : List UInt8) (s : σ) :
    (complete P r buf s).toOption = (complete P r' buf s).toOption := by
  obtain ⟨bl, st, mb, ex⟩ := r
  obtain ⟨bl', st', mb', ex'⟩ := r'
  simp only at hs he
  subst hs he
  unfold complete
  cases st <;> simp only <;> split_ifs <;> rfl

end Unfold

/-! ## The cut of the stream does not matter -/

/-- `Decrypt` keeps lengths, reads nothing without a change and a concatenation as its
parts in turn, as a stream cipher does. -/
structure DecryptSplits : Prop where
  length : ∀ s d, (P.decrypt s d).1.length = d.length
  nil : ∀ s, P.decrypt s [] = ([], s)
  append : ∀ s a b, P.decrypt s (a ++ b) =
    ((P.decrypt s a).1 ++ (P.decrypt (P.decrypt s a).2 b).1, (P.decrypt (P.decrypt s a).2 b).2)

variable {P}

/-- **The reader reads a concatenation as its parts in turn**, for a protocol whose
`Decrypt` does. -/
theorem readLoop_append (hP : DecryptSplits P) (r : MsgReader) (s : σ) (a b : List UInt8) :
    (readLoop P r s (a ++ b)).toOption =
      (readLoop P r s a).toOption.bind fun x =>
        (readLoop P x.1.1 x.1.2 b).toOption.map fun y => (y.1, x.2 ++ y.2) := by
  induction r, s, a using readLoop.induct P with
  | case1 r s a hle _ _ hok ih =>
    -- the header or the message is complete within `a`
    simp +zetaDelta only at hok ih
    have hab : r.bytesLeft ≤ (a ++ b).length := by rw [List.length_append]; omega
    rw [readLoop_of_le hab, readLoop_of_le hle, List.take_append_of_le_length hle,
      List.drop_append_of_le_length hle, Outcome.toOption_andThen, Outcome.toOption_andThen,
      Outcome.toOption_of_ok hok, Option.bind_some, Option.bind_some, ih]
    cases (readLoop P _ _ (a.drop r.bytesLeft)).toOption with
    | none => rfl
    | some x => simp only [Option.bind_some, Option.map_some, Option.map_map, Function.comp_def, List.append_assoc]
  | case2 r s a hle _ _ hok =>
    simp +zetaDelta only [Bool.not_eq_true] at hok
    have hab : r.bytesLeft ≤ (a ++ b).length := by rw [List.length_append]; omega
    rw [readLoop_of_le hab, readLoop_of_le hle, List.take_append_of_le_length hle, Outcome.toOption_andThen,
      Outcome.toOption_andThen, Outcome.toOption_of_not_ok hok]
    rfl
  | case3 r s hlt =>
    rw [List.nil_append, readLoop_nil (by rw [List.length_nil] at hlt; omega), Outcome.toOption_ok, Option.bind_some,
      Outcome.map_nil_append]
  | case4 r s a hlt hne =>
    -- `a` ends within the header or the message: its bytes wait in the buffer
    rw [readLoop_of_lt (by omega) hne, Outcome.toOption_ok, Option.bind_some, Outcome.map_nil_append]
    by_cases hb : r.bytesLeft ≤ (a ++ b).length
    · have hb' : r.bytesLeft - a.length ≤ b.length := by rw [List.length_append] at hb; omega
      rw [readLoop_of_le hb, readLoop_of_le hb', List.take_append, List.take_of_length_le (by omega),
        List.drop_append, List.drop_eq_nil_of_le (by omega), List.nil_append, hP.append]
      dsimp only
      rw [Outcome.toOption_andThen, Outcome.toOption_andThen, List.append_assoc]
      congr 1
      exact toOption_complete (by rfl) (by rfl) _ _
    · rw [List.length_append] at hb
      by_cases hbn : b = []
      · subst hbn
        rw [List.append_nil, readLoop_of_lt (by omega) hne, readLoop_nil (by dsimp only; omega)]
      · rw [readLoop_of_lt (by rw [List.length_append]; omega) (by simp [hne]), readLoop_of_lt (by dsimp only; omega) hbn, hP.append]
        simp only [List.append_assoc, List.length_append, Nat.sub_sub]

/-- The reader reads nothing without a change, and a concatenation as its parts in turn:
**the cut of the stream into reads does not matter.** -/
theorem feed_nil (rs : MsgReader × σ) : feed P rs [] = some (rs, []) := by
  rw [feed, newDataFromStream, if_pos rfl, Outcome.toOption_ok]

theorem feed_of_ne_nil (rs : MsgReader × σ) {data : List UInt8} (h : data ≠ []) :
    feed P rs data = (readLoop P rs.1 rs.2 data).toOption := by
  rw [feed, newDataFromStream, if_neg h]

/-- The reader reads nothing without a change, and a concatenation as its parts in turn:
**the cut of the stream into reads does not matter.** -/
theorem feed_splits (hP : DecryptSplits P) : Splits (feed P) where
  nil := feed_nil
  append rs a b := by
    by_cases ha : a = []
    · subst ha
      rw [List.nil_append, feed_nil, Option.bind_some, Outcome.map_nil_append]
    by_cases hb : b = []
    · subst hb
      rw [List.append_nil]
      cases feed P rs a <;> simp [feed_nil]
    · rw [feed_of_ne_nil rs (by simp [ha]), feed_of_ne_nil rs ha, readLoop_append hP]
      cases (readLoop P rs.1 rs.2 a).toOption <;> simp [feed_of_ne_nil _ hb]

/-- From between two messages a read is the loop, also of no data. -/
theorem feed_of_idle {r : MsgReader} (hr : r.Idle) (s : σ) (data : List UInt8) :
    feed P (r, s) data = (readLoop P r s data).toOption := by
  by_cases h : data = []
  · rw [h, feed_nil, readLoop_nil (by rw [hr.1]; decide), Outcome.toOption_ok]
  · exact feed_of_ne_nil _ h

/-! ## Whole messages -/

theorem andThen_of_not_ok {o : Outcome σ} (h : o.ok = false) (f : MsgReader → σ → Outcome σ) :
    o.andThen f = o := by
  rw [Outcome.andThen, if_neg (by rw [h]; decide)]

theorem andThen_ok_nil {r : MsgReader} {s : σ} (f : MsgReader → σ → Outcome σ) :
    (⟨true, r, s, []⟩ : Outcome σ).andThen f = f r s := by
  simp only [Outcome.andThen, if_true, List.nil_append]

/-- **A whole message.** From between two messages, a header the protocol approves, of a type
the reader expects, followed by as many bytes as the header says, which the protocol
verifies: the reader gives the message to `on_new_message` without its MAC, and reads on
between two messages. -/
theorem readLoop_message (hP : DecryptSplits P) {r : MsgReader} (hr : r.Idle) (s : σ)
    (hd body rest : List UInt8) (hhd : hd.length = MsgHeader.SIZE)
    (happ : P.approveMsgHeader (MsgHeader.read (P.decrypt s hd).1) = true)
    (hexp : r.expectedMsgTypes (MsgHeader.read (P.decrypt s hd).1).type = true)
    (hbody : body.length = (MsgHeader.read (P.decrypt s hd).1).size.toNat)
    (hver : P.verifyMsg (P.decrypt (P.decrypt s hd).2 body).2
      ((P.decrypt s hd).1 ++ (P.decrypt (P.decrypt s hd).2 body).1) = true) :
    readLoop P r s (hd ++ body ++ rest) =
      (⟨P.onNewMessage (MsgHeader.read (P.decrypt s hd).1).type
          ((P.decrypt (P.decrypt s hd).2 body).1.take
            ((MsgHeader.read (P.decrypt s hd).1).size - P.getMacSize (P.decrypt (P.decrypt s hd).2 body).2).toNat),
        r, (P.decrypt (P.decrypt s hd).2 body).2,
        [((MsgHeader.read (P.decrypt s hd).1).type,
          (P.decrypt (P.decrypt s hd).2 body).1.take
            ((MsgHeader.read (P.decrypt s hd).1).size - P.getMacSize (P.decrypt (P.decrypt s hd).2 body).2).toNat)]⟩ :
        Outcome σ).andThen fun r' s' => readLoop P r' s' rest := by
  obtain ⟨hbl, hst, hbuf⟩ := id hr
  have hdec : (P.decrypt s hd).1.length = MsgHeader.SIZE := by rw [hP.length, hhd]
  have hreset : ∀ n b st, ({ r with bytesLeft := n, msgBuffer := b, state := st } : MsgReader).reset = r :=
    fun _ _ _ => reset_of_idle hr
  -- the header: approved, its type expected
  have h1 : r.bytesLeft ≤ (hd ++ body ++ rest).length := by
    rw [hbl, List.length_append, List.length_append]; omega
  rw [readLoop_of_le h1, hbl, List.append_assoc, ← hhd, List.take_left, List.drop_left, hbuf, List.nil_append]
  simp only [complete, hst, happ, hexp, Bool.not_true, Bool.false_eq_true, if_false]
  rw [andThen_ok_nil]
  -- the message: verified, delivered without its MAC
  have h2 : (MsgHeader.read (P.decrypt s hd).1).size.toNat ≤ (body ++ rest).length := by
    rw [List.length_append]; omega
  rw [readLoop_of_le h2, ← hbody, List.take_left, List.drop_left]
  simp only [complete, MsgHeader.read_append (Nat.le_of_eq hdec.symm), hver, Bool.not_true, Bool.false_eq_true,
    if_false, ← hdec, List.drop_left, hreset]

/-! ## Two protocols alike -/

section Sim

variable {τ : Type} {Q : ProtocolBase τ} {R : σ → τ → Prop}

variable (P Q R) in
/-- The protocols approve and deliver alike, and their hooks agree on states related by `R`
and keep them related. -/
structure Simulates : Prop where
  approve : ∀ h, P.approveMsgHeader h = Q.approveMsgHeader h
  onNewMessage : ∀ t d, P.onNewMessage t d = Q.onNewMessage t d
  decrypt : ∀ s t d, R s t → (P.decrypt s d).1 = (Q.decrypt t d).1 ∧ R (P.decrypt s d).2 (Q.decrypt t d).2
  getMacSize : ∀ s t, R s t → P.getMacSize s = Q.getMacSize t
  verifyMsg : ∀ s t buf, R s t → P.verifyMsg s buf = Q.verifyMsg t buf

variable (R) in
/-- Two outcomes alike: the same result, reader and messages, and related protocol states. -/
def OutcomeRel (o : Outcome σ) (o' : Outcome τ) : Prop :=
  o.ok = o'.ok ∧ o.reader = o'.reader ∧ o.delivered = o'.delivered ∧ R o.protocol o'.protocol

theorem complete_sim (h : Simulates P Q R) (r : MsgReader) (buf : List UInt8) {s : σ} {t : τ} (hR : R s t) :
    OutcomeRel R (complete P r buf s) (complete Q r buf t) := by
  unfold complete
  cases r.state
  · simp only [h.approve]
    split_ifs <;> exact ⟨rfl, rfl, rfl, hR⟩
  · simp only [h.verifyMsg s t buf hR, h.getMacSize s t hR, h.onNewMessage]
    split_ifs <;> exact ⟨rfl, rfl, rfl, hR⟩

theorem andThen_sim {o : Outcome σ} {o' : Outcome τ} (ho : OutcomeRel R o o')
    {f : MsgReader → σ → Outcome σ} {g : MsgReader → τ → Outcome τ}
    (hfg : o.ok = true → ∀ t, R o.protocol t → OutcomeRel R (f o.reader o.protocol) (g o.reader t)) :
    OutcomeRel R (o.andThen f) (o'.andThen g) := by
  obtain ⟨hok, hr, hd, hR⟩ := ho
  unfold Outcome.andThen
  by_cases h : o.ok
  · obtain ⟨h1, h2, h3, h4⟩ := hfg h o'.protocol hR
    rw [if_pos h, if_pos (hok ▸ h), ← hr]
    exact ⟨h1, h2, congrArg₂ (· ++ ·) hd h3, h4⟩
  · rw [if_neg h, if_neg (hok ▸ h)]
    exact ⟨hok, hr, hd, hR⟩

/-- **Protocols alike drive the reader alike.** -/
theorem readLoop_sim (h : Simulates P Q R) (r : MsgReader) (s : σ) (data : List UInt8) {t : τ} (hR : R s t) :
    OutcomeRel R (readLoop P r s data) (readLoop Q r t data) := by
  induction r, s, data using readLoop.induct P generalizing t with
  | case1 r s data hle _ _ _ =>
    rename_i ih
    simp +zetaDelta only at ih
    obtain ⟨hd, hR'⟩ := h.decrypt s t (data.take r.bytesLeft) hR
    rw [readLoop_of_le hle, readLoop_of_le hle, ← hd]
    exact andThen_sim (complete_sim h r _ hR') fun _ _ hR'' => ih hR''
  | case2 r s data hle _ _ =>
    rename_i hnok
    simp +zetaDelta only [Bool.not_eq_true] at hnok
    obtain ⟨hd, hR'⟩ := h.decrypt s t (data.take r.bytesLeft) hR
    have hc := complete_sim h r (r.msgBuffer ++ (P.decrypt s (data.take r.bytesLeft)).1) hR'
    rw [readLoop_of_le hle, readLoop_of_le hle, ← hd, andThen_of_not_ok hnok, andThen_of_not_ok (hc.1 ▸ hnok)]
    exact hc
  | case3 r s hlt =>
    rw [readLoop_nil (by rw [List.length_nil] at hlt; omega), readLoop_nil (by rw [List.length_nil] at hlt; omega)]
    exact ⟨rfl, rfl, rfl, hR⟩
  | case4 r s data hlt hne =>
    obtain ⟨hd, hR'⟩ := h.decrypt s t data hR
    rw [readLoop_of_lt (by omega) hne, readLoop_of_lt (by omega) hne, hd]
    exact ⟨rfl, rfl, rfl, hR'⟩

/-- A read the second protocol's reader makes, the first's makes alike. -/
theorem feed_sim (h : Simulates P Q R) {r r' : MsgReader} {s : σ} {t t' : τ} {data : List UInt8}
    {out : List Msg} (hR : R s t) (hQ : feed Q (r, t) data = some ((r', t'), out)) :
    ∃ s', feed P (r, s) data = some ((r', s'), out) ∧ R s' t' := by
  have ho : OutcomeRel R (newDataFromStream P r s data) (newDataFromStream Q r t data) := by
    unfold newDataFromStream
    split
    · exact ⟨rfl, rfl, rfl, hR⟩
    · exact readLoop_sim h r s data hR
  obtain ⟨hok, hr, hd, hR'⟩ := ho
  unfold feed Outcome.toOption at hQ ⊢
  split at hQ
  · rename_i hQok
    simp only [Option.some.injEq, Prod.mk.injEq] at hQ
    obtain ⟨⟨rfl, rfl⟩, rfl⟩ := hQ
    exact ⟨_, by rw [if_pos (hok ▸ hQok), hr, hd], hR'⟩
  · cases hQ

end Sim

end MsgReader

end Beam.P2p
