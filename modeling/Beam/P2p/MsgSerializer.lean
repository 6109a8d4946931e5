import Beam.P2p.ProtocolBase
import Beam.Lib.ByteStream

/-!
# `MsgSerializer`: a message into fragments

`io::FragmentWriter` (`src/utility/io/fragment_writer.cpp`) copies what it is given into
fragments of `fragmentSize` bytes and hands each on once it is full or the message is
finalized.  A write that does not fit the current fragment fills it first, unless fewer than
`headerSize` bytes are left in it: then the data start a new fragment, so a header is never
cut.  `MsgSerializeOstream` (`src/p2p/msg_serializer.cpp`) writes a message's header through
the writer first, keeps where it went, and at `finalize` writes it there again with the size
of the message.

What the serializer has written is denoted by its fragments followed by the writer's pending
bytes (`frames`).  The results: a message opened between two messages denotes its header
(`open_newMessage`), each write appends its bytes (`open_write`), and `finalize` gives
fragments that are the header with the size of the rest followed by the rest, leaving the
serializer between two messages (`finalize_spec`).
-/

namespace Beam.P2p

open ByteStream

/-- `io::FragmentWriter`: the fragment size and the header size it was made with (the
constructor asserts `_fragmentSize > _headerSize`), the bytes written since the last fragment
was handed on (from `_msgBase` to `_cursor`), and `_remaining`. -/
structure FragmentWriter where
  fragmentSize : Nat
  headerSize : Nat
  header_lt : headerSize < fragmentSize
  pending : List UInt8
  remaining : Nat

namespace FragmentWriter

/-- The loop `while (sz > 0)` of `FragmentWriter::write`: each round `new_fragment` hands on
the pending bytes, if any, and starts a fragment, which takes as much of the data as fits.
The fragments handed on, then the pending bytes and `_remaining` after the loop. -/
def writeLoop (w : FragmentWriter) (pending data : List UInt8) (remaining : Nat) :
    List (List UInt8) × List UInt8 × Nat :=
  if data = [] then ([], pending, remaining)
  else
    let r := writeLoop w (data.take (min w.fragmentSize data.length)) (data.drop (min w.fragmentSize data.length))
      (w.fragmentSize - min w.fragmentSize data.length)
    ((if pending = [] then [] else [pending]) ++ r.1, r.2)
termination_by data.length
decreasing_by
  rename_i hne
  have := w.header_lt
  have : data.length ≠ 0 := fun h => hne (List.eq_nil_of_length_eq_zero h)
  rw [List.length_drop]
  omega

/-- `FragmentWriter::write`: the writer after it, the fragments it handed on, and where the
data went (`where`): which of the fragments handed on from the call on, and the offset in it. -/
def write (w : FragmentWriter) (data : List UInt8) : FragmentWriter × List (List UInt8) × (Nat × Nat) :=
  if data = [] then (w, [], (0, w.pending.length))
  else if data.length ≤ w.remaining then
    ({ w with pending := w.pending ++ data, remaining := w.remaining - data.length }, [], (0, w.pending.length))
  else if w.headerSize ≤ w.remaining then
    -- the rest of the current fragment is filled first
    let r := writeLoop w (w.pending ++ data.take w.remaining) (data.drop w.remaining) w.remaining
    ({ w with pending := r.2.1, remaining := r.2.2 }, r.1, (0, w.pending.length))
  else
    -- too little is left for a header: the data start a new fragment
    let r := writeLoop w w.pending data w.remaining
    ({ w with pending := r.2.1, remaining := r.2.2 }, r.1, (if w.pending = [] then 0 else 1, 0))

/-- `FragmentWriter::finalize`: the pending bytes, if any, are handed on. -/
def finalize (w : FragmentWriter) : FragmentWriter × List (List UInt8) :=
  ({ w with pending := [] }, if w.pending = [] then [] else [w.pending])

theorem write_nil (w : FragmentWriter) : w.write [] = (w, [], (0, w.pending.length)) := by
  rw [write, if_pos rfl]

theorem write_of_le (w : FragmentWriter) {data : List UInt8} (h0 : data ≠ []) (h1 : data.length ≤ w.remaining) :
    w.write data =
      ({ w with pending := w.pending ++ data, remaining := w.remaining - data.length }, [], (0, w.pending.length)) := by
  rw [write, if_neg h0, if_pos h1]

theorem write_of_fill (w : FragmentWriter) {data : List UInt8} (h1 : w.remaining < data.length)
    (h2 : w.headerSize ≤ w.remaining) :
    w.write data =
      ({ w with pending := (writeLoop w (w.pending ++ data.take w.remaining) (data.drop w.remaining) w.remaining).2.1
                remaining := (writeLoop w (w.pending ++ data.take w.remaining) (data.drop w.remaining) w.remaining).2.2 },
        (writeLoop w (w.pending ++ data.take w.remaining) (data.drop w.remaining) w.remaining).1,
        (0, w.pending.length)) := by
  rw [write, if_neg (by rintro rfl; rw [List.length_nil] at h1; omega), if_neg (by omega), if_pos h2]

theorem write_of_new (w : FragmentWriter) {data : List UInt8} (h1 : w.remaining < data.length)
    (h2 : w.remaining < w.headerSize) :
    w.write data =
      ({ w with pending := (writeLoop w w.pending data w.remaining).2.1
                remaining := (writeLoop w w.pending data w.remaining).2.2 },
        (writeLoop w w.pending data w.remaining).1, (if w.pending = [] then 0 else 1, 0)) := by
  rw [write, if_neg (by rintro rfl; rw [List.length_nil] at h1; omega), if_neg (by omega), if_neg (by omega)]

@[simp] theorem headerSize_write (w : FragmentWriter) (data : List UInt8) :
    (w.write data).1.headerSize = w.headerSize := by
  unfold write
  split_ifs <;> rfl

@[simp] theorem headerSize_finalize (w : FragmentWriter) : w.finalize.1.headerSize = w.headerSize := rfl

/-- The loop hands on its pending bytes and its data, in order, with what is left pending. -/
theorem writeLoop_flatten (w : FragmentWriter) (pending data : List UInt8) (remaining : Nat) :
    (w.writeLoop pending data remaining).1.flatten ++ (w.writeLoop pending data remaining).2.1 = pending ++ data := by
  induction pending, data, remaining using writeLoop.induct w with
  | case1 pending remaining => rw [writeLoop, if_pos rfl, List.append_nil]; rfl
  | case2 pending data remaining hne ih =>
    rw [writeLoop, if_neg hne]
    dsimp only
    rw [List.flatten_append, List.append_assoc, ih, List.take_append_drop]
    split <;> simp_all

/-- Pending bytes are handed on whole, as the first fragment: nothing is put before them. -/
theorem writeLoop_head (w : FragmentWriter) {pending : List UInt8} (hp : pending ≠ []) (data : List UInt8)
    (remaining : Nat) :
    ((w.writeLoop pending data remaining).1 ++ [(w.writeLoop pending data remaining).2.1]).headD [] = pending := by
  rw [writeLoop]
  split
  · rfl
  · simp only [List.cons_append, List.headD_cons]

/-- **A write appends its data** to what the writer has handed on and holds. -/
theorem write_flatten (w : FragmentWriter) (data : List UInt8) :
    (w.write data).2.1.flatten ++ (w.write data).1.pending = w.pending ++ data := by
  by_cases h0 : data = []
  · rw [h0, write_nil, List.append_nil]; rfl
  by_cases h1 : data.length ≤ w.remaining
  · rw [write_of_le w h0 h1]; rfl
  by_cases h2 : w.headerSize ≤ w.remaining
  · rw [write_of_fill w (by omega) h2]
    dsimp only
    rw [writeLoop_flatten, List.append_assoc, List.take_append_drop]
  · rw [write_of_new w (by omega) (by omega)]
    exact writeLoop_flatten w w.pending data w.remaining

/-- What was pending before a write starts the first fragment after it. -/
theorem write_head (w : FragmentWriter) (data : List UInt8) :
    w.pending <+: ((w.write data).2.1 ++ [(w.write data).1.pending]).headD [] := by
  by_cases hp : w.pending = []
  · rw [hp]; exact List.nil_prefix
  by_cases h0 : data = []
  · rw [h0, write_nil]; exact List.prefix_refl _
  by_cases h1 : data.length ≤ w.remaining
  · rw [write_of_le w h0 h1]; exact List.prefix_append _ _
  by_cases h2 : w.headerSize ≤ w.remaining
  · rw [write_of_fill w (by omega) h2]
    dsimp only
    rw [writeLoop_head w (by simp [hp])]
    exact List.prefix_append _ _
  · rw [write_of_new w (by omega) (by omega)]
    dsimp only
    exact (writeLoop_head w hp _ _).symm ▸ List.prefix_refl w.pending

/-- A header written when nothing is pending goes whole into a fragment of its own, from its
start. -/
theorem write_header (w : FragmentWriter) (hp : w.pending = []) {data : List UInt8}
    (hd : data.length = w.headerSize) :
    (w.write data).2.1 = [] ∧ (w.write data).1.pending = data ∧ (w.write data).2.2 = (0, 0) := by
  have hlt := w.header_lt
  by_cases h0 : data = []
  · subst h0
    simp only [write_nil, hp, List.length_nil, and_self]
  by_cases h1 : data.length ≤ w.remaining
  · rw [write_of_le w h0 h1, hp]; exact ⟨rfl, List.nil_append _, rfl⟩
  -- too little is left: the loop takes the whole header into a fresh fragment
  have hmin : min w.fragmentSize data.length = data.length := by omega
  have hloop : writeLoop w [] data w.remaining = ([], data, w.fragmentSize - data.length) := by
    rw [writeLoop, if_neg h0, hmin, List.take_length, List.drop_length, writeLoop, if_pos rfl, if_pos rfl]
    rfl
  rw [write_of_new w (by omega) (by omega), hp, hloop, if_pos rfl]
  exact ⟨rfl, rfl, rfl⟩

end FragmentWriter

/-- `MsgSerializeOstream`: the writer, made with `MsgHeader::SIZE` as its header size, the
fragments of the current message handed on so far (`_fragments`, with `_currentMsgSize`),
where the header went (`_currentHeaderPtr`: the fragment and the offset in it) and the
header. -/
structure MsgSerializeOstream where
  writer : FragmentWriter
  header_size : writer.headerSize = MsgHeader.SIZE
  fragments : List (List UInt8)
  currentMsgSize : Nat
  currentHeaderPtr : Nat × Nat
  currentHeader : MsgHeader

namespace MsgSerializeOstream

/-- The constructor `MsgSerializeOstream(fragmentSize, defaultHeader)`. -/
def init (fragmentSize : Nat) (h : MsgHeader.SIZE < fragmentSize) (defaultHeader : MsgHeader) :
    MsgSerializeOstream :=
  ⟨⟨fragmentSize, MsgHeader.SIZE, h, [], 0⟩, rfl, [], 0, (0, 0), defaultHeader⟩

/-- The writer's callback: a fragment handed on is counted and kept. -/
def onFragments (ser : MsgSerializeOstream) (fs : List (List UInt8)) : MsgSerializeOstream :=
  { ser with fragments := ser.fragments ++ fs, currentMsgSize := ser.currentMsgSize + (fs.map List.length).sum }

/-- `MsgSerializeOstream::new_message`: the header, with the message's type, is written first
and where it went is kept. -/
def newMessage (ser : MsgSerializeOstream) (type : UInt8) : MsgSerializeOstream :=
  let header := { ser.currentHeader with type }
  let r := ser.writer.write header.write
  { ser.onFragments r.2.1 with
    writer := r.1
    header_size := (FragmentWriter.headerSize_write _ _).trans ser.header_size
    currentHeaderPtr := (ser.fragments.length + r.2.2.1, r.2.2.2)
    currentHeader := header }

/-- `MsgSerializeOstream::write`, as the binary archive calls it with the bytes of what is
serialized. -/
def write (ser : MsgSerializeOstream) (data : List UInt8) : MsgSerializeOstream :=
  let r := ser.writer.write data
  { ser.onFragments r.2.1 with
    writer := r.1
    header_size := (FragmentWriter.headerSize_write _ _).trans ser.header_size }

/-- `MsgSerializeOstream::finalize`: the pending bytes are handed on, the header is written
again where it went with the size of the rest of the message (`uint32_t`), and the fragments
are given out; the serializer is cleared. -/
def finalize (ser : MsgSerializeOstream) (externalTailSize : Nat) : List (List UInt8) × MsgSerializeOstream :=
  let r := ser.writer.finalize
  let frs := ser.fragments ++ r.2
  let size := ser.currentMsgSize + (r.2.map List.length).sum
  let header := { ser.currentHeader with size := UInt32.ofNat (size - MsgHeader.SIZE + externalTailSize) }
  (frs.modify ser.currentHeaderPtr.1 (fun f => overwrite f ser.currentHeaderPtr.2 header.write),
    { writer := r.1
      header_size := (FragmentWriter.headerSize_finalize _).trans ser.header_size
      fragments := []
      currentMsgSize := 0
      currentHeaderPtr := (0, 0)
      currentHeader := header })

/-- What the serializer has written of the current message: the fragments handed on, then
the writer's pending bytes. -/
def frames (ser : MsgSerializeOstream) : List (List UInt8) := ser.fragments ++ [ser.writer.pending]

/-- Between two messages: nothing handed on or pending. -/
def Idle (ser : MsgSerializeOstream) : Prop :=
  ser.fragments = [] ∧ ser.writer.pending = [] ∧ ser.currentMsgSize = 0

/-- Within a message that has written `b`: the first fragment holds the whole header, which
went to its start, and the size counts the fragments handed on. -/
structure Open (ser : MsgSerializeOstream) (b : List UInt8) : Prop where
  flatten : ser.frames.flatten = b
  head : MsgHeader.SIZE ≤ (ser.frames.headD []).length
  ptr : ser.currentHeaderPtr = (0, 0)
  size : ser.currentMsgSize = (ser.fragments.map List.length).sum

/-- A message opened between two messages has written its header. -/
theorem open_newMessage {ser : MsgSerializeOstream} (h : ser.Idle) (type : UInt8) :
    (ser.newMessage type).Open { ser.currentHeader with type }.write ∧
      (ser.newMessage type).currentHeader = { ser.currentHeader with type } := by
  obtain ⟨hf, hp, hs⟩ := h
  obtain ⟨he, hw, hptr⟩ := ser.writer.write_header hp
    (show ({ ser.currentHeader with type } : MsgHeader).write.length = ser.writer.headerSize by
      rw [MsgHeader.length_write, ser.header_size])
  refine ⟨⟨?_, ?_, ?_, ?_⟩, rfl⟩
  · simp only [frames, newMessage, onFragments, hf, he, hw, List.nil_append, List.flatten_singleton]
  · simp only [frames, newMessage, onFragments, hf, he, hw, List.nil_append, List.headD_cons,
      MsgHeader.length_write, Nat.le_refl]
  · simp only [newMessage, hf, hptr, List.length_nil, Nat.zero_add]
  · simp only [newMessage, onFragments, hs, hf, he, List.append_nil, List.map_nil, List.sum_nil, Nat.add_zero]

/-- **Each write appends its bytes**, and keeps the header whole in the first fragment. -/
theorem open_write {ser : MsgSerializeOstream} {b : List UInt8} (h : ser.Open b) (data : List UInt8) :
    (ser.write data).Open (b ++ data) := by
  obtain ⟨hflat, hhead, hptr, hsize⟩ := h
  have hw := ser.writer.write_flatten data
  refine ⟨?_, ?_, hptr, ?_⟩
  · simp only [frames, write, onFragments, List.flatten_append, List.flatten_singleton, List.append_assoc] at hflat ⊢
    rw [hw, ← List.append_assoc, hflat]
  · cases hf : ser.fragments with
    | nil =>
      -- the first fragment is the writer's: it keeps what was pending at its start
      simp only [frames, hf, List.nil_append, List.headD_cons] at hhead
      simp only [frames, write, onFragments, hf, List.nil_append]
      exact Nat.le_trans hhead (ser.writer.write_head data).length_le
    | cons f fs =>
      simp only [frames, hf, List.cons_append, List.headD_cons] at hhead
      simp only [frames, write, onFragments, hf, List.cons_append, List.headD_cons]
      exact hhead
  · simp only [write, onFragments, hsize, List.map_append, List.sum_append]

@[simp] theorem currentHeader_write (ser : MsgSerializeOstream) (data : List UInt8) :
    (ser.write data).currentHeader = ser.currentHeader := rfl

/-- The writes of a serialization, one after another, append their bytes. -/
theorem open_foldl_write {b : List UInt8} :
    ∀ (writes : List (List UInt8)) {ser : MsgSerializeOstream}, ser.Open b →
      (writes.foldl write ser).Open (b ++ writes.flatten) ∧
        (writes.foldl write ser).currentHeader = ser.currentHeader
  | [], _, h => by rw [List.foldl_nil, List.flatten_nil, List.append_nil]; exact ⟨h, rfl⟩
  | d :: ds, ser, h => by
    have := open_foldl_write (b := b ++ d) ds (open_write h d)
    rw [List.foldl_cons, List.flatten_cons, ← List.append_assoc]
    exact ⟨this.1, this.2⟩

/-- Writing a header over the start of the first fragment, which holds the old one. -/
theorem flatten_modify_head {L : List (List UInt8)} (hL : MsgHeader.SIZE ≤ (L.headD []).length)
    {h : List UInt8} (hh : h.length = MsgHeader.SIZE) :
    (L.modify 0 (fun f => overwrite f 0 h)).flatten = h ++ L.flatten.drop MsgHeader.SIZE := by
  cases L with
  | nil => simp only [List.headD_nil, List.length_nil, MsgHeader.SIZE] at hL; omega
  | cons f fs =>
    simp only [List.headD_cons] at hL
    rw [List.modify_zero_cons, List.flatten_cons, List.flatten_cons,
      ← List.take_append_drop MsgHeader.SIZE f, overwrite_zero_append (by rw [hh, List.length_take]; omega),
      List.append_assoc, List.append_assoc, List.drop_left' (by rw [List.length_take]; omega)]

/-- **`finalize` gives the header, with the size of the rest, and the rest**, and leaves the
serializer between two messages. -/
theorem finalize_spec {ser : MsgSerializeOstream} {b : List UInt8} (h : ser.Open b) (externalTailSize : Nat) :
    (ser.finalize externalTailSize).1.flatten =
        { ser.currentHeader with size := UInt32.ofNat (b.length - MsgHeader.SIZE + externalTailSize) }.write ++
          b.drop MsgHeader.SIZE ∧
      (ser.finalize externalTailSize).2.Idle ∧
      (ser.finalize externalTailSize).2.currentHeader =
        { ser.currentHeader with size := UInt32.ofNat (b.length - MsgHeader.SIZE + externalTailSize) } := by
  obtain ⟨hflat, hhead, hptr, hsize⟩ := h
  -- what is handed on is the frames without an empty pending part
  have hfrs : (ser.fragments ++ ser.writer.finalize.2).flatten = b := by
    rw [← hflat, frames, FragmentWriter.finalize]
    split <;> simp_all
  have hlen : ser.currentMsgSize + (ser.writer.finalize.2.map List.length).sum = b.length := by
    rw [hsize, ← List.sum_append, ← List.map_append, ← hfrs, List.length_flatten]
  have hhd : MsgHeader.SIZE ≤ ((ser.fragments ++ ser.writer.finalize.2).headD []).length := by
    cases hf : ser.fragments with
    | nil =>
      simp only [frames, hf, List.nil_append, List.headD_cons] at hhead
      have hp : ser.writer.pending ≠ [] := fun hp => by
        rw [hp, List.length_nil] at hhead; exact absurd hhead (by decide)
      simp only [FragmentWriter.finalize, hp, if_false, List.nil_append, List.headD_cons]
      exact hhead
    | cons f fs =>
      simp only [frames, hf, List.cons_append, List.headD_cons] at hhead ⊢
      exact hhead
  refine ⟨?_, ⟨rfl, rfl, rfl⟩, ?_⟩
  · simp only [finalize, hptr]
    rw [flatten_modify_head hhd (MsgHeader.length_write _), hfrs, hlen]
  · simp only [finalize]
    rw [hlen]

end MsgSerializeOstream

end Beam.P2p
