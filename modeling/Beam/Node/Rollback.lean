import Beam.Core.UintBig
import Mathlib.Data.List.Induction
import Mathlib.Data.List.Forall2

/-!
# The rollback records of `BlockInterpretCtx`

`src/node/processor.cpp`.  When a block is applied, each change that cannot be
undone from the block alone leaves a record in the rollback buffer
`m_pRollback`: a `Ser` takes the buffer over, the values are serialized after
what is there, and its destructor closes the record with a `Marker`, the
record's length as a 4-byte big-endian `uintBig`.  The destructor measures the
record through `Serializer::buffer()`, whose `m_vec.at(0)` throws on an empty
vector: from a destructor that ends the program, when the buffer was empty and
the values wrote nothing.  When the block is undone the records come back last
first: a `Der` reads the marker from the buffer's last four bytes
(`SetBwd(buf, 4)`), then positions itself on the record before it
(`SetBwd(buf, n)`), cutting both off the buffer; a buffer too short for either
calls `OnCorrupted`.  The values are then read from the front of the record.

The values' own serializer is a parameter: `enc` writes a value, `dec` reads
one back and what follows it (`RoundTrips`).

* `der_ser`: a `Der` reads back the record of the last `Ser` and leaves the
  buffer as it was before it, when the record is shorter than `2 ^ 32` bytes;
* `der_eq_error_iff`, `der_append`: a `Der` fails exactly when the buffer is
  shorter than the marker or than the length it gives, and otherwise reads only
  the buffer's last bytes;
* `derAll_serAll`: records written one after another come back in the reverse
  order, and the buffer is left as it was;
* `derValues_serValues`: a record gives back the values written into it.
-/

namespace Beam.BlockInterpretCtx

open BigEndian UintBig

/-- `Ser::Marker` set from a `uint32_t` by `AssignOrdinal`: its four bytes, the
highest first. -/
def markerBytes (x : UInt32) : List UInt8 :=
  (List.range 4).map fun i => UInt8.ofNat (assignOrdinal (fun _ => 0) 4 4 x.toNat i)

/-- `Marker::Export` into a `uint32_t`, by `_ExportAligned`. -/
def markerExport (mk : List UInt8) : UInt32 :=
  UInt32.ofNat (exportAligned 32 (fun i => (mk.getD i 0).toNat) 4)

/-- The message of the `CorruptionException` that `OnCorrupted` throws. -/
def corrupted : String := "node data"

/-- `Ser(bic)` and `~Ser()` around the serialization of values to the bytes `r`:
the bytes after the buffer, then the marker of their number cut to `uint32_t`.
`none` when `buffer()` finds the vector empty and the program ends. -/
def ser (buf r : List UInt8) : Option (List UInt8) :=
  if buf ++ r = [] then none else some (buf ++ r ++ markerBytes (UInt32.ofNat r.length))

/-- `Der::SetBwd(buf, nPortion)`: the deserializer on the last `nPortion` bytes,
and the buffer without them; `OnCorrupted` when it is shorter. -/
def setBwd (buf : List UInt8) (nPortion : Nat) : Except String (List UInt8 × List UInt8) :=
  if buf.length < nPortion then .error corrupted
  else .ok (buf.drop (buf.length - nPortion), buf.take (buf.length - nPortion))

/-- `Der(bic)`: the marker from the last four bytes, then the record it measures;
the record's bytes and the buffer left. -/
def der (buf : List UInt8) : Except String (List UInt8 × List UInt8) := do
  let (mk, buf) ← setBwd buf 4
  setBwd buf (markerExport mk).toNat

/-- The records `rs` written in turn, each by a `Ser`. -/
def serAll (buf : List UInt8) (rs : List (List UInt8)) : Option (List UInt8) :=
  rs.foldlM ser buf

/-- `k` `Der`s in turn: the records they read, and the buffer left. -/
def derAll : Nat → List UInt8 → Except String (List (List UInt8) × List UInt8)
  | 0, buf => .ok ([], buf)
  | k + 1, buf => do
    let (r, buf) ← der buf
    let (rs, buf) ← derAll k buf
    pure (r :: rs, buf)

section Values

variable {V : Type}

/-- The bytes of the values `vs` serialized in turn into a record, `enc v` for each. -/
def serValues (enc : V → List UInt8) (vs : List V) : List UInt8 :=
  vs.flatMap enc

/-- `n` values deserialized in turn from the front of a record by `dec`, which
gives a value and the bytes after it; the values, and the bytes left. -/
def derValues (dec : List UInt8 → Option (V × List UInt8)) : Nat → List UInt8 → Option (List V × List UInt8)
  | 0, bytes => some ([], bytes)
  | n + 1, bytes => do
    let (v, bytes) ← dec bytes
    let (vs, bytes) ← derValues dec n bytes
    pure (v :: vs, bytes)

/-- The values' deserializer reads back what their serializer wrote, whatever
bytes follow. -/
def RoundTrips (enc : V → List UInt8) (dec : List UInt8 → Option (V × List UInt8)) : Prop :=
  ∀ v rest, dec (enc v ++ rest) = some (v, rest)

end Values

/-! ## The marker -/

@[simp] theorem length_markerBytes (x : UInt32) : (markerBytes x).length = 4 := by
  simp [markerBytes]

/-- **The marker reads back the length it was set from.** -/
theorem markerExport_markerBytes (x : UInt32) : markerExport (markerBytes x) = x := by
  obtain ⟨hval, hbytes⟩ := assignOrdinal_val (fun _ => 0) x.toNat (le_refl 4)
  -- the bytes as `Export` reads them are those `AssignOrdinal` wrote
  have hget : ∀ i < 4, ((markerBytes x).getD i 0).toNat = assignOrdinal (fun _ => 0) 4 4 x.toNat i := by
    intro i hi
    have hb : assignOrdinal (fun _ => 0) 4 4 x.toNat i < 256 := by simpa using hbytes i hi
    simp [markerBytes, List.getD_eq_getElem?_getD, hi, Nat.mod_eq_of_lt hb]
  have hp : Bytes (fun i => ((markerBytes x).getD i 0).toNat) 0 4 := fun i hi => by
    have := hbytes i hi
    rw [Nat.zero_add] at this ⊢
    show ((markerBytes x).getD i 0).toNat < 256
    rwa [hget i hi]
  have hv : val (fun i => ((markerBytes x).getD i 0).toNat) 0 4 = val (assignOrdinal (fun _ => 0) 4 4 x.toNat) 0 4 :=
    val_congr fun i hi => by simpa using hget i hi
  have hx : x.toNat % 256 ^ 4 = x.toNat := Nat.mod_eq_of_lt x.toNat_lt
  rw [markerExport, exportAligned_eq 4 (by decide) (by decide) hp, hv, hval, hx, UInt32.ofNat_toNat]

/-! ## `SetBwd` and `Der` -/

theorem setBwd_append (a b : List UInt8) : setBwd (a ++ b) b.length = .ok (b, a) := by
  simp [setBwd]

theorem setBwd_of_not_lt {buf : List UInt8} {n : Nat} (h : ¬buf.length < n) :
    setBwd buf n = .ok (buf.drop (buf.length - n), buf.take (buf.length - n)) :=
  if_neg h

theorem setBwd_eq_error_iff (buf : List UInt8) (n : Nat) : setBwd buf n = .error corrupted ↔ buf.length < n := by
  unfold setBwd
  split <;> simp_all

/-- A `SetBwd` that succeeds splits the buffer into what is left and the portion. -/
theorem setBwd_eq_ok {buf r rest : List UInt8} {n : Nat} (h : setBwd buf n = .ok (r, rest)) :
    rest ++ r = buf ∧ r.length = n := by
  unfold setBwd at h
  split at h
  · cases h
  · next hn =>
    cases h
    exact ⟨List.take_append_drop _ _, by simp; omega⟩

theorem markerBytes_ne_nil (x : UInt32) : markerBytes x ≠ [] :=
  List.ne_nil_of_length_pos (by simp)

theorem ser_eq_none_iff (buf r : List UInt8) : ser buf r = none ↔ buf ++ r = [] := by
  unfold ser
  split <;> simp_all

theorem ser_of_ne_nil {buf r : List UInt8} (h : buf ++ r ≠ []) :
    ser buf r = some (buf ++ r ++ markerBytes (UInt32.ofNat r.length)) := by
  rw [ser, if_neg h]

/-- **What a `Der` reads after a record of any length**: the marker keeps the
length modulo `2 ^ 32`, so the `Der` reads the record's last `len % 2 ^ 32` bytes and
leaves the others in the buffer. -/
theorem der_ser_mod (buf r : List UInt8) :
    der (buf ++ r ++ markerBytes (UInt32.ofNat r.length)) =
      .ok (r.drop (r.length - r.length % 2 ^ 32), buf ++ r.take (r.length - r.length % 2 ^ 32)) := by
  have hmk : (markerExport (markerBytes (UInt32.ofNat r.length))).toNat = r.length % 2 ^ 32 := by
    rw [markerExport_markerBytes, UInt32.toNat_ofNat']
  have hle : r.length % 2 ^ 32 ≤ r.length := Nat.mod_le _ _
  simp only [der]
  rw [show (4 : Nat) = (markerBytes (UInt32.ofNat r.length)).length from (length_markerBytes _).symm,
    setBwd_append]
  simp only [bind, Except.bind, hmk, setBwd, List.length_append]
  -- the cut falls inside the record, after the whole of `buf`
  have hcut : buf.length + r.length - r.length % 2 ^ 32 = buf.length + (r.length - r.length % 2 ^ 32) := by omega
  rw [if_neg (by omega), hcut, List.drop_length_add_append, List.take_length_add_append]

/-- **A `Der` reads back the last record**, when it is shorter than `2 ^ 32` bytes,
and leaves the buffer as it was before the record's `Ser`. -/
theorem der_ser {buf r buf' : List UInt8} (hr : r.length < 2 ^ 32) (hser : ser buf r = some buf') :
    der buf' = .ok (r, buf) := by
  have hne : buf ++ r ≠ [] := fun h => by rw [(ser_eq_none_iff buf r).mpr h] at hser; cases hser
  rw [ser_of_ne_nil hne] at hser
  cases hser
  rw [der_ser_mod, Nat.mod_eq_of_lt hr, Nat.sub_self, List.drop_zero, List.take_zero, List.append_nil]

/-- **A `Der` fails exactly on a buffer shorter than the marker or than the
length the marker gives**, with the message of `OnCorrupted`. -/
theorem der_eq_error_iff (buf : List UInt8) :
    der buf = .error corrupted ↔
      buf.length < 4 ∨ buf.length - 4 < (markerExport (buf.drop (buf.length - 4))).toNat := by
  unfold der
  by_cases h4 : buf.length < 4
  · simp [bind, Except.bind, setBwd, h4]
  · simp only [setBwd_of_not_lt h4, bind, Except.bind, h4, false_or, setBwd_eq_error_iff, List.length_take]
    omega

/-- **A `Der` reads only the buffer's last bytes**: what it leaves, the record and
the marker make the buffer it was given. -/
theorem der_append {buf r rest : List UInt8} (h : der buf = .ok (r, rest)) :
    rest ++ r ++ buf.drop (buf.length - 4) = buf := by
  unfold der at h
  by_cases h4 : buf.length < 4
  · simp [bind, Except.bind, setBwd, h4] at h
  · simp only [setBwd_of_not_lt h4, bind, Except.bind] at h
    rw [(setBwd_eq_ok h).1, List.take_append_drop]

/-! ## Records in turn -/

@[simp] theorem serAll_nil (buf : List UInt8) : serAll buf [] = some buf := rfl

theorem serAll_cons (buf r : List UInt8) (rs : List (List UInt8)) :
    serAll buf (r :: rs) = (ser buf r).bind fun buf => serAll buf rs := rfl

theorem serAll_append (buf : List UInt8) (rs : List (List UInt8)) (r : List UInt8) :
    serAll buf (rs ++ [r]) = (serAll buf rs).bind fun buf => ser buf r := by
  simp only [serAll, List.foldlM_append, List.foldlM_cons, List.foldlM_nil, bind_pure, Option.bind_eq_bind]

/-- Once the buffer holds a byte, every `Ser` finds it non-empty. -/
theorem serAll_of_ne_nil : ∀ (rs : List (List UInt8)) {buf : List UInt8}, buf ≠ [] → ∃ buf', serAll buf rs = some buf'
  | [], buf, _ => ⟨buf, rfl⟩
  | r :: rs, buf, hbuf => by
    have hne : buf ++ r ≠ [] := by simp [hbuf]
    rw [serAll_cons, ser_of_ne_nil hne]
    exact serAll_of_ne_nil rs (List.append_ne_nil_of_right_ne_nil _ (markerBytes_ne_nil _))

/-- **The `Ser`s all finish** unless the first one finds the vector empty. -/
theorem serAll_isSome {buf : List UInt8} {rs : List (List UInt8)} (hfirst : ∀ r, rs.head? = some r → buf ++ r ≠ []) :
    ∃ buf', serAll buf rs = some buf' := by
  cases rs with
  | nil => exact ⟨buf, rfl⟩
  | cons r rs =>
    rw [serAll_cons, ser_of_ne_nil (hfirst r rfl)]
    exact serAll_of_ne_nil rs (List.append_ne_nil_of_right_ne_nil _ (markerBytes_ne_nil _))

/-- **The records come back last first.**  After records `r₁ … rₖ`, each shorter than
`2 ^ 32` bytes, are written on a buffer `B`, `k` `Der`s read `rₖ … r₁` and leave `B`. -/
theorem derAll_serAll (B : List UInt8) :
    ∀ rs : List (List UInt8), (∀ r ∈ rs, r.length < 2 ^ 32) → ∀ {buf : List UInt8}, serAll B rs = some buf →
      derAll rs.length buf = .ok (rs.reverse, B) := by
  intro rs
  -- the last record is read first, so the induction takes records off the end
  induction rs using List.reverseRecOn with
  | nil =>
    intro _ buf hbuf
    cases hbuf
    rfl
  | append_singleton rs r ih =>
    intro hlen buf hbuf
    rw [serAll_append] at hbuf
    obtain ⟨buf0, hrs, hr⟩ := Option.bind_eq_some_iff.mp hbuf
    have hrs' := ih (fun r' hr' => hlen r' (by simp [hr'])) hrs
    rw [List.length_append, List.length_singleton, derAll, der_ser (hlen r (by simp)) hr]
    simp only [bind, Except.bind, hrs', List.reverse_append, List.reverse_singleton, List.singleton_append]
    rfl

section Values

variable {V : Type} {enc : V → List UInt8} {dec : List UInt8 → Option (V × List UInt8)}

/-- **A record gives back its values**, read in turn from its front. -/
theorem derValues_serValues (hcodec : RoundTrips enc dec) :
    ∀ (vs : List V) (rest : List UInt8), derValues dec vs.length (serValues enc vs ++ rest) = some (vs, rest)
  | [], rest => rfl
  | v :: vs, rest => by
    rw [serValues, List.flatMap_cons, List.append_assoc, List.length_cons, derValues, hcodec]
    simp only [Option.bind_eq_bind, Option.bind_some]
    rw [← serValues, derValues_serValues hcodec vs rest]
    rfl

/-- **The rollback records are a stack of values.**  For every buffer `B` and
records each serializing values `vs₁ … vsₖ` by a serializer its deserializer
reads back, each record shorter than `2 ^ 32` bytes and the first `Ser` not
finding the vector empty, the `Ser`s finish, and `k` `Der`s in turn read the
records last first, each deserializing exactly the values its `Ser` wrote, and
leave `B`; and on any buffer a `Der` calls `OnCorrupted` exactly when the buffer
is shorter than the marker or than the length it gives, and otherwise reads only
the buffer's last bytes. -/
theorem rollback_records_round_trip (hcodec : RoundTrips enc dec) (B : List UInt8) (vss : List (List V))
    (hlen : ∀ vs ∈ vss, (serValues enc vs).length < 2 ^ 32)
    (hfirst : ∀ vs, vss.head? = some vs → B ++ serValues enc vs ≠ []) :
    (∃ buf, serAll B (vss.map (serValues enc)) = some buf ∧
      ∃ rs, derAll vss.length buf = .ok (rs, B) ∧
        List.Forall₂ (fun r vs => derValues dec vs.length r = some (vs, [])) rs vss.reverse) ∧
      ∀ buf : List UInt8,
        (der buf = .error corrupted ↔
          buf.length < 4 ∨ buf.length - 4 < (markerExport (buf.drop (buf.length - 4))).toNat) ∧
        ∀ r rest, der buf = .ok (r, rest) → rest ++ r ++ buf.drop (buf.length - 4) = buf := by
  refine ⟨?_, fun buf => ⟨der_eq_error_iff buf, fun _ _ h => der_append h⟩⟩
  have hfirst' : ∀ r, (vss.map (serValues enc)).head? = some r → B ++ r ≠ [] := by
    intro r hr
    rw [List.head?_map, Option.map_eq_some_iff] at hr
    obtain ⟨vs, hvs, rfl⟩ := hr
    exact hfirst vs hvs
  obtain ⟨buf, hbuf⟩ := serAll_isSome hfirst'
  have hrs : ∀ r ∈ vss.map (serValues enc), r.length < 2 ^ 32 := by
    simp only [List.mem_map]
    rintro _ ⟨vs, hvs, rfl⟩
    exact hlen vs hvs
  refine ⟨buf, hbuf, (vss.map (serValues enc)).reverse, ?_, ?_⟩
  · rw [← List.length_map (f := serValues enc)]
    exact derAll_serAll B _ hrs hbuf
  · -- each record read back is the bytes of its own values
    rw [← List.map_reverse, List.forall₂_map_left_iff, List.forall₂_same]
    intro vs _
    simpa using derValues_serValues hcodec vs []

/-- One byte per value, read back one byte at a time. -/
def byteEnc (v : UInt8) : List UInt8 := [v]

/-- Reads one byte. -/
def byteDec : List UInt8 → Option (UInt8 × List UInt8)
  | [] => none
  | b :: rest => some (b, rest)

theorem rollback_records_round_trip_two_records :
    RoundTrips byteEnc byteDec ∧ (∀ vs ∈ [[1, 2], [3]], (serValues byteEnc vs).length < 2 ^ 32) ∧
      (∀ vs, [[(1 : UInt8), 2], [3]].head? = some vs → [7] ++ serValues byteEnc vs ≠ []) ∧
      ((∃ buf, serAll [7] ([[1, 2], [3]].map (serValues byteEnc)) = some buf ∧
        ∃ rs, derAll [[(1 : UInt8), 2], [3]].length buf = .ok (rs, [7]) ∧
          List.Forall₂ (fun r vs => derValues byteDec vs.length r = some (vs, [])) rs [[(1 : UInt8), 2], [3]].reverse) ∧
        ∀ buf : List UInt8,
          (der buf = .error corrupted ↔
            buf.length < 4 ∨ buf.length - 4 < (markerExport (buf.drop (buf.length - 4))).toNat) ∧
          ∀ r rest, der buf = .ok (r, rest) → rest ++ r ++ buf.drop (buf.length - 4) = buf) :=
  have hcodec : RoundTrips byteEnc byteDec := fun _ _ => rfl
  ⟨hcodec, by decide, by simp [serValues],
    rollback_records_round_trip hcodec [7] [[1, 2], [3]] (by decide) (by simp [serValues])⟩

end Values

/-- **Two records the claim's stack does not give back.**  A first record that
writes no byte on an empty buffer ends the program in `~Ser`; and one record of
`2 ^ 32` bytes on an empty buffer gets the marker `0`, so the `Der` reads an empty
record and leaves the whole record in the buffer. -/
theorem ser_empty_or_wrapped :
    serAll [] [[]] = none ∧
      ∃ buf, serAll [] [List.replicate (2 ^ 32) 0] = some buf ∧
        derAll 1 buf = .ok ([[]], List.replicate (2 ^ 32) 0) := by
  have h : ∀ r : List UInt8, r.length = 2 ^ 32 →
      serAll [] [r] = some ([] ++ r ++ markerBytes (UInt32.ofNat r.length)) ∧
        derAll 1 ([] ++ r ++ markerBytes (UInt32.ofNat r.length)) = .ok ([[]], r) := by
    intro r hr
    have hne : [] ++ r ≠ [] := by
      intro h0
      rw [List.nil_append] at h0
      rw [h0] at hr
      cases hr
    have hder : der ([] ++ r ++ markerBytes (UInt32.ofNat r.length)) = .ok ([], r) := by
      rw [der_ser_mod, hr, Nat.mod_self, Nat.sub_zero, ← hr, List.drop_length, List.take_length, List.nil_append]
    refine ⟨by rw [serAll_cons, ser_of_ne_nil hne]; rfl, ?_⟩
    simp only [derAll, hder, bind, Except.bind, pure, Except.pure]
  refine ⟨rfl, _, (h _ List.length_replicate).1, (h _ List.length_replicate).2⟩

end Beam.BlockInterpretCtx
