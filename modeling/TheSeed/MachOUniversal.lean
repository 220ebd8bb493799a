import TheSeed.Library.Pieces
import TheSeed.Library.SortedBy
import TheSeed.MachOStrip

namespace TheSeed.MachOUniversal

open Bytes Checked BoundedBytes Pieces MachOLayout MachOProgram MachOSigner MachOPlan

/-! Universal files put together again. -/

variable {path : String} {wide : Bool} {slices : List (List UInt8)} {order : List (ContainerEntry × Nat)}
  {placed : List Placed} {file out : List UInt8} {entries : List ContainerEntry} {cursor i n : Nat}

theorem alignUp_le {value unit : Nat} (h : 0 < unit) : value ≤ alignUp value unit := by
  have hdiv := Nat.div_add_mod (value + unit - 1) unit
  have hmod := Nat.mod_lt (value + unit - 1) h
  rw [alignUp, Nat.mul_comm]
  omega

theorem alignUp_alignUp {value unit : Nat} (h : 0 < unit) : alignUp (alignUp value unit) unit = alignUp value unit := by
  have hlt : (alignUp value unit + unit - 1) / unit = (value + unit - 1) / unit := by
    rw [alignUp, Nat.add_sub_assoc h, Nat.add_comm, Nat.add_mul_div_right _ _ h, Nat.div_eq_of_lt (Nat.sub_lt h Nat.one_pos),
      Nat.zero_add]
  rw [alignUp, hlt, alignUp]

/-! Placing -/

/-- The slices with their offsets. -/
def place (slices : List (List UInt8)) : List (ContainerEntry × Nat) → Nat → List Placed
  | [], _ => []
  | (entry, i) :: rest, cursor =>
      let offset := alignUp cursor (2 ^ entry.align)
      ⟨i, offset, slices.getD i []⟩ :: place slices rest (offset + (slices.getD i []).length)

def Placed.piece (p : Placed) : Piece := (p.offset, p.bytes)

theorem placeSlices_eq_ok : placeSlices path wide slices order cursor = .ok placed ↔
    (∀ o ∈ order, o.1.align < 32) ∧
      (wide = false → ∀ p ∈ place slices order cursor, p.offset + p.bytes.length ≤ kUint32Max) ∧
      place slices order cursor = placed := by
  induction order generalizing cursor placed with
  | nil =>
      rw [placeSlices, place]
      simp [eq_comm]
  | cons o order ih =>
      obtain ⟨entry, i⟩ := o
      rw [placeSlices, place]
      simp only [bind_eq_ok, refuseIf_eq_ok, exists_const, ih, pure_eq_ok, Except.ok.injEq, Nat.not_le,
        List.forall_mem_cons, not_and, not_lt]
      constructor
      · rintro ⟨halign, hend, rest, ⟨haligns, hends, rfl⟩, rfl⟩
        exact ⟨⟨halign, haligns⟩, fun hwide => ⟨hend hwide, hends hwide⟩, rfl⟩
      · rintro ⟨⟨halign, haligns⟩, hends, rfl⟩
        exact ⟨halign, fun hwide => (hends hwide).1, _, ⟨haligns, fun hwide => (hends hwide).2, rfl⟩, rfl⟩

theorem laid_place (slices : List (List UInt8)) (order : List (ContainerEntry × Nat)) (cursor : Nat) :
    Laid cursor ((place slices order cursor).map Placed.piece) := by
  induction order generalizing cursor with
  | nil => trivial
  | cons o order ih => exact ⟨alignUp_le (Nat.two_pow_pos _), ih _⟩

theorem place_index (slices : List (List UInt8)) (order : List (ContainerEntry × Nat)) (cursor : Nat) :
    (place slices order cursor).map Placed.index = order.map Prod.snd := by
  induction order generalizing cursor with
  | nil => rfl
  | cons o order ih => rw [place, List.map_cons, List.map_cons, ih]

theorem place_bytes {p : Placed} (h : p ∈ place slices order cursor) : p.bytes = slices.getD p.index [] := by
  induction order generalizing cursor with
  | nil => cases h
  | cons o order ih =>
      rcases List.mem_cons.1 h with rfl | h
      · rfl
      · exact ih h

/-- Where a slice goes depends on the alignments and the lengths only. -/
theorem place_congr {order' : List (ContainerEntry × Nat)}
    (h : order.map (fun o => (o.1.align, o.2)) = order'.map fun o => (o.1.align, o.2)) (cursor : Nat) :
    place slices order cursor = place slices order' cursor := by
  induction order generalizing order' cursor with
  | nil =>
      cases order' with
      | nil => rfl
      | cons o order' => cases h
  | cons o order ih =>
      cases order' with
      | nil => cases h
      | cons o' order' =>
          rw [List.map_cons, List.map_cons] at h
          obtain ⟨hhead, htail⟩ := List.cons.inj h
          obtain ⟨halign, hindex⟩ := Prod.mk.inj hhead
          rw [place, place]
          simp only [halign, hindex, ih htail]

/-- The first slice goes where it would go from its own place. -/
theorem place_aligned (slices : List (List UInt8)) (entry : ContainerEntry) (i : Nat) (rest : List (ContainerEntry × Nat))
    (cursor : Nat) : place slices ((entry, i) :: rest) (alignUp cursor (2 ^ entry.align)) =
      place slices ((entry, i) :: rest) cursor := by
  rw [place, place, alignUp_alignUp (Nat.two_pow_pos _)]

/-! Putting together -/

def firstOffset (order : List (ContainerEntry × Nat)) : Nat := (order.head?.map fun entry => entry.1.offset).getD 0

def oldEnd (order : List (ContainerEntry × Nat)) : Nat :=
  (order.map fun entry => entry.1.offset + entry.1.size).foldl max 0

/-- The offset and the length in the table entry with a number. -/
def entryFields (wide : Bool) (i offset size : Nat) : List (Nat × List UInt8) :=
  let place := kFatHeaderSize + i * fatEntrySize wide
  if wide then [(place + 8, beBytes 8 offset), (place + 16, beBytes 8 size)]
  else [(place + 8, beBytes 4 offset), (place + 12, beBytes 4 size)]

def tableFields (wide : Bool) (placed : List Placed) (slices : List (List UInt8)) (n : Nat) : List (Nat × List UInt8) :=
  (List.range n).flatMap fun i => entryFields wide i (offsetOf placed i) (slices.getD i []).length

theorem writeTableEntry_eq (wide : Bool) (out : List UInt8) (i offset size : Nat) :
    writeTableEntry wide out i offset size = overwriteAll out (entryFields wide i offset size) := by
  cases wide <;> rfl

theorem overwriteAll_append (out : List UInt8) (fields others : List (Nat × List UInt8)) :
    overwriteAll out (fields ++ others) = overwriteAll (overwriteAll out fields) others := List.foldl_append

theorem writeTable_eq (wide : Bool) (placed : List Placed) (slices : List (List UInt8)) (numbers : List Nat)
    (out : List UInt8) : numbers.foldl
      (fun out i => writeTableEntry wide out i (offsetOf placed i) (slices.getD i []).length) out =
        overwriteAll out (numbers.flatMap fun i => entryFields wide i (offsetOf placed i) (slices.getD i []).length) := by
  induction numbers generalizing out with
  | nil => rfl
  | cons i numbers ih => rw [List.foldl_cons, ih, writeTableEntry_eq, List.flatMap_cons, overwriteAll_append]

theorem foldl_layOut (placed : List Placed) (out : List UInt8) :
    placed.foldl (fun out p => resized out p.offset ++ p.bytes) out = layOut out (placed.map Placed.piece) := by
  rw [layOut, List.foldl_map]
  rfl

/-- The file with the placed slices before the table is written. -/
def joined (file : List UInt8) (order : List (ContainerEntry × Nat)) (placed : List Placed) : List UInt8 :=
  layOut (file.take (firstOffset order)) (placed.map Placed.piece) ++ file.drop (oldEnd order)

theorem assembleUniversal_eq_ok {container : MachOContainer} :
    assembleUniversal path file container slices = .ok out ↔
      ((∀ o ∈ byOffset container.entries, o.1.align < 32) ∧
        (container.form ≠ .fat64 →
          ∀ p ∈ place slices (byOffset container.entries) (firstOffset (byOffset container.entries)),
            p.offset + p.bytes.length ≤ kUint32Max) ∧
        (joined file (byOffset container.entries)
          (place slices (byOffset container.entries) (firstOffset (byOffset container.entries)))).length ≤ kMaxVectorSize) ∧
      overwriteAll (joined file (byOffset container.entries)
          (place slices (byOffset container.entries) (firstOffset (byOffset container.entries))))
        (tableFields (container.form = .fat64)
          (place slices (byOffset container.entries) (firstOffset (byOffset container.entries))) slices
          container.entries.length) = out := by
  rw [assembleUniversal]
  simp only [bind_eq_ok, placeSlices_eq_ok, rejectIf_eq_ok, pure_eq_ok, Except.ok.injEq, Nat.not_lt, exists_const,
    decide_eq_false_iff_not]
  constructor
  · rintro ⟨placed, ⟨haligns, hends, rfl⟩, hlength, rfl⟩
    refine ⟨⟨haligns, hends, ?_⟩, ?_⟩
    · rw [joined, ← foldl_layOut]
      exact hlength
    · rw [joined, ← foldl_layOut, tableFields, ← writeTable_eq]
      rfl
  · rintro ⟨⟨haligns, hends, hlength⟩, rfl⟩
    refine ⟨_, ⟨haligns, hends, rfl⟩, ?_, ?_⟩
    · rw [joined, ← foldl_layOut] at hlength
      exact hlength
    · rw [joined, ← foldl_layOut, tableFields, ← writeTable_eq]
      rfl

end TheSeed.MachOUniversal
