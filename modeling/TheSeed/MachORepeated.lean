import TheSeed.MachORebuilt

namespace TheSeed.MachORepeated

open Bytes Checked BoundedBytes Pieces MachOLayout MachOProgram MachOSigner MachOPlan MachOUniversal MachOContainers MachOTable
open MachORebuilt

/-! Putting a file together that was put together before: only the new slices show. -/

variable {wide : Bool} {file mid out : List UInt8} {entries : List ContainerEntry} {qs : List Program}
  {slices : List (List UInt8)} {first : ContainerEntry} {rest : List (ContainerEntry × Nat)} {i : Nat}

/-- The alignments and the numbers, in the order of the places. -/
def alignments (order : List (ContainerEntry × Nat)) : List (Nat × Nat) := order.map fun o => (o.1.align, o.2)

section Repeated

variable (hb : Behind file wide entries) (hlen : qs.length = entries.length)
include hb hlen

theorem alignments_new : alignments (byOffset (newEntries entries qs)) = alignments (byOffset entries) := by
  have hold : alignments (byOffset entries) =
      ((byOffset entries).map Prod.snd).map fun i => ((entries.getD i {}).align, i) := by
    rw [alignments, List.map_map]
    refine List.map_congr_left fun o ho => ?_
    obtain ⟨entry, i⟩ := o
    simp only [Function.comp_apply, List.getD_eq_getElem?_getD, mem_byOffset.1 ho, Option.getD_some]
  have hnew : alignments (byOffset (newEntries entries qs)) =
      ((newPlaces entries (bytesOfAll qs)).map Placed.index).map fun i => ((entries.getD i {}).align, i) := by
    rw [alignments, byOffset_new hb hlen, List.map_map, List.map_map]
    refine List.map_congr_left fun p hp => ?_
    obtain ⟨entry, q, hentry, -, -, hat⟩ := newEntry_placed hlen hp
    simp only [Function.comp_apply, List.getD_eq_getElem?_getD, hentry, hat, Option.getD_some, newEntry]
  rw [hold, hnew, newPlaces, place_index]

omit hb in
theorem offset_new {p : Placed} (hp : p ∈ newPlaces entries (bytesOfAll qs)) :
    ((newEntries entries qs).getD p.index {}).offset = p.offset ∧
      ((newEntries entries qs).getD p.index {}).size = p.bytes.length := by
  obtain ⟨entry, q, -, -, hbytes, hat⟩ := newEntry_placed hlen hp
  rw [List.getD_eq_getElem?_getD, hat, hbytes]
  exact ⟨rfl, rfl⟩

theorem firstOffset_new (horder : byOffset entries = (first, i) :: rest) :
    firstOffset (byOffset (newEntries entries qs)) = alignUp (firstOffset (byOffset entries)) (2 ^ first.align) := by
  have hplaces : newPlaces entries (bytesOfAll qs) = place (bytesOfAll qs) ((first, i) :: rest) (firstOffset (byOffset entries)) := by
    rw [newPlaces, horder]
  have hat := @offset_new entries qs hlen
  rw [hplaces, place] at hat
  rw [byOffset_new hb hlen, hplaces, place, List.map_cons]
  exact (hat List.mem_cons_self).1

/-- The new slices go where they would have gone in the first file. -/
theorem newPlaces_new (horder : byOffset entries = (first, i) :: rest) :
    newPlaces (newEntries entries qs) slices = newPlaces entries slices := by
  rw [newPlaces, place_congr (alignments_new hb hlen), firstOffset_new hb hlen horder, horder, place_aligned, newPlaces, horder]

theorem oldEnd_new (hne : newPlaces entries (bytesOfAll qs) ≠ []) : oldEnd (byOffset (newEntries entries qs)) =
    endOf (firstOffset (byOffset entries)) ((newPlaces entries (bytesOfAll qs)).map Placed.piece) := by
  have hstops : (byOffset (newEntries entries qs)).map (fun entry => entry.1.offset + entry.1.size) =
      ((newPlaces entries (bytesOfAll qs)).map Placed.piece).map Piece.stop := by
    rw [byOffset_new hb hlen, List.map_map, List.map_map]
    refine List.map_congr_left fun p hp => ?_
    obtain ⟨hoffset, hsize⟩ := offset_new hlen hp
    simp only [Function.comp_apply, hoffset, hsize]
    rfl
  have hlaid := hb.laid (bytesOfAll qs)
  rw [hb.length_take] at hlaid
  rw [oldEnd, hstops]
  exact foldl_max_stop hlaid (Nat.zero_le _) (by rw [ne_eq, List.map_eq_nil_iff]; exact hne)

end Repeated

/-- The table may be written before the slices are laid out. -/
theorem overwriteAll_joined (hb : Behind file wide entries) {fields : List (Nat × List UInt8)}
    (hfields : ∀ field ∈ fields, field.1 + field.2.length ≤ firstOffset (byOffset entries)) (slices : List (List UInt8)) :
    overwriteAll (joined file (byOffset entries) (newPlaces entries slices)) fields =
      layOut (overwriteAll (file.take (firstOffset (byOffset entries))) fields) ((newPlaces entries slices).map Placed.piece) ++
        file.drop (oldEnd (byOffset entries)) := by
  have hlaid := hb.laid slices
  have hlen := hb.length_take
  have hle := le_endOf hlaid
  have hlength := length_layOut hlaid
  rw [joined, overwriteAll_append_left fun field hfield => (hfields field hfield).trans (by omega),
    overwriteAll_layOut hlaid fun field hfield => (hfields field hfield).trans hlen.ge]

theorem newPlaces_cons (horder : byOffset entries = (first, i) :: rest) (slices : List (List UInt8)) :
    ∃ later, newPlaces entries slices =
      ⟨i, alignUp (firstOffset (byOffset entries)) (2 ^ first.align), slices.getD i []⟩ :: later := by
  rw [newPlaces, horder, place]
  exact ⟨_, rfl⟩

/-- A table has its fields in the same places, whatever it says. -/
theorem tableFields_same (wide : Bool) (placed placed' : List Placed) (slices slices' : List (List UInt8)) (n : Nat) :
    List.Forall₂ (fun a b => a.1 = b.1 ∧ a.2.length = b.2.length) (tableFields wide placed slices n)
      (tableFields wide placed' slices' n) := by
  rw [tableFields, tableFields]
  generalize List.range n = numbers
  induction numbers with
  | nil => exact .nil
  | cons i numbers ih =>
      rw [List.flatMap_cons, List.flatMap_cons]
      refine List.rel_append ?_ ih
      cases wide <;> simp [entryFields]

section Reassembled

variable (hu : Universal file wide entries) (ha : Assembles file wide entries (bytesOfAll qs) mid)
  (hlen : qs.length = entries.length)
include hu ha hlen

/-- The file that was put together is the first one but for its table and its slices. -/
theorem joined_new : joined mid (byOffset (newEntries entries qs)) (newPlaces entries slices) =
    overwriteAll (joined file (byOffset entries) (newPlaces entries slices))
      (tableFields wide (newPlaces entries (bytesOfAll qs)) (bytesOfAll qs) entries.length) := by
  have hb := Universal.behind hu
  obtain ⟨first, i, rest, horder⟩ := Universal.nonempty hu
  have hfields : ∀ field ∈ tableFields wide (newPlaces entries (bytesOfAll qs)) (bytesOfAll qs) entries.length,
      field.1 + field.2.length ≤ firstOffset (byOffset entries) := fun field hfield =>
    (tableFields_inside hfield).2.trans hb.table
  obtain ⟨oldPlaces, hold⟩ := newPlaces_cons horder (bytesOfAll qs)
  obtain ⟨later, hnew⟩ := newPlaces_cons horder slices
  have hend := oldEnd_new hb hlen (by rw [hold]; exact List.cons_ne_nil _ _)
  have hmid := ha.bytes
  rw [overwriteAll_joined hb hfields] at hmid
  have hlaid : Laid (overwriteAll (file.take (firstOffset (byOffset entries)))
      (tableFields wide (newPlaces entries (bytesOfAll qs)) (bytesOfAll qs) entries.length)).length
      ((newPlaces entries (bytesOfAll qs)).map Placed.piece) := by
    rw [length_overwriteAll]
    exact hb.laid (bytesOfAll qs)
  have hlength := length_layOut hlaid
  rw [length_overwriteAll, hb.length_take] at hlength
  have hdrop : mid.drop (oldEnd (byOffset (newEntries entries qs))) = file.drop (oldEnd (byOffset entries)) := by
    rw [← hmid, List.drop_left' (hlength.trans hend.symm)]
  generalize tableFields wide (newPlaces entries (bytesOfAll qs)) (bytesOfAll qs) entries.length = fields at *
  have htake : mid.take (alignUp (firstOffset (byOffset entries)) (2 ^ first.align)) =
      padded (overwriteAll (file.take (firstOffset (byOffset entries))) fields)
        (alignUp (firstOffset (byOffset entries)) (2 ^ first.align)) := by
    rw [hold, List.map_cons] at hlaid hmid hlength
    have hstop := stop_le_endOf hlaid List.mem_cons_self
    rw [length_overwriteAll, hb.length_take, ← hlength] at hstop
    have hroom : alignUp (firstOffset (byOffset entries)) (2 ^ first.align) ≤ _ := (Nat.le_add_right _ _).trans hstop
    rw [← hmid, List.take_append_of_le_length hroom]
    exact take_layOut_first hlaid
  have haligned : firstOffset (byOffset entries) ≤ alignUp (firstOffset (byOffset entries)) (2 ^ first.align) :=
    alignUp_le (Nat.two_pow_pos _)
  rw [joined, firstOffset_new hb hlen horder, hdrop, htake, overwriteAll_joined hb hfields, hnew, List.map_cons]
  congr 1
  refine layOut_padded ?_
  rw [length_overwriteAll, hb.length_take]
  exact haligned

/-- Putting new slices into the file that was put together gives what they give in the first file. -/
theorem assembles_again (h : Assembles mid wide (newEntries entries qs) slices out) : Assembles file wide entries slices out := by
  have hb := Universal.behind hu
  obtain ⟨first, i, rest, horder⟩ := Universal.nonempty hu
  have hplaces : newPlaces (newEntries entries qs) slices = newPlaces entries slices := newPlaces_new hb hlen horder
  have hjoined := @joined_new wide file mid entries qs slices hu ha hlen
  obtain ⟨hsupported, hnarrow, hbounded, hbytes⟩ := h
  rw [hplaces] at hnarrow hbounded hbytes
  rw [hjoined] at hbounded hbytes
  refine ⟨fun o ho => ?_, hnarrow, by rwa [length_overwriteAll] at hbounded, ?_⟩
  · have hin : (o.1.align, o.2) ∈ alignments (byOffset (newEntries entries qs)) := by
      rw [alignments_new hb hlen]
      exact List.mem_map_of_mem ho
    obtain ⟨o', ho', heq⟩ := List.mem_map.1 hin
    rw [← (Prod.mk.inj heq).1]
    exact hsupported o' ho'
  · rw [← hbytes, length_newEntries hlen, overwriteAll_overwriteAll (tableFields_same _ _ _ _ _ _)]
    exact tableFields_apart _ _ _ _

/-- The new entries are for the programs that were put in. -/
theorem holds_new (haccepted : ∀ q ∈ qs, q.Accepted) : List.Forall₂ (Holds mid) (newEntries entries qs) qs := by
  have hb := Universal.behind hu
  refine List.forall₂_iff_get.2 ⟨(length_newEntries hlen).trans hlen.symm, fun i hi hq => ?_⟩
  obtain ⟨entry, q, hold, hqi, hnew⟩ := getElem?_newEntries.1 (List.getElem?_eq_getElem hi)
  obtain ⟨hfits, hslice, -⟩ := slice_new hb ha (List.getElem?_eq_some_iff.1 hold).1 hqi
  have hget : qs.get ⟨i, hq⟩ = q := Option.some.inj ((List.getElem?_eq_getElem hq).symm.trans hqi)
  rw [List.get_eq_getElem, ← hnew, hget]
  exact ⟨hfits, hslice, haccepted q (List.mem_of_getElem? hqi), _, rfl⟩

end Reassembled

end TheSeed.MachORepeated
