import TheSeed.MachOContainers

namespace TheSeed.MachOTable

open Bytes Checked BoundedBytes Pieces MachOLayout MachOProgram MachOSigner MachOPlan MachOUniversal MachOContainers

/-! What a universal file that was put together again says in its table, and where its slices are. -/

variable {path : String} {wide : Bool} {file out : List UInt8} {entries : List ContainerEntry} {entry : ContainerEntry}
  {slices : List (List UInt8)} {p : Placed} {field : Nat × List UInt8} {i j n : Nat}

/-- The slices where they go. -/
def newPlaces (entries : List ContainerEntry) (slices : List (List UInt8)) : List Placed :=
  place slices (byOffset entries) (firstOffset (byOffset entries))

/-- Putting the slices together gives these bytes. -/
structure Assembles (file : List UInt8) (wide : Bool) (entries : List ContainerEntry) (slices : List (List UInt8))
    (out : List UInt8) : Prop where
  supported : ∀ o ∈ byOffset entries, o.1.align < 32
  narrow : wide = false → ∀ p ∈ newPlaces entries slices, p.offset + p.bytes.length ≤ kUint32Max
  bounded : (joined file (byOffset entries) (newPlaces entries slices)).length ≤ kMaxVectorSize
  bytes : overwriteAll (joined file (byOffset entries) (newPlaces entries slices))
    (tableFields wide (newPlaces entries slices) slices entries.length) = out

theorem assembleUniversal_assembles :
    assembleUniversal path file ⟨formOf wide, entries⟩ slices = .ok out ↔ Assembles file wide entries slices out := by
  have hform : decide (formOf wide = .fat64) = wide := by cases wide <;> rfl
  have hnarrow : formOf wide ≠ .fat64 ↔ wide = false := by cases wide <;> decide
  rw [assembleUniversal_eq_ok]
  simp only [hform, hnarrow]
  constructor
  · rintro ⟨⟨hsupported, hends, hlength⟩, rfl⟩
    exact ⟨hsupported, hends, hlength, rfl⟩
  · rintro ⟨hsupported, hends, hlength, rfl⟩
    exact ⟨⟨hsupported, hends, hlength⟩, rfl⟩

/-! The numbers of the slices -/

theorem byOffset_perm (entries : List ContainerEntry) : (byOffset entries).Perm entries.zipIdx := by
  rw [byOffset_eq]
  exact SortedBy.sortBy_perm _ _

theorem mem_byOffset : (entry, i) ∈ byOffset entries ↔ entries[i]? = some entry := by
  rw [(byOffset_perm entries).mem_iff, List.mem_zipIdx_iff_getElem?]

theorem numbers_perm (entries : List ContainerEntry) :
    ((byOffset entries).map Prod.snd).Perm (List.range entries.length) := by
  have h := (byOffset_perm entries).map Prod.snd
  rwa [List.zipIdx_map_snd, List.range'_eq_map_range, List.map_congr_left fun i _ => Nat.zero_add i, List.map_id'] at h

theorem index_perm (entries : List ContainerEntry) (slices : List (List UInt8)) :
    ((newPlaces entries slices).map Placed.index).Perm (List.range entries.length) := by
  rw [newPlaces, place_index]
  exact numbers_perm entries

/-- Each number has its place. -/
theorem exists_placed (slices : List (List UInt8)) (hi : i < entries.length) : ∃ p ∈ newPlaces entries slices,
    p.index = i ∧ p.offset = offsetOf (newPlaces entries slices) i ∧ p.bytes = slices.getD i [] := by
  have hmem : i ∈ (newPlaces entries slices).map Placed.index :=
    (index_perm entries slices).mem_iff.2 (List.mem_range.2 hi)
  obtain ⟨other, hother, hindex⟩ := List.mem_map.1 hmem
  cases hfind : (newPlaces entries slices).find? fun p => p.index = i with
  | none => exact absurd hindex (by simpa using List.find?_eq_none.1 hfind other hother)
  | some p =>
      have hp := List.mem_of_find?_eq_some hfind
      have hnumber : p.index = i := by simpa using List.find?_some hfind
      refine ⟨p, hp, hnumber, ?_, ?_⟩
      · rw [offsetOf, hfind]
        rfl
      · rw [place_bytes hp, hnumber]

/-- No number has two places. -/
theorem placed_unique {q : Placed} (hp : p ∈ newPlaces entries slices) (hq : q ∈ newPlaces entries slices)
    (h : p.index = q.index) : p = q :=
  List.inj_on_of_nodup_map ((index_perm entries slices).nodup_iff.2 List.nodup_range) hp hq h

theorem offsetOf_placed (hp : p ∈ newPlaces entries slices) : offsetOf (newPlaces entries slices) p.index = p.offset := by
  have hi : p.index < entries.length :=
    List.mem_range.1 ((index_perm entries slices).mem_iff.1 (List.mem_map_of_mem hp))
  obtain ⟨q, hq, hindex, hoffset, -⟩ := exists_placed slices hi
  rw [← hoffset, placed_unique hq hp hindex]

/-! The fields of the table -/

theorem entryFields_bounds {offset size : Nat} (h : field ∈ entryFields wide i offset size) :
    tableEnd wide i + 8 ≤ field.1 ∧ field.1 + field.2.length ≤ tableEnd wide i + 8 + 2 * fieldWidth wide := by
  rw [entryFields] at h
  cases wide with
  | true =>
      simp only [if_true, List.mem_cons, List.not_mem_nil, or_false, tableEnd, fieldWidth] at h ⊢
      rcases h with rfl | rfl <;> simp only [length_beBytes] <;> omega
  | false =>
      simp only [Bool.false_eq_true, if_false, List.mem_cons, List.not_mem_nil, or_false, tableEnd, fieldWidth] at h ⊢
      rcases h with rfl | rfl <;> simp only [length_beBytes] <;> omega

theorem tableEnd_succ (wide : Bool) (i : Nat) : tableEnd wide (i + 1) = tableEnd wide i + fatEntrySize wide := by
  rw [tableEnd, tableEnd, Nat.add_one_mul, Nat.add_assoc]

theorem tableEnd_le (wide : Bool) (h : i ≤ j) : tableEnd wide i ≤ tableEnd wide j :=
  Nat.add_le_add_left (Nat.mul_le_mul_right _ h) _

/-- An entry has room for two numbers behind its first eight bytes, and for the alignment behind them. -/
theorem entry_room (wide : Bool) : 8 + 2 * fieldWidth wide + 4 ≤ fatEntrySize wide := by cases wide <;> decide

theorem tableFields_bounds {placed : List Placed} (h : field ∈ tableFields wide placed slices n) :
    ∃ i < n, tableEnd wide i + 8 ≤ field.1 ∧ field.1 + field.2.length ≤ tableEnd wide i + 8 + 2 * fieldWidth wide := by
  obtain ⟨i, hi, hfield⟩ := List.mem_flatMap.1 h
  exact ⟨i, List.mem_range.1 hi, entryFields_bounds hfield⟩

theorem tableFields_inside {placed : List Placed} (h : field ∈ tableFields wide placed slices n) :
    16 ≤ field.1 ∧ field.1 + field.2.length ≤ tableEnd wide n := by
  obtain ⟨i, hi, hstart, hend⟩ := tableFields_bounds h
  have hroom := entry_room wide
  have hnext := tableEnd_le wide hi
  have hzero : tableEnd wide 0 ≤ tableEnd wide i := tableEnd_le wide (Nat.zero_le i)
  have hfirst : tableEnd wide 0 = 8 := by rw [tableEnd, Nat.zero_mul]; rfl
  rw [tableEnd_succ] at hnext
  omega

theorem tableFields_apart (wide : Bool) (placed : List Placed) (slices : List (List UInt8)) (n : Nat) :
    (tableFields wide placed slices n).Pairwise fun a b => a.1 + a.2.length ≤ b.1 := by
  rw [tableFields, List.pairwise_flatMap]
  refine ⟨fun i _ => ?_, ?_⟩
  · rw [entryFields]
    cases wide <;> simp
  · refine List.pairwise_lt_range.imp fun {i j} hij a ha b hb => ?_
    have hstart := (entryFields_bounds hb).1
    have hend := (entryFields_bounds ha).2
    have hroom := entry_room wide
    have hnext := tableEnd_le wide hij
    rw [tableEnd_succ] at hnext
    omega

/-! The bytes -/

/-- The slices lie behind the table. -/
structure Behind (file : List UInt8) (wide : Bool) (entries : List ContainerEntry) : Prop where
  table : tableEnd wide entries.length ≤ firstOffset (byOffset entries)
  inside : firstOffset (byOffset entries) ≤ file.length

theorem Universal.nonempty (h : Universal file wide entries) : ∃ first i rest, byOffset entries = (first, i) :: rest := by
  cases horder : byOffset entries with
  | nil =>
      have hlen := congrArg List.length horder
      rw [(byOffset_perm entries).length_eq, List.length_zipIdx] at hlen
      exact absurd hlen (Nat.ne_of_gt h.positive)
  | cons first rest => exact ⟨first.1, first.2, rest, rfl⟩

theorem Universal.behind (h : Universal file wide entries) : Behind file wide entries := by
  obtain ⟨first, i, rest, horder⟩ := Universal.nonempty h
  have hfirst : entries[i]? = some first := mem_byOffset.1 (by rw [horder]; exact List.mem_cons_self)
  have henter := h.enters i first hfirst
  have hoffset : firstOffset (byOffset entries) = first.offset := by rw [horder]; rfl
  exact ⟨by rw [hoffset]; exact henter.behind, by rw [hoffset]; exact (Nat.le_add_right _ _).trans henter.inside⟩

section Assembled

variable (hb : Behind file wide entries) (ha : Assembles file wide entries slices out)
include hb

theorem Behind.length_take : (file.take (firstOffset (byOffset entries))).length = firstOffset (byOffset entries) := by
  rw [List.length_take]
  exact Nat.min_eq_left hb.inside

theorem Behind.laid (slices : List (List UInt8)) : Laid (file.take (firstOffset (byOffset entries))).length
    ((newPlaces entries slices).map Placed.piece) := by
  rw [hb.length_take]
  exact laid_place _ _ _

theorem Behind.start (hp : p ∈ newPlaces entries slices) : tableEnd wide entries.length ≤ p.offset := by
  have hstart := start_le (hb.laid slices) (List.mem_map_of_mem hp)
  rw [hb.length_take] at hstart
  exact hb.table.trans hstart

theorem Behind.length_joined (slices : List (List UInt8)) :
    (joined file (byOffset entries) (newPlaces entries slices)).length =
      endOf (firstOffset (byOffset entries)) ((newPlaces entries slices).map Placed.piece) +
        (file.length - oldEnd (byOffset entries)) := by
  rw [joined, List.length_append, length_layOut (hb.laid slices), hb.length_take, List.length_drop]

theorem Behind.stop (hp : p ∈ newPlaces entries slices) :
    p.offset + p.bytes.length ≤ (joined file (byOffset entries) (newPlaces entries slices)).length := by
  have hstop := stop_le_endOf (hb.laid slices) (List.mem_map_of_mem hp)
  rw [hb.length_take] at hstop
  rw [hb.length_joined slices]
  exact hstop.trans (Nat.le_add_right _ _)

theorem Behind.slice_placed (hp : p ∈ newPlaces entries slices) :
    slice (joined file (byOffset entries) (newPlaces entries slices)) p.offset p.bytes.length = p.bytes := by
  have hstop := stop_le_endOf (hb.laid slices) (List.mem_map_of_mem hp)
  rw [joined, slice_append_left (by rw [length_layOut (hb.laid slices)]; exact hstop)]
  exact slice_layOut (hb.laid slices) (List.mem_map_of_mem hp)

theorem Behind.slice_front (h : i + n ≤ firstOffset (byOffset entries)) :
    slice (joined file (byOffset entries) (newPlaces entries slices)) i n = slice file i n := by
  have hlen := length_layOut (hb.laid slices)
  have hle := le_endOf (hb.laid slices)
  have hkept := take_layOut (hb.laid slices) (Nat.le_refl (file.take (firstOffset (byOffset entries))).length)
  rw [List.take_length, hb.length_take] at hkept
  rw [hb.length_take] at hlen hle
  rw [joined, slice_append_left (by omega), ← slice_take h, hkept, slice_take h]

include ha

omit hb in
theorem Assembles.length : out.length = (joined file (byOffset entries) (newPlaces entries slices)).length := by
  rw [← ha.bytes, length_overwriteAll]

theorem Assembles.slice_placed (hp : p ∈ newPlaces entries slices) : slice out p.offset p.bytes.length = p.bytes := by
  have hstart := hb.start hp
  rw [← ha.bytes, slice_overwriteAll_of_disjoint fun field hfield => .inr ?_, hb.slice_placed hp]
  exact (tableFields_inside hfield).2.trans hstart

/-- What is before the slices and no field of the table stays. -/
theorem Assembles.slice_front (h : i + n ≤ tableEnd wide entries.length)
    (hapart : ∀ field ∈ tableFields wide (newPlaces entries slices) slices entries.length,
      i + n ≤ field.1 ∨ field.1 + field.2.length ≤ i) : slice out i n = slice file i n := by
  rw [← ha.bytes, slice_overwriteAll_of_disjoint hapart, hb.slice_front (h.trans hb.table)]

/-- The first two numbers of an entry and its alignment are no fields that are written. -/
theorem Assembles.slice_entry (hi : i < entries.length) (h : j + n ≤ 8 ∨ 8 + 2 * fieldWidth wide ≤ j ∧ j + n ≤ fatEntrySize wide) :
    slice out (tableEnd wide i + j) n = slice file (tableEnd wide i + j) n := by
  have hroom := entry_room wide
  have hnext := tableEnd_le wide hi
  rw [tableEnd_succ] at hnext
  refine ha.slice_front hb (by omega) fun field hfield => ?_
  obtain ⟨k, -, hstart, hend⟩ := tableFields_bounds hfield
  rcases Nat.lt_trichotomy k i with hlt | rfl | hgt
  · have hbefore := tableEnd_le wide hlt
    rw [tableEnd_succ] at hbefore
    omega
  · omega
  · have hbehind := tableEnd_le wide hgt
    rw [tableEnd_succ] at hbehind
    omega

theorem Assembles.slice_field (h : field ∈ tableFields wide (newPlaces entries slices) slices entries.length) :
    slice out field.1 field.2.length = field.2 := by
  rw [← ha.bytes]
  refine slice_overwriteAll (tableFields_apart _ _ _ _) (fun other hother => ?_) h
  have hle := le_endOf (hb.laid slices)
  have htable := hb.table
  have hinside := (tableFields_inside hother).2
  rw [hb.length_joined slices]
  rw [hb.length_take] at hle
  omega

/-- The places and the lengths fit their fields. -/
theorem Assembles.fits (hp : p ∈ newPlaces entries slices) : p.offset + p.bytes.length < 256 ^ fieldWidth wide := by
  cases hwide : wide with
  | true =>
      have hbounded := ha.bounded
      have hstop := hb.stop hp
      rw [kMaxVectorSize] at hbounded
      rw [fieldWidth, if_pos rfl]
      omega
  | false =>
      have hnarrow := ha.narrow hwide p hp
      rw [kUint32Max] at hnarrow
      rw [fieldWidth, if_neg (by decide)]
      omega

/-- The new table. -/
theorem Assembles.tableEntry (hi : i < entries.length) : MachOContainers.tableEntry out wide i =
    { MachOContainers.tableEntry file wide i with
      offset := offsetOf (newPlaces entries slices) i
      size := (slices.getD i []).length } := by
  obtain ⟨p, hp, -, hoffset, hbytes⟩ := exists_placed slices hi
  have hfits := ha.fits hb hp
  have hroom := entry_room wide
  have hfield : ∀ field ∈ entryFields wide i (offsetOf (newPlaces entries slices) i) (slices.getD i []).length,
      slice out field.1 field.2.length = field.2 := fun field h =>
    ha.slice_field hb (List.mem_flatMap.2 ⟨i, List.mem_range.2 hi, h⟩)
  have hkept : ∀ {j n}, j + n ≤ 8 ∨ 8 + 2 * fieldWidth wide ≤ j ∧ j + n ≤ fatEntrySize wide →
      slice out (kFatHeaderSize + i * fatEntrySize wide + j) n = slice file (kFatHeaderSize + i * fatEntrySize wide + j) n :=
    ha.slice_entry hb hi
  have hnumbers : beValue (slice out (kFatHeaderSize + i * fatEntrySize wide + 8) (fieldWidth wide)) =
        offsetOf (newPlaces entries slices) i ∧
      beValue (slice out (kFatHeaderSize + i * fatEntrySize wide + 8 + fieldWidth wide) (fieldWidth wide)) =
        (slices.getD i []).length := by
    rw [← hoffset, ← hbytes] at hfield ⊢
    have hoffset' : p.offset < 256 ^ fieldWidth wide := by omega
    have hsize' : p.bytes.length < 256 ^ fieldWidth wide := by omega
    cases wide with
    | true =>
        have hfirst := hfield _ List.mem_cons_self
        have hsecond := hfield _ (List.mem_cons_of_mem _ List.mem_cons_self)
        simp only [length_beBytes] at hfirst hsecond
        exact ⟨by rw [fieldWidth, if_pos rfl, hfirst]; exact beValue_beBytes_of_lt hoffset',
          by rw [fieldWidth, if_pos rfl, Nat.add_assoc, hsecond]; exact beValue_beBytes_of_lt hsize'⟩
    | false =>
        have hfirst := hfield _ List.mem_cons_self
        have hsecond := hfield _ (List.mem_cons_of_mem _ List.mem_cons_self)
        simp only [length_beBytes] at hfirst hsecond
        exact ⟨by rw [fieldWidth, if_neg (by decide), hfirst]; exact beValue_beBytes_of_lt hoffset',
          by rw [fieldWidth, if_neg (by decide), Nat.add_assoc, hsecond]; exact beValue_beBytes_of_lt hsize'⟩
  have hcputype := @hkept 0 4 (.inl (by omega))
  have hcpusubtype := @hkept 4 4 (.inl (by omega))
  have halign := @hkept (8 + 2 * fieldWidth wide) 4 (.inr ⟨Nat.le_refl _, hroom⟩)
  rw [Nat.add_zero] at hcputype
  rw [← Nat.add_assoc] at halign
  rw [MachOContainers.tableEntry, MachOContainers.tableEntry, hcputype, hcpusubtype, halign, hnumbers.1, hnumbers.2]

end Assembled

end TheSeed.MachOTable
