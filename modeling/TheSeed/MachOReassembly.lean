import TheSeed.MachOTable

namespace TheSeed.MachOReassembly

open Bytes Checked BoundedBytes Pieces MachOLayout MachOProgram MachOSigner MachOPlan MachOUniversal MachOContainers
open MachOTable

/-! Putting a universal file together again loses nothing of it. -/

variable {path : String} {wide : Bool} {file out : List UInt8} {entries : List ContainerEntry}
  {entry : ContainerEntry} {order : List (ContainerEntry × Nat)} {container : MachOContainer} {slices : List (List UInt8)} {p : Placed}
  {cursor i j n : Nat}

/-! The order of the slices -/

/-- The places belong to the entries in their order, and each is a multiple of the alignment. -/
theorem place_multiple (slices : List (List UInt8)) (order : List (ContainerEntry × Nat)) (cursor : Nat) :
    List.Forall₂ (fun o p => o.2 = p.index ∧ 2 ^ o.1.align ∣ p.offset) order (place slices order cursor) := by
  induction order generalizing cursor with
  | nil => exact .nil
  | cons o order ih => exact .cons ⟨rfl, Nat.dvd_mul_left _ _⟩ (ih _)

theorem exists_order_placed (hi : entries[i]? = some entry) (slices : List (List UInt8)) :
    ∃ (m : Nat) (p : Placed), (byOffset entries)[m]? = some (entry, i) ∧ (newPlaces entries slices)[m]? = some p ∧ p.index = i ∧
      2 ^ entry.align ∣ p.offset := by
  obtain ⟨m, hm⟩ := List.mem_iff_getElem?.1 (mem_byOffset.2 hi)
  obtain ⟨p, hp, hindex, hdvd⟩ := forall₂_getElem? (place_multiple slices (byOffset entries) (firstOffset (byOffset entries))) hm
  exact ⟨m, p, hm, hp, hindex.symm, hdvd⟩

theorem pairwise_byOffset (entries : List ContainerEntry) :
    (byOffset entries).Pairwise fun a b => a.1.offset ≤ b.1.offset := by
  rw [byOffset_eq]
  exact SortedBy.pairwise_sortBy _ _

/-- A slice that was before another one ends before it. -/
theorem placed_before {a b : ContainerEntry} {q : Placed} (hb : Behind file wide entries) (ha : entries[i]? = some a)
    (hb' : entries[j]? = some b) (hlt : a.offset < b.offset) (hp : p ∈ newPlaces entries slices)
    (hq : q ∈ newPlaces entries slices) (hpi : p.index = i) (hqj : q.index = j) : p.offset + p.bytes.length ≤ q.offset := by
  obtain ⟨m, p', hm, hp', hpi', -⟩ := exists_order_placed ha slices
  obtain ⟨n, q', hn, hq', hqj', -⟩ := exists_order_placed hb' slices
  obtain rfl := placed_unique hp (List.mem_of_getElem? hp') (hpi.trans hpi'.symm)
  obtain rfl := placed_unique hq (List.mem_of_getElem? hq') (hqj.trans hqj'.symm)
  obtain ⟨hmlt, hm⟩ := List.getElem?_eq_some_iff.1 hm
  obtain ⟨hnlt, hn⟩ := List.getElem?_eq_some_iff.1 hn
  obtain ⟨hmlt', hp'⟩ := List.getElem?_eq_some_iff.1 hp'
  obtain ⟨hnlt', hq'⟩ := List.getElem?_eq_some_iff.1 hq'
  have hmn : m < n := by
    by_contra hge
    rcases Nat.lt_or_eq_of_le (Nat.not_lt.1 hge) with hgt | heq
    · have hle := List.pairwise_iff_getElem.1 (pairwise_byOffset entries) n m hnlt hmlt hgt
      rw [hm, hn] at hle
      exact absurd hlt (Nat.not_lt.2 hle)
    · subst heq
      rw [hm] at hn
      obtain ⟨rfl, -⟩ := Prod.mk.inj hn
      exact Nat.lt_irrefl _ hlt
  have hpairwise := List.pairwise_map.1 (hb.laid slices).pairwise
  have hstop := List.pairwise_iff_getElem.1 hpairwise m n hmlt' hnlt' hmn
  rw [hp', hq'] at hstop
  exact hstop

/-- A slice has room for the first twelve bytes of a program. -/
theorem parse_least {span : ByteSpan} {base size : Nat} {scope : String} {layout : SliceLayout}
    (h : parseMachOSlice span base size scope = .ok layout) : 12 ≤ size := by
  obtain ⟨seen, hseen, h⟩ := bind_eq_ok.1 h
  obtain ⟨hfits, hbytes⟩ := sliceView_eq_ok hseen
  obtain ⟨⟨⟩, -, h⟩ := bind_eq_ok.1 h
  obtain ⟨_, hleast, h⟩ := bind_eq_ok.1 h
  have hleast := (ByteSpan.sub_eq_ok.1 hleast).1
  rw [hbytes, length_slice_of_le hfits] at hleast
  omega

/-- Of two slices one ends before the other begins. -/
theorem slices_apart {a b : ContainerEntry} (h : Universal file wide entries) (ha : entries[i]? = some a)
    (hb : entries[j]? = some b) (hne : i ≠ j) : a.offset + a.size ≤ b.offset ∨ b.offset + b.size ≤ a.offset := by
  obtain ⟨m, hm⟩ := List.mem_iff_getElem?.1 (mem_byOffset.2 ha)
  obtain ⟨n, hn⟩ := List.mem_iff_getElem?.1 (mem_byOffset.2 hb)
  have hbefore : ∀ {m n : Nat} {x y : ContainerEntry × Nat}, (byOffset entries)[m]? = some x → (byOffset entries)[n]? = some y →
      m < n → x.1.offset + x.1.size ≤ y.1.offset := by
    intro m n x y hx hy hlt
    obtain ⟨hmlt, rfl⟩ := List.getElem?_eq_some_iff.1 hx
    obtain ⟨hnlt, rfl⟩ := List.getElem?_eq_some_iff.1 hy
    exact List.pairwise_iff_getElem.1 h.apart m n hmlt hnlt hlt
  rcases Nat.lt_trichotomy m n with hlt | rfl | hgt
  · exact .inl (hbefore hm hn hlt)
  · exact absurd (Prod.mk.inj (Option.some.inj (hm.symm.trans hn))).2 hne
  · exact .inr (hbefore hn hm hgt)

theorem offsets_distinct {a b : ContainerEntry} (h : Universal file wide entries) (ha : entries[i]? = some a)
    (hb : entries[j]? = some b) (hne : i ≠ j) : a.offset ≠ b.offset := by
  have hpa := parse_least (h.slices i a ha)
  have hpb := parse_least (h.slices j b hb)
  have hapart := slices_apart h ha hb hne
  omega

/-! The whole file -/

/-- What a reassembled file has of the old file and of the slices. -/
structure Reassembled (file : List UInt8) (wide : Bool) (entries : List ContainerEntry) (slices : List (List UInt8))
    (out : List UInt8) : Prop where
  entry : ∀ (i : Nat) (entry : ContainerEntry) (s : List UInt8), entries[i]? = some entry → slices[i]? = some s →
    2 ^ entry.align ∣ (tableEntry out wide i).offset ∧ (tableEntry out wide i).size = s.length
  content : ∀ (i : Nat) (s : List UInt8), i < entries.length → slices[i]? = some s →
    (tableEntry out wide i).offset + s.length ≤ out.length ∧ slice out (tableEntry out wide i).offset s.length = s
  order : ∀ (i j : Nat) (a b : ContainerEntry), i ≠ j → entries[i]? = some a → entries[j]? = some b →
    a.offset < b.offset ∧
        (tableEntry out wide i).offset + (tableEntry out wide i).size ≤ (tableEntry out wide j).offset ∨
      b.offset < a.offset ∧
        (tableEntry out wide j).offset + (tableEntry out wide j).size ≤ (tableEntry out wide i).offset
  front : ∀ n < firstOffset (byOffset entries),
    (∀ i < entries.length, ¬(tableEnd wide i + 8 ≤ n ∧ n < tableEnd wide i + 8 + 2 * fieldWidth wide)) → out[n]? = file[n]?
  rest : ∃ stop, (∀ i < entries.length, (tableEntry out wide i).offset + (tableEntry out wide i).size ≤ stop) ∧
    (∃ i < entries.length, (tableEntry out wide i).offset + (tableEntry out wide i).size = stop) ∧
    out.drop stop = file.drop (oldEnd (byOffset entries)) ∧
    ∀ n, firstOffset (byOffset entries) ≤ n → n < stop →
      (∀ i < entries.length,
        ¬((tableEntry out wide i).offset ≤ n ∧ n < (tableEntry out wide i).offset + (tableEntry out wide i).size)) →
      out[n]? = some 0

/-- The place of a number as the new table has it. -/
theorem tableEntry_placed (hb : Behind file wide entries) (ha : Assembles file wide entries slices out)
    (hi : i < entries.length) : ∃ p ∈ newPlaces entries slices, p.index = i ∧ p.bytes = slices.getD i [] ∧
      (tableEntry out wide i).offset = p.offset ∧ (tableEntry out wide i).size = p.bytes.length := by
  obtain ⟨p, hp, hindex, hoffset, hbytes⟩ := exists_placed slices hi
  rw [ha.tableEntry hb hi]
  exact ⟨p, hp, hindex, hbytes, hoffset.symm, congrArg List.length hbytes.symm⟩

theorem reassembled (h : Universal file wide entries) (ha : Assembles file wide entries slices out) :
    Reassembled file wide entries slices out := by
  have hb := Universal.behind h
  have hlen := ha.length
  have htable := hb.table
  have hbehind : ∀ field ∈ tableFields wide (newPlaces entries slices) slices entries.length,
      field.1 + field.2.length ≤ firstOffset (byOffset entries) := fun field hfield =>
    (tableFields_inside hfield).2.trans htable
  have hfirst := le_endOf (hb.laid slices)
  have hend := length_layOut (hb.laid slices)
  rw [hb.length_take] at hfirst hend
  refine ⟨fun i entry s hi hs => ?_, fun i s hi hs => ?_, fun i j a b hne hi hj => ?_, fun n hn hnone => ?_, ?_⟩
  · have hlt := (List.getElem?_eq_some_iff.1 hi).1
    obtain ⟨p, hp, hindex, hbytes, hoffset, hsize⟩ := tableEntry_placed hb ha hlt
    obtain ⟨_, q, -, hq, hqi, hdvd⟩ := exists_order_placed hi slices
    obtain rfl := placed_unique hp (List.mem_of_getElem? hq) (hindex.trans hqi.symm)
    rw [hoffset, hsize, hbytes, List.getD_eq_getElem?_getD, hs]
    exact ⟨hdvd, rfl⟩
  · obtain ⟨p, hp, -, hbytes, hoffset, -⟩ := tableEntry_placed hb ha hi
    rw [List.getD_eq_getElem?_getD, hs, Option.getD_some] at hbytes
    rw [hoffset, ← hbytes, hlen]
    exact ⟨hb.stop hp, ha.slice_placed hb hp⟩
  · obtain ⟨p, hp, hpi, -, hpoffset, hpsize⟩ := tableEntry_placed hb ha (List.getElem?_eq_some_iff.1 hi).1
    obtain ⟨q, hq, hqj, -, hqoffset, hqsize⟩ := tableEntry_placed hb ha (List.getElem?_eq_some_iff.1 hj).1
    rw [hpoffset, hpsize, hqoffset, hqsize]
    rcases Nat.lt_or_gt_of_ne (offsets_distinct h hi hj hne) with hlt | hgt
    · exact .inl ⟨hlt, placed_before hb hi hj hlt hp hq hpi hqj⟩
    · exact .inr ⟨hgt, placed_before hb hj hi hgt hq hp hqj hpi⟩
  · have hsame := congrArg (fun l : List UInt8 => l[0]?) (@Behind.slice_front wide file entries slices n 1 hb hn)
    simp only [getElem?_slice, Nat.one_pos, if_true, Nat.add_zero] at hsame
    rw [← ha.bytes, getElem?_overwriteAll_of_disjoint fun field hfield => ?_, hsame]
    obtain ⟨i, hi, hstart, hstop⟩ := tableFields_bounds hfield
    have hout := hnone i hi
    omega
  · have hne : (newPlaces entries slices).map Placed.piece ≠ [] := by
      obtain ⟨p, hp, -⟩ := tableEntry_placed hb ha h.positive
      exact List.ne_nil_of_mem (List.mem_map_of_mem hp)
    refine ⟨endOf (firstOffset (byOffset entries)) ((newPlaces entries slices).map Placed.piece), fun i hi => ?_, ?_, ?_,
      fun n hn hlt hnone => ?_⟩
    · obtain ⟨p, hp, -, -, hoffset, hsize⟩ := tableEntry_placed hb ha hi
      have hstop := stop_le_endOf (hb.laid slices) (List.mem_map_of_mem hp)
      rw [hb.length_take] at hstop
      rw [hoffset, hsize]
      exact hstop
    · obtain ⟨piece, hpiece, hstop⟩ := exists_stop_eq_endOf hne (firstOffset (byOffset entries))
      obtain ⟨p, hp, rfl⟩ := List.mem_map.1 hpiece
      have hindex : p.index < entries.length :=
        List.mem_range.1 ((index_perm entries slices).mem_iff.1 (List.mem_map_of_mem hp))
      obtain ⟨q, hq, hqp, -, hoffset, hsize⟩ := tableEntry_placed hb ha hindex
      obtain rfl := placed_unique hq hp hqp
      exact ⟨q.index, hindex, by rw [hoffset, hsize]; exact hstop⟩
    · rw [← ha.bytes, drop_overwriteAll fun field hfield => (hbehind field hfield).trans hfirst, joined,
        List.drop_left' hend]
    · rw [← ha.bytes, getElem?_overwriteAll_of_disjoint fun field hfield => .inr ((hbehind field hfield).trans hn), joined,
        List.getElem?_append_left (by rw [hend]; exact hlt)]
      refine layOut_zero (hb.laid slices) (by rw [hb.length_take]; exact hn) (by rw [hb.length_take]; exact hlt)
        fun piece hpiece hin => ?_
      obtain ⟨p, hp, rfl⟩ := List.mem_map.1 hpiece
      have hindex : p.index < entries.length :=
        List.mem_range.1 ((index_perm entries slices).mem_iff.1 (List.mem_map_of_mem hp))
      obtain ⟨q, hq, hqp, -, hoffset, hsize⟩ := tableEntry_placed hb ha hindex
      obtain rfl := placed_unique hq hp hqp
      exact hnone q.index hindex (by rw [hoffset, hsize]; exact hin)

/-- Whatever the slices are replaced with. -/
theorem reassembly_loses_nothing (hparse : parseMachOContainer (view file) = .ok ⟨formOf wide, entries⟩)
    (h : assembleUniversal path file ⟨formOf wide, entries⟩ slices = .ok out) :
    Reassembled file wide entries slices out :=
  reassembled (parse_universal.1 hparse) (assembleUniversal_assembles.1 h)

/-- A program without commands, for one architecture. -/
def bareProgram (cputype : Nat) : List UInt8 := beBytes 4 kBytesThin64Little ++ leBytes 12 cputype ++ leBytes 16 0

/-- A table of two programs with different alignment, the second one first in the file, and a byte behind them. -/
def twoPrograms : List UInt8 :=
  beBytes 4 kBytesFat32 ++ beBytes 4 2 ++
    (beBytes 4 7 ++ beBytes 4 3 ++ beBytes 4 80 ++ beBytes 4 32 ++ beBytes 4 4) ++
    (beBytes 4 12 ++ beBytes 4 3 ++ beBytes 4 48 ++ beBytes 4 32 ++ beBytes 4 3) ++
    bareProgram 12 ++ bareProgram 7 ++ [9]

def bareEntry (cputype offset align : Nat) : ContainerEntry where
  cputype
  cpusubtype := 3
  offset
  size := 32
  align
  slice := {
    base := offset
    size := 32
    cputype
    headerEnd := 32
    firstContent := 32 }

theorem twoPrograms_reassembled : ∃ out,
    assembleUniversal "" twoPrograms ⟨formOf false, [bareEntry 7 80 4, bareEntry 12 48 3]⟩ [[1, 2, 3], [4, 5, 6, 7, 8]] =
      .ok out ∧ Reassembled twoPrograms false [bareEntry 7 80 4, bareEntry 12 48 3] [[1, 2, 3], [4, 5, 6, 7, 8]] out ∧
        out.length = 68 := by
  have hlength : (assembleUniversal "" twoPrograms ⟨formOf false, [bareEntry 7 80 4, bareEntry 12 48 3]⟩
      [[1, 2, 3], [4, 5, 6, 7, 8]]).map List.length = .ok 68 := by decide +kernel
  obtain ⟨out, hout⟩ := exists_of_isOk (by decide +kernel : (assembleUniversal "" twoPrograms
    ⟨formOf false, [bareEntry 7 80 4, bareEntry 12 48 3]⟩ [[1, 2, 3], [4, 5, 6, 7, 8]]).isOk = true)
  rw [hout] at hlength
  exact ⟨out, hout, reassembly_loses_nothing rfl hout, Except.ok.inj hlength⟩

end TheSeed.MachOReassembly
