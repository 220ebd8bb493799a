import TheSeed.MachOTable

namespace TheSeed.MachORebuilt

open Bytes Checked BoundedBytes Pieces MachOLayout MachOCommands MachOProgram MachOSigner MachOLinks MachOPlan MachOUniversal
open MachOContainers MachOTable

/-! What the parser takes for a file that was put together from programs. -/

variable {path : String} {wide : Bool} {file out : List UInt8} {entries : List ContainerEntry} {entry : ContainerEntry}
  {container : MachOContainer} {qs : List Program} {q : Program} {i : Nat}

theorem form_cases (container : MachOContainer) :
    container.form = .thin ∨ ∃ wide entries, container = ⟨formOf wide, entries⟩ := by
  obtain ⟨form, entries⟩ := container
  cases form with
  | thin => exact .inl rfl
  | fat32 => exact .inr ⟨false, entries, rfl⟩
  | fat64 => exact .inr ⟨true, entries, rfl⟩

theorem formOf_ne_thin (wide : Bool) : formOf wide ≠ .thin := by cases wide <;> decide

/-- A file is taken for a thin one by its first bytes. -/
theorem thin_of_parse (h : parseMachOContainer (view file) = .ok container) (hform : container.form = .thin) :
    isThin (classifyMachOMagic (view file)) = true := by
  by_contra hthin
  rw [parseMachOContainer, if_neg hthin] at h
  obtain ⟨_, _, h⟩ := bind_eq_ok.1 h
  obtain ⟨_, _, h⟩ := bind_eq_ok.1 h
  obtain ⟨_, _, h⟩ := bind_eq_ok.1 h
  obtain ⟨_, _, h⟩ := bind_eq_ok.1 h
  obtain ⟨_, _, h⟩ := bind_eq_ok.1 h
  obtain ⟨_, _, h⟩ := bind_eq_ok.1 h
  obtain ⟨_, _, h⟩ := bind_eq_ok.1 h
  obtain ⟨_, _, h⟩ := bind_eq_ok.1 h
  have hfound := congrArg MachOContainer.form (Except.ok.inj h)
  rw [hform] at hfound
  simp only at hfound
  split at hfound <;> cases hfound

/-- A file that begins as a universal one is taken for one of that kind or not at all. -/
theorem universal_of_magic (h : parseMachOContainer (view out) = .ok container)
    (hmagic : beValue (slice out 0 4) = if wide then kBytesFat64 else kBytesFat32) :
    ∃ entries, container = ⟨formOf wide, entries⟩ ∧ Universal out wide entries := by
  have hkind : kindOfMagic (beValue (slice out 0 4)) = if wide then .fat64 else .fat32 := by
    rw [hmagic]
    cases wide <;> decide
  rcases form_cases container with hthin | ⟨wide', entries, rfl⟩
  · have hthin := thin_of_parse h hthin
    rw [classifyMachOMagic] at hthin
    split at hthin
    · exact absurd hthin (by decide)
    · rw [show (view out).bytes = out from rfl, hkind] at hthin
      exact absurd hthin (by cases wide <;> decide)
  · have huniversal := parse_universal.1 h
    have hsame : (if wide' then kBytesFat64 else kBytesFat32) = if wide then kBytesFat64 else kBytesFat32 := by
      rw [← huniversal.magic, hmagic]
    have hwide : wide' = wide := by
      revert hsame
      cases wide' <;> cases wide <;> decide
    subst hwide
    exact ⟨entries, rfl, huniversal⟩

/-- The entry of a program at its new place. -/
def newEntry (entry : ContainerEntry) (offset i : Nat) (q : Program) : ContainerEntry :=
  { entry with
    offset := offset
    size := q.size
    slice := q.layout offset ("fat slice " ++ toString i) }

/-- The bytes of the programs. -/
def bytesOfAll (qs : List Program) : List (List UInt8) := qs.map Program.bytes

def newEntries (entries : List ContainerEntry) (qs : List Program) : List ContainerEntry :=
  (entries.zip qs).zipIdx.map fun pair =>
    newEntry pair.1.1 (offsetOf (newPlaces entries (bytesOfAll qs)) pair.2) pair.2 pair.1.2

theorem getElem?_newEntries {e : ContainerEntry} : (newEntries entries qs)[i]? = some e ↔
    ∃ entry q, entries[i]? = some entry ∧ qs[i]? = some q ∧
      newEntry entry (offsetOf (newPlaces entries (bytesOfAll qs)) i) i q = e := by
  rw [newEntries, List.getElem?_map, List.getElem?_zipIdx, Nat.zero_add, Option.map_map]
  constructor
  · intro h
    obtain ⟨⟨entry, q⟩, hpair, rfl⟩ := Option.map_eq_some_iff.1 h
    rw [List.getElem?_zip_eq_some] at hpair
    exact ⟨entry, q, hpair.1, hpair.2, rfl⟩
  · rintro ⟨entry, q, hentry, hq, rfl⟩
    have hpair : (entries.zip qs)[i]? = some (entry, q) := List.getElem?_zip_eq_some.2 ⟨hentry, hq⟩
    rw [hpair]
    rfl

theorem length_newEntries (hlen : qs.length = entries.length) : (newEntries entries qs).length = entries.length := by
  rw [newEntries, List.length_map, List.length_zipIdx, List.length_zip, hlen, Nat.min_self]

theorem getD_bytesOfAll (hq : qs[i]? = some q) : (bytesOfAll qs).getD i [] = q.bytes := by
  rw [bytesOfAll, List.getD_eq_getElem?_getD, List.getElem?_map, hq]
  rfl

theorem least_size (q : Program) : 32 ≤ q.size := by
  have hend : q.headerEnd = 32 + (areaOf q.commands).length := rfl
  have hsize := q.size_eq
  omega

/-- The program that is at a place of the new file. -/
theorem slice_new (hb : Behind file wide entries) (ha : Assembles file wide entries (bytesOfAll qs) out)
    (hi : i < entries.length) (hq : qs[i]? = some q) :
    offsetOf (newPlaces entries (bytesOfAll qs)) i + q.size ≤ out.length ∧
      slice out (offsetOf (newPlaces entries (bytesOfAll qs)) i) q.size = q.bytes ∧
      tableEnd wide entries.length ≤ offsetOf (newPlaces entries (bytesOfAll qs)) i := by
  obtain ⟨p, hp, -, hoffset, hbytes⟩ := exists_placed (bytesOfAll qs) hi
  rw [getD_bytesOfAll hq] at hbytes
  rw [← hoffset, Program.size, ← hbytes, ha.length]
  exact ⟨hb.stop hp, ha.slice_placed hb hp, hb.start hp⟩

/-- Where a program is, a slice may be. -/
theorem thin_of_program {offset : Nat} (hfits : offset + q.size ≤ out.length) (hslice : slice out offset q.size = q.bytes) :
    startsWithThinMagic (view out) offset q.size = true := by
  have hleast := least_size q
  have hkind : classifyMachOMagic ⟨slice out offset q.size, MachOLayout.kFormat, "slice"⟩ = .thin64Little := by
    rw [classifyMachOMagic, hslice, if_neg (by rw [ByteSpan.size, ← Program.size]; omega), q.header_eq (by decide), q.magic]
    rfl
  have hin : rangeFits offset q.size (view out).size = true := rangeFits_iff.2 hfits
  rw [startsWithThinMagic, show (view out).bytes = out from rfl, show (view out).format = MachOLayout.kFormat from rfl, hkind,
    hin, decide_eq_true (by omega : 4 ≤ q.size)]
  rfl

theorem exists_entry_program (hlen : qs.length = entries.length) (hi : i < entries.length) :
    ∃ entry q, entries[i]? = some entry ∧ qs[i]? = some q :=
  ⟨_, _, List.getElem?_eq_getElem hi, List.getElem?_eq_getElem (hlen ▸ hi)⟩

/-- The new entry of a place. -/
theorem newEntry_placed {p : Placed} (hlen : qs.length = entries.length) (hp : p ∈ newPlaces entries (bytesOfAll qs)) :
    ∃ entry q, entries[p.index]? = some entry ∧ qs[p.index]? = some q ∧ p.bytes = q.bytes ∧
      (newEntries entries qs)[p.index]? = some (newEntry entry p.offset p.index q) := by
  have hi : p.index < entries.length :=
    List.mem_range.1 ((index_perm entries (bytesOfAll qs)).mem_iff.1 (List.mem_map_of_mem hp))
  obtain ⟨entry, q, hentry, hq⟩ := exists_entry_program hlen hi
  have hbytes := place_bytes hp
  rw [getD_bytesOfAll hq] at hbytes
  refine ⟨entry, q, hentry, hq, hbytes, getElem?_newEntries.2 ⟨entry, q, hentry, hq, ?_⟩⟩
  rw [offsetOf_placed hp]

/-- The new entries in the order of their places. -/
theorem byOffset_new (hb : Behind file wide entries) (hlen : qs.length = entries.length) :
    byOffset (newEntries entries qs) =
      (newPlaces entries (bytesOfAll qs)).map fun p => ((newEntries entries qs).getD p.index {}, p.index) := by
  have hcount := length_newEntries hlen
  have hat : ∀ {p}, p ∈ newPlaces entries (bytesOfAll qs) → ((newEntries entries qs).getD p.index {}).offset = p.offset ∧
      0 < p.bytes.length := by
    intro p hp
    obtain ⟨entry, q, -, -, hbytes, hnew⟩ := newEntry_placed hlen hp
    rw [List.getD_eq_getElem?_getD, hnew, hbytes]
    exact ⟨rfl, Nat.lt_of_lt_of_le (by decide) (least_size q)⟩
  have hstrict : ((newPlaces entries (bytesOfAll qs)).map fun p =>
      ((newEntries entries qs).getD p.index {}, p.index)).Pairwise fun a b => a.1.offset < b.1.offset := by
    rw [List.pairwise_map]
    refine (List.pairwise_map.1 (hb.laid (bytesOfAll qs)).pairwise).imp_of_mem fun {p q} hp hq hpq => ?_
    obtain ⟨hpoffset, hpositive⟩ := hat hp
    have hstop : p.offset + p.bytes.length ≤ q.offset := hpq
    rw [hpoffset, (hat hq).1]
    omega
  have hperm : ((newPlaces entries (bytesOfAll qs)).map fun p => ((newEntries entries qs).getD p.index {}, p.index)).Perm
      (newEntries entries qs).zipIdx := by
    have hnumbers := (index_perm entries (bytesOfAll qs)).map fun i => ((newEntries entries qs).getD i {}, i)
    rw [List.map_map] at hnumbers
    refine hnumbers.trans (List.Perm.of_eq (List.ext_getElem? fun i => ?_))
    rw [List.getElem?_map, List.getElem?_zipIdx, Nat.zero_add]
    by_cases hi : i < entries.length
    · have hnew : (newEntries entries qs)[i]? = some ((newEntries entries qs).getD i {}) := by
        rw [List.getD_eq_getElem?_getD, List.getElem?_eq_getElem (hcount ▸ hi), Option.getD_some]
      rw [List.getElem?_range hi, hnew]
      rfl
    · rw [List.getElem?_eq_none (by rw [List.length_range]; omega), List.getElem?_eq_none (by omega)]
      rfl
  rw [byOffset_eq]
  exact SortedBy.eq_of_strict (SortedBy.sortBy_strict ((SortedBy.distinct_of_strict hstrict).perm hperm)) hstrict
    ((SortedBy.sortBy_perm _ _).trans hperm.symm)

section Assembled

variable (hu : Universal file wide entries) (ha : Assembles file wide entries (bytesOfAll qs) out)
include hu ha

/-- The magic and the count stay. -/
theorem front_kept : slice out 0 4 = slice file 0 4 ∧ slice out 4 4 = slice file 4 4 := by
  have hb := Universal.behind hu
  have hroom : 8 ≤ tableEnd wide entries.length := Nat.le_add_right _ _
  have hapart : ∀ {j}, j + 4 ≤ 8 → ∀ field ∈ tableFields wide (newPlaces entries (bytesOfAll qs)) (bytesOfAll qs) entries.length,
      j + 4 ≤ field.1 ∨ field.1 + field.2.length ≤ j := fun h field hfield =>
    .inl (h.trans ((by decide : 8 ≤ 16).trans (tableFields_inside hfield).1))
  exact ⟨ha.slice_front hb (by omega) (hapart (by decide)), ha.slice_front hb (by omega) (hapart (by decide))⟩

theorem tableEntry_new {entry : ContainerEntry} (hentry : entries[i]? = some entry) (hq : qs[i]? = some q) :
    tableEntry out wide i = bare (newEntry entry (offsetOf (newPlaces entries (bytesOfAll qs)) i) i q) := by
  have hb := Universal.behind hu
  rw [ha.tableEntry hb (List.getElem?_eq_some_iff.1 hentry).1, hu.table i entry hentry, getD_bytesOfAll hq]
  rfl

theorem room_new (hi : i < entries.length) (hq : qs[i]? = some q) : tableEnd wide entries.length ≤ out.length := by
  obtain ⟨hfits, -, hbehind⟩ := slice_new (Universal.behind hu) ha hi hq
  omega

omit ha in
theorem apart_new (hlen : qs.length = entries.length) : Apart (byOffset (newEntries entries qs)) := by
  have hb := Universal.behind hu
  rw [byOffset_new hb hlen, Apart, List.pairwise_map]
  refine (List.pairwise_map.1 (hb.laid (bytesOfAll qs)).pairwise).imp_of_mem fun {p q} hp hq hpq => ?_
  obtain ⟨entry, x, -, -, hbytes, hnew⟩ := newEntry_placed hlen hp
  obtain ⟨entry', y, -, -, -, hnew'⟩ := newEntry_placed hlen hq
  simp only [List.getD_eq_getElem?_getD, hnew, hnew', Option.getD_some, newEntry]
  have hstop : p.offset + p.bytes.length ≤ q.offset := hpq
  rw [hbytes] at hstop
  exact hstop

/-- The new file is accepted when all of its programs are, and then it has the new entries. -/
theorem parse_assembled (hlen : qs.length = entries.length) {container' : MachOContainer} :
    parseMachOContainer (view out) = .ok container' ↔
      (∀ q ∈ qs, q.Accepted) ∧ container' = ⟨formOf wide, newEntries entries qs⟩ := by
  have hb := Universal.behind hu
  have hcount := length_newEntries hlen
  have hfront := front_kept hu ha
  have hmagic : beValue (slice out 0 4) = if wide then kBytesFat64 else kBytesFat32 := by rw [hfront.1, hu.magic]
  constructor
  · intro h
    obtain ⟨entries', rfl, hu'⟩ := universal_of_magic h hmagic
    have hlen' : entries'.length = entries.length := by rw [← hu'.count, hfront.2, hu.count]
    have hsame : ∀ {i entry q e}, entries[i]? = some entry → qs[i]? = some q → entries'[i]? = some e →
        q.Accepted ∧ newEntry entry (offsetOf (newPlaces entries (bytesOfAll qs)) i) i q = e := by
      intro i entry q e hentry hq he
      obtain ⟨hfits, hslice, -⟩ := slice_new hb ha (List.getElem?_eq_some_iff.1 hentry).1 hq
      have htable := hu'.table i e he
      rw [tableEntry_new hu ha hentry hq] at htable
      have hparse := hu'.slices i e he
      obtain ⟨cpu, sub, offset, size, align, sl⟩ := e
      simp only [bare, newEntry, ContainerEntry.mk.injEq, and_true] at htable
      obtain ⟨rfl, rfl, rfl, rfl, rfl⟩ := htable
      obtain ⟨haccepted, hlayout⟩ := (parse_program hfits hslice).1 hparse
      refine ⟨haccepted, ?_⟩
      rw [newEntry, hlayout]
    constructor
    · intro q hq
      obtain ⟨i, hi⟩ := List.mem_iff_getElem?.1 hq
      have hlt : i < entries.length := hlen ▸ (List.getElem?_eq_some_iff.1 hi).1
      exact (hsame (List.getElem?_eq_getElem hlt) hi (List.getElem?_eq_getElem (hlen' ▸ hlt))).1
    · congr 1
      apply List.ext_getElem?
      intro i
      by_cases hlt : i < entries.length
      · obtain ⟨entry, q, hentry, hq⟩ := exists_entry_program hlen hlt
        have he : entries'[i]? = some entries'[i] := List.getElem?_eq_getElem (hlen' ▸ hlt)
        rw [he, getElem?_newEntries.2 ⟨entry, q, hentry, hq, rfl⟩, (hsame hentry hq he).2]
      · rw [List.getElem?_eq_none (by omega), List.getElem?_eq_none (by omega)]
  · rintro ⟨haccepted, rfl⟩
    rw [parse_universal]
    refine ⟨?_, hmagic, by rw [hfront.2, hu.count, hcount], by rw [hcount]; exact hu.positive,
      by rw [hcount]; exact hu.bounded, fun i e he => ?_, fun i e he => ?_, apart_new hu hlen, fun i e he => ?_⟩
    · obtain ⟨entry, q, hentry, hq⟩ := exists_entry_program hlen hu.positive
      rw [hcount]
      exact room_new hu ha hu.positive hq
    · obtain ⟨entry, q, hentry, hq, rfl⟩ := getElem?_newEntries.1 he
      exact tableEntry_new hu ha hentry hq
    · obtain ⟨entry, q, hentry, hq, rfl⟩ := getElem?_newEntries.1 he
      obtain ⟨hfits, hslice, hbehind⟩ := slice_new hb ha (List.getElem?_eq_some_iff.1 hentry).1 hq
      exact ⟨fun _ => thin_of_program hfits hslice, hfits, by rw [hcount]; exact hbehind⟩
    · obtain ⟨entry, q, hentry, hq, rfl⟩ := getElem?_newEntries.1 he
      obtain ⟨hfits, hslice, -⟩ := slice_new hb ha (List.getElem?_eq_some_iff.1 hentry).1 hq
      exact (parse_program hfits hslice).2 ⟨haccepted q (List.mem_of_getElem? hq), rfl⟩

end Assembled

end TheSeed.MachORebuilt
