import TheSeed.MachOUniversal

namespace TheSeed.MachOContainers

open Bytes Checked BoundedBytes MachOLayout MachOCommands MachOProgram MachOSigner MachOLinks MachOPlan MachOUniversal

/-! What the parser takes for a file with one program or with several. -/

variable {wide : Bool} {file : List UInt8} {entries parsed : List ContainerEntry} {entry : ContainerEntry} {i n : Nat}
  {order : List (ContainerEntry × Nat)} {p : Program} {form : ContainerForm}

/-- A file as the parser sees it. -/
def view (file : List UInt8) : ByteSpan := ⟨file, MachOLayout.kFormat, "the file"⟩

/-- The width of the offsets and lengths of a table. -/
def fieldWidth (wide : Bool) : Nat := if wide then 8 else 4

/-- What the table says with a number. -/
def tableEntry (file : List UInt8) (wide : Bool) (i : Nat) : ContainerEntry where
  cputype := beValue (slice file (kFatHeaderSize + i * fatEntrySize wide) 4)
  cpusubtype := beValue (slice file (kFatHeaderSize + i * fatEntrySize wide + 4) 4)
  offset := beValue (slice file (kFatHeaderSize + i * fatEntrySize wide + 8) (fieldWidth wide))
  size := beValue (slice file (kFatHeaderSize + i * fatEntrySize wide + 8 + fieldWidth wide) (fieldWidth wide))
  align := beValue (slice file (kFatHeaderSize + i * fatEntrySize wide + 8 + 2 * fieldWidth wide) 4)

theorem readFatEntry_eq_ok (h : kFatHeaderSize + (i + 1) * fatEntrySize wide ≤ file.length) :
    readFatEntry (view file) wide (kFatHeaderSize + i * fatEntrySize wide) = .ok entry ↔ tableEntry file wide i = entry := by
  have hread : ∀ {width at_ : Nat} {what : String}, at_ + width ≤ file.length →
      (view file).read width at_ .big what = .ok (beValue (slice file at_ width)) := by
    intro width at_ what hin
    exact ByteSpan.read_eq_ok.2 ⟨hin, rfl⟩
  rw [Nat.add_one_mul] at h
  rw [readFatEntry, tableEntry]
  cases wide with
  | true =>
      simp only [fatEntrySize, if_true, kFatArch64Size, fieldWidth] at h ⊢
      rw [hread (by omega), ok_bind, hread (by omega), ok_bind, hread (by omega), ok_bind, hread (by omega), ok_bind,
        hread (by omega), ok_bind, pure_eq_ok, Except.ok.injEq]
  | false =>
      simp only [fatEntrySize, Bool.false_eq_true, if_false, kFatArch32Size, fieldWidth] at h ⊢
      rw [hread (by omega), ok_bind, hread (by omega), ok_bind, hread (by omega), ok_bind, hread (by omega), ok_bind,
        hread (by omega), ok_bind, pure_eq_ok, Except.ok.injEq]

/-- What the parser asks of an entry before it looks at the program. -/
structure Enters (file : List UInt8) (tableEnd i : Nat) (entry : ContainerEntry) : Prop where
  thin : i = 0 → startsWithThinMagic (view file) entry.offset entry.size = true
  inside : entry.offset + entry.size ≤ file.length
  behind : tableEnd ≤ entry.offset

theorem readFatEntries_eq_ok {tableEnd remaining : Nat}
    (h : kFatHeaderSize + (i + remaining) * fatEntrySize wide ≤ file.length) :
    readFatEntries (view file) wide tableEnd remaining i = .ok entries ↔
      (List.range' i remaining).map (tableEntry file wide) = entries ∧
        ∀ n, i ≤ n → n < i + remaining → Enters file tableEnd n (tableEntry file wide n) := by
  induction remaining generalizing i entries with
  | zero =>
      rw [readFatEntries]
      simp only [List.range'_zero, List.map_nil, pure_eq_ok, Except.ok.injEq]
      exact ⟨fun h => ⟨h, fun n hle hlt => by omega⟩, And.left⟩
  | succ remaining ih =>
      have hstep : kFatHeaderSize + (i + 1) * fatEntrySize wide ≤ file.length :=
        (Nat.add_le_add_left (Nat.mul_le_mul_right _ (by omega)) _).trans h
      have hrest : kFatHeaderSize + (i + 1 + remaining) * fatEntrySize wide ≤ file.length := by
        rw [Nat.add_right_comm, Nat.add_assoc]
        exact h
      have hsub : ∀ {offset size : Nat} {what : String} {view' : ByteSpan},
          (view file).sub offset size what = .ok view' ↔
            offset + size ≤ file.length ∧ (⟨slice file offset size, MachOLayout.kFormat, what⟩ : ByteSpan) = view' :=
        ByteSpan.sub_eq_ok
      rw [readFatEntries]
      simp only [bind_eq_ok, readFatEntry_eq_ok hstep, rejectIf_eq_ok, hsub, ih hrest, pure_eq_ok, Except.ok.injEq,
        List.range'_succ, List.map_cons, exists_const, Nat.not_lt, not_and, Bool.not_eq_false]
      constructor
      · rintro ⟨entry, rfl, hthin, _, ⟨hinside, -⟩, hbehind, rest, ⟨rfl, hall⟩, rfl⟩
        refine ⟨rfl, fun n hle hlt => ?_⟩
        by_cases hn : n = i
        · subst hn
          exact ⟨hthin, hinside, hbehind⟩
        · exact hall n (by omega) (by omega)
      · rintro ⟨rfl, hall⟩
        have hfirst := hall i (Nat.le_refl _) (by omega)
        exact ⟨_, rfl, hfirst.thin, _, ⟨hfirst.inside, rfl⟩, hfirst.behind, _, ⟨rfl, fun n hle hlt =>
          hall n (by omega) (by omega)⟩, rfl⟩

/-! No two slices share bytes -/

def Apart (order : List (ContainerEntry × Nat)) : Prop := order.Pairwise fun a b => a.1.offset + a.1.size ≤ b.1.offset

theorem checkOverlap_eq_ok {u : Unit} : checkOverlap order = .ok u ↔ Apart order := by
  induction order with
  | nil => exact iff_of_true rfl .nil
  | cons a order ih =>
      cases order with
      | nil => exact iff_of_true rfl (List.pairwise_singleton _ _)
      | cons b order =>
          rw [checkOverlap]
          simp only [bind_eq_ok, rejectIf_eq_ok, exists_const, Nat.not_lt, ih]
          constructor
          · rintro ⟨hab, hrest⟩
            refine .cons (fun c hc => ?_) hrest
            rcases List.mem_cons.1 hc with rfl | hc
            · exact hab
            · have hbc := (List.pairwise_cons.1 hrest).1 c hc
              omega
          · intro h
            obtain ⟨hfirst, hrest⟩ := List.pairwise_cons.1 h
            exact ⟨hfirst b List.mem_cons_self, hrest⟩

/-- The entry before its program is read. -/
def bare (entry : ContainerEntry) : ContainerEntry := { entry with slice := {} }

theorem byOffset_eq (entries : List ContainerEntry) :
    byOffset entries = SortedBy.sortBy (fun a : ContainerEntry × Nat => a.1.offset) entries.zipIdx :=
  SortedBy.insertionSort_eq_sortBy _ (fun _ _ => Iff.rfl) _

theorem byOffset_bare (entries : List ContainerEntry) :
    byOffset (entries.map bare) = (byOffset entries).map (Prod.map bare id) := by
  rw [byOffset_eq, byOffset_eq, List.zipIdx_map, SortedBy.sortBy_map]
  rfl

theorem apart_bare : Apart (byOffset (entries.map bare)) ↔ Apart (byOffset entries) := by
  rw [byOffset_bare, Apart, List.pairwise_map]
  rfl

/-! The programs -/

theorem parseSlices_eq_ok : parseSlices (view file) i entries = .ok parsed ↔
    parsed.map bare = entries.map bare ∧ ∀ k entry, parsed[k]? = some entry →
      parseMachOSlice (view file) entry.offset entry.size ("fat slice " ++ toString (i + k)) = .ok entry.slice := by
  induction entries generalizing i parsed with
  | nil =>
      rw [parseSlices, pure_eq_ok, Except.ok.injEq]
      constructor
      · rintro rfl
        exact ⟨rfl, fun k entry h => by cases h⟩
      · rintro ⟨h, -⟩
        exact (List.map_eq_nil_iff.1 h).symm
  | cons entry entries ih =>
      rw [parseSlices]
      simp only [bind_eq_ok, ih, pure_eq_ok, Except.ok.injEq]
      constructor
      · rintro ⟨sliced, hslice, rest, ⟨hbare, hrest⟩, rfl⟩
        refine ⟨by rw [List.map_cons, List.map_cons, hbare]; rfl, fun k other hk => ?_⟩
        cases k with
        | zero =>
            cases hk
            exact hslice
        | succ k =>
            have hother := hrest k other hk
            rwa [Nat.add_right_comm] at hother
      · rintro ⟨hbare, hall⟩
        cases parsed with
        | nil => cases hbare
        | cons first rest =>
            rw [List.map_cons, List.map_cons] at hbare
            obtain ⟨hfirst, hrest⟩ := List.cons.inj hbare
            have hslice := hall 0 first rfl
            have hsame : { entry with slice := first.slice } = first := by
              obtain ⟨cpu, sub, offset, size, align, sl⟩ := first
              obtain ⟨cpu', sub', offset', size', align', sl'⟩ := entry
              simp only [bare, ContainerEntry.mk.injEq, and_true] at hfirst
              obtain ⟨rfl, rfl, rfl, rfl, rfl⟩ := hfirst
              rfl
            refine ⟨first.slice, ?_, rest, ⟨hrest, fun k other hk => ?_⟩, by rw [hsame]⟩
            · rw [← hsame, Nat.add_zero] at hslice
              exact hslice
            · have hother := hall (k + 1) other hk
              rwa [Nat.add_right_comm]

/-! Whole files -/

def formOf (wide : Bool) : ContainerForm := if wide then .fat64 else .fat32

def tableEnd (wide : Bool) (n : Nat) : Nat := kFatHeaderSize + n * fatEntrySize wide

/-- A universal file with these entries. -/
structure Universal (file : List UInt8) (wide : Bool) (entries : List ContainerEntry) : Prop where
  room : tableEnd wide entries.length ≤ file.length
  magic : beValue (slice file 0 4) = if wide then kBytesFat64 else kBytesFat32
  count : beValue (slice file 4 4) = entries.length
  positive : 0 < entries.length
  bounded : entries.length ≤ kMaxFatArchCount
  table : ∀ (i : Nat) (entry : ContainerEntry), entries[i]? = some entry → tableEntry file wide i = bare entry
  enters : ∀ (i : Nat) (entry : ContainerEntry), entries[i]? = some entry → Enters file (tableEnd wide entries.length) i entry
  apart : Apart (byOffset entries)
  slices : ∀ (i : Nat) (entry : ContainerEntry), entries[i]? = some entry →
    parseMachOSlice (view file) entry.offset entry.size ("fat slice " ++ toString i) = .ok entry.slice

theorem magic_of_kind {magic : Nat} : (kindOfMagic magic = .fat64 ↔ magic = kBytesFat64) ∧
    (kindOfMagic magic = .fat32 ↔ magic = kBytesFat32) := by
  unfold kindOfMagic
  constructor <;> split_ifs with h <;> simp_all <;> decide

/-- The entries that the table of a file has. -/
theorem bare_eq_table {tableLength : Nat} (hlen : entries.length = tableLength) :
    (List.range' 0 tableLength).map (tableEntry file wide) = entries.map bare ↔
      ∀ i entry, entries[i]? = some entry → tableEntry file wide i = bare entry := by
  constructor
  · intro h i entry hi
    have hat := congrArg (fun l => l[i]?) h
    have hlt : i < tableLength := hlen ▸ (List.getElem?_eq_some_iff.1 hi).1
    simp only [List.getElem?_map, hi, Option.map_some, List.getElem?_range' hlt] at hat
    simpa using hat
  · intro h
    apply List.ext_getElem?
    intro i
    simp only [List.getElem?_map]
    by_cases hlt : i < tableLength
    · obtain ⟨entry, hi⟩ : ∃ entry, entries[i]? = some entry := ⟨_, List.getElem?_eq_getElem (hlen ▸ hlt)⟩
      rw [hi, List.getElem?_range' hlt]
      simpa using h i entry hi
    · rw [List.getElem?_eq_none (by simpa using hlt), List.getElem?_eq_none (by omega)]
      rfl

/-- What the parser takes for a universal file. -/
theorem parse_universal :
    parseMachOContainer (view file) = .ok ⟨formOf wide, entries⟩ ↔ Universal file wide entries := by
  have hclass : 4 ≤ file.length → classifyMachOMagic (view file) = kindOfMagic (beValue (slice file 0 4)) := by
    intro hlong
    exact if_neg (by simp only [ByteSpan.size, view]; omega)
  have hread : 8 ≤ file.length → (view file).read 4 4 .big "fat_arch count" = .ok (beValue (slice file 4 4)) := by
    intro hlong
    exact ByteSpan.read_eq_ok.2 ⟨hlong, rfl⟩
  have hsize : (view file).size = file.length := rfl
  have hfixed : kFatHeaderSize = 8 := rfl
  constructor
  · intro h
    rw [parseMachOContainer] at h
    by_cases hthin : isThin (classifyMachOMagic (view file)) = true
    · rw [if_pos hthin] at h
      obtain ⟨sliced, -, h⟩ := bind_eq_ok.1 h
      have hform := congrArg MachOContainer.form (Except.ok.inj h)
      cases wide <;> cases hform
    · rw [if_neg hthin] at h
      obtain ⟨⟨⟩, hfat, h⟩ := bind_eq_ok.1 h
      obtain ⟨⟨⟩, hheader, h⟩ := bind_eq_ok.1 h
      rw [rejectIf_eq_ok] at hfat hheader
      rw [hsize, hfixed, Nat.not_lt] at hheader
      rw [hclass (by omega)] at hfat h
      rw [hread hheader, ok_bind] at h
      obtain ⟨⟨⟩, hcount, h⟩ := bind_eq_ok.1 h
      obtain ⟨⟨⟩, hroom, h⟩ := bind_eq_ok.1 h
      obtain ⟨bares, hentries, h⟩ := bind_eq_ok.1 h
      obtain ⟨⟨⟩, hoverlap, h⟩ := bind_eq_ok.1 h
      obtain ⟨parsed, hslices, h⟩ := bind_eq_ok.1 h
      obtain ⟨hform, rfl⟩ := MachOContainer.mk.inj (Except.ok.inj h)
      rw [rejectIf_eq_ok, not_or, Nat.not_lt] at hcount
      rw [rejectIf_eq_ok, hsize, Nat.not_lt] at hroom
      have hwide : decide (kindOfMagic (beValue (slice file 0 4)) = .fat64) = wide := by
        cases wide <;> by_cases hkind : kindOfMagic (beValue (slice file 0 4)) = .fat64 <;> simp_all [formOf]
      rw [hwide] at hroom hentries
      obtain ⟨rfl, henters⟩ := (readFatEntries_eq_ok (by rw [Nat.zero_add]; exact hroom)).1 hentries
      obtain ⟨hbare, hparsed⟩ := parseSlices_eq_ok.1 hslices
      have hbares : ∀ e : ContainerEntry, ∀ n, bare (tableEntry file wide n) = tableEntry file wide n := fun _ _ => rfl
      have htable : (List.range' 0 (beValue (slice file 4 4))).map (tableEntry file wide) = parsed.map bare := by
        rw [hbare, List.map_map]
        rfl
      have hlen : parsed.length = beValue (slice file 4 4) := by
        have hlength := congrArg List.length htable
        simpa using hlength.symm
      have hat := (bare_eq_table hlen).1 htable
      refine ⟨by rw [hlen]; exact hroom, ?_, hlen.symm, by omega, by rw [hlen]; exact hcount.2, hat, fun i entry hi => ?_, ?_,
        fun i entry hi => ?_⟩
      · cases wide with
        | true => exact magic_of_kind.1.1 (of_decide_eq_true hwide)
        | false =>
            have hnot := of_decide_eq_false hwide
            exact magic_of_kind.2.1 (by tauto)
      · have hlt : i < beValue (slice file 4 4) := hlen ▸ (List.getElem?_eq_some_iff.1 hi).1
        have henter := henters i (Nat.zero_le _) (by omega)
        rw [hat i entry hi] at henter
        rw [hlen]
        exact ⟨henter.thin, henter.inside, henter.behind⟩
      · have happart := checkOverlap_eq_ok.1 hoverlap
        rw [htable] at happart
        exact apart_bare.1 happart
      · have hslice := hparsed i entry hi
        rwa [Nat.zero_add] at hslice
  · intro h
    have hroom := h.room
    have hpositive := h.positive
    rw [tableEnd] at hroom
    have hheader : 8 ≤ file.length := (Nat.le_add_right _ _).trans hroom
    have hkind : kindOfMagic (beValue (slice file 0 4)) = if wide then .fat64 else .fat32 := by
      rw [h.magic]
      cases wide <;> decide
    have hwide : decide (kindOfMagic (beValue (slice file 0 4)) = .fat64) = wide := by
      rw [hkind]
      cases wide <;> rfl
    have htable := (bare_eq_table rfl).2 h.table
    have hread' : readFatEntries (view file) wide (tableEnd wide entries.length) entries.length 0 =
        .ok (entries.map bare) := by
      refine (readFatEntries_eq_ok (by rw [Nat.zero_add]; exact hroom)).2 ⟨htable, fun n _ hlt => ?_⟩
      rw [Nat.zero_add] at hlt
      have hn := List.getElem?_eq_getElem hlt
      rw [h.table n _ hn]
      have henter := h.enters n _ hn
      exact ⟨henter.thin, henter.inside, henter.behind⟩
    have hslices : parseSlices (view file) 0 (entries.map bare) = .ok entries := by
      refine parseSlices_eq_ok.2 ⟨by rw [List.map_map]; rfl, fun k entry hk => ?_⟩
      rw [Nat.zero_add]
      exact h.slices k entry hk
    have happart : checkOverlap (byOffset (entries.map bare)) = .ok () := checkOverlap_eq_ok.2 (apart_bare.2 h.apart)
    rw [parseMachOContainer, hclass (by omega), hkind, if_neg (by cases wide <;> decide),
      rejectIf_of_not (by cases wide <;> decide), ok_bind, rejectIf_of_not (by rw [hsize, hfixed]; omega), ok_bind,
      hread hheader, ok_bind, h.count, rejectIf_of_not (not_or.2 ⟨by omega, Nat.not_lt.2 h.bounded⟩), ok_bind]
    have hwide' : decide ((if wide = true then MachOKind.fat64 else .fat32) = .fat64) = wide := by cases wide <;> rfl
    simp only [hwide']
    rw [rejectIf_of_not (by rw [hsize]; exact Nat.not_lt.2 hroom), ok_bind]
    rw [tableEnd] at hread'
    rw [hread', ok_bind, happart, ok_bind, hslices, ok_bind]
    rfl

/-- What begins as a program of the kind that is interpreted is taken as one. -/
theorem supported_of_magic {span : ByteSpan} {base size : Nat} {scope : String} {layout : SliceLayout}
    (h : parseMachOSlice span base size scope = .ok layout)
    (hmagic : beValue (slice (slice span.bytes base size) 0 4) = kBytesThin64Little) : layout.support = .supported := by
  obtain ⟨seen, hseen, h⟩ := bind_eq_ok.1 h
  obtain ⟨hfits, hbytes⟩ := sliceView_eq_ok hseen
  obtain ⟨⟨⟩, -, h⟩ := bind_eq_ok.1 h
  obtain ⟨_, hleast, h⟩ := bind_eq_ok.1 h
  obtain ⟨cputype, hcputype, h⟩ := bind_eq_ok.1 h
  obtain ⟨cpusubtype, hcpusubtype, h⟩ := bind_eq_ok.1 h
  have hleast := (ByteSpan.sub_eq_ok.1 hleast).1
  have hsize : seen.bytes.length = size := by rw [hbytes, length_slice_of_le hfits]
  rw [← hbytes] at hmagic
  have hclass : classifyMachOMagic seen = .thin64Little := by
    rw [classifyMachOMagic, if_neg (by rw [ByteSpan.size]; omega), hmagic]
    rfl
  rw [hclass] at hcputype hcpusubtype h
  obtain ⟨-, rfl⟩ := ByteSpan.read_eq_ok.1 hcputype
  obtain ⟨-, rfl⟩ := ByteSpan.read_eq_ok.1 hcpusubtype
  have hparse : parseSupported seen (beginning seen base) scope = .ok layout := by
    rw [← h, beginning, hsize]
    rfl
  obtain ⟨p, hp⟩ := program_of_parseSupported hmagic hparse
  obtain ⟨-, rfl⟩ := (parseSupported_program hp).1 hparse
  exact layout_support

/-- The bytes of a program are taken as that program, or not at all. -/
theorem parse_program {span : ByteSpan} {base size : Nat} {scope : String} {layout : SliceLayout}
    (hfits : base + size ≤ span.bytes.length) (hp : slice span.bytes base size = p.bytes) :
    parseMachOSlice span base size scope = .ok layout ↔ p.Accepted ∧ p.layout base scope = layout := by
  constructor
  · intro h
    have hmagic : beValue (slice (slice span.bytes base size) 0 4) = kBytesThin64Little := by
      rw [hp, p.header_eq (by decide), p.magic]
    obtain ⟨-, q, hq, haccepted, rfl⟩ := parseMachOSlice_eq_ok.1 ⟨h, supported_of_magic h hmagic⟩
    obtain rfl := program_injective (hp.symm.trans hq)
    exact ⟨haccepted, rfl⟩
  · rintro ⟨haccepted, rfl⟩
    exact (parseMachOSlice_eq_ok.2 ⟨hfits, p, hp, haccepted, rfl⟩).1

/-- A file with one program. -/
theorem parse_thin (hp : file = p.bytes) : ∀ {container : MachOContainer},
    parseMachOContainer (view file) = .ok container ↔ p.Accepted ∧
      container = ⟨.thin, [{
        cputype := leValue (slice p.header 4 4)
        cpusubtype := leValue (slice p.header 8 4)
        size := p.size
        slice := p.layout 0 "the file" }]⟩ := by
  intro container
  have hlong : 32 ≤ file.length := by
    have hsize := p.size_eq
    have hend : p.headerEnd = 32 + (areaOf p.commands).length := rfl
    rw [hp, ← Program.size]
    omega
  have hkind : classifyMachOMagic (view file) = .thin64Little := by
    rw [classifyMachOMagic, if_neg (by simp only [ByteSpan.size, view]; omega)]
    simp only [view]
    rw [hp, p.header_eq (by decide), p.magic]
    decide
  have hall : slice file 0 file.length = p.bytes := by rw [slice_all, hp]
  have hsize : (view file).size = p.size := by rw [Program.size, ← hp]; rfl
  rw [parseMachOContainer, hkind, if_pos (by decide), hsize]
  have hslice : ∀ {layout : SliceLayout}, parseMachOSlice (view file) 0 p.size "the file" = .ok layout ↔
      p.Accepted ∧ p.layout 0 "the file" = layout := by
    intro layout
    have hwhole : slice (view file).bytes 0 p.size = p.bytes := by
      rw [← hsize]
      exact hall
    exact parse_program (by rw [Nat.zero_add, ← hsize]; exact Nat.le_refl _) hwhole
  simp only [bind_eq_ok, hslice, pure_eq_ok, Except.ok.injEq]
  constructor
  · rintro ⟨layout, ⟨haccepted, rfl⟩, rfl⟩
    exact ⟨haccepted, by rw [layout_cputype, layout_cpusubtype]⟩
  · rintro ⟨haccepted, rfl⟩
    exact ⟨_, ⟨haccepted, rfl⟩, by rw [layout_cputype, layout_cpusubtype]⟩

end TheSeed.MachOContainers
