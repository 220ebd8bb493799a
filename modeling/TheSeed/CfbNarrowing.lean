import Mathlib.Algebra.BigOperators.Group.List.Basic
import TheSeed.CfbAllocation

namespace TheSeed.CfbNarrowing

open Bytes Checked BoundedBytes CfbReader CfbWriter CfbHeader CfbResolve CfbAllocation

/-! What the layout counts in 64 bits and the package stores in 32. The bytes of the entries are in memory,
so that no count reaches the end of 64 bits. -/

variable {chosen : Entry → Bool} {place : Nat → Entry → Entry} {unit next i : Nat} {m : PackageModel}
  {entries placed : List Entry} {entry root : Entry} {header : CfbHeader} {layout : Layout}

/-- The units of the chosen entries among the first `i`. -/
def unitsBefore (chosen : Entry → Bool) (unit : Nat) (entries : List Entry) (i : Nat) : Nat :=
  (((entries.take i).filter chosen).map fun entry => unitsFor entry.size unit).sum

theorem unitsBefore_zero : unitsBefore chosen unit entries 0 = 0 := rfl

theorem unitsBefore_cons_succ : unitsBefore chosen unit (entry :: entries) (i + 1) =
    (if chosen entry then unitsFor entry.size unit else 0) + unitsBefore chosen unit entries i := by
  rw [unitsBefore, List.take_succ_cons, List.filter_cons]
  by_cases h : chosen entry = true
  · rw [if_pos h, if_pos h, List.map_cons, List.sum_cons, unitsBefore]
  · rw [if_neg h, if_neg h, Nat.zero_add, unitsBefore]

theorem unitsBefore_le (i : Nat) : unitsBefore chosen unit entries i ≤ unitsBefore chosen unit entries entries.length := by
  induction entries generalizing i with
  | nil => simp [unitsBefore]
  | cons entry entries ih =>
      cases i with
      | zero => exact Nat.zero_le _
      | succ i =>
          rw [List.length_cons, unitsBefore_cons_succ, unitsBefore_cons_succ]
          exact Nat.add_le_add_left (ih i) _

/-- The count after the last entry. -/
theorem placeEntries_next : (placeEntries chosen place unit next entries).2 =
    next + unitsBefore chosen unit entries entries.length := by
  induction entries generalizing next with
  | nil => rfl
  | cons entry entries ih =>
      rw [placeEntries, List.length_cons, unitsBefore_cons_succ]
      split
      · rw [ih, Nat.add_assoc]
      · rw [ih, Nat.zero_add]

/-- Each chosen entry gets the count before it. -/
theorem placeEntries_get (i : Nat) : (placeEntries chosen place unit next entries).1[i]? = entries[i]?.map fun entry =>
    if chosen entry then place (next + unitsBefore chosen unit entries i) entry else entry := by
  induction entries generalizing next i with
  | nil => rfl
  | cons entry entries ih =>
      cases i with
      | zero =>
          rw [placeEntries]
          split
          case isTrue h => simp [h, unitsBefore]
          case isFalse h => simp [h]
      | succ i =>
          rw [placeEntries, unitsBefore_cons_succ]
          split
          · simp only [List.getElem?_cons_succ, ih, Nat.add_assoc]
          · simp only [List.getElem?_cons_succ, ih, Nat.zero_add]

/-! The two counts of a layout -/

def ordinaryBefore (header : CfbHeader) : List Entry → Nat → Nat :=
  unitsBefore (Entry.isOrdinary header) header.sectorSize

def miniBefore (header : CfbHeader) : List Entry → Nat → Nat := unitsBefore (Entry.isMini header) kMiniSectorSize

theorem isMini_of_ordinary (h : entry.isOrdinary header = true) : entry.isMini header = false := by
  simp only [Entry.isOrdinary, Entry.isMini, Bool.not_eq_true', Bool.or_eq_false_iff, decide_eq_false_iff_not] at h ⊢
  simp [Nat.not_lt.1 h.2]

theorem not_ordinary_of_mini (h : entry.isMini header = true) : entry.isOrdinary header = false := by
  by_contra hne
  rw [Bool.not_eq_false] at hne
  rw [isMini_of_ordinary hne] at h
  cases h

/-- A count sees the same entries after another count has placed some of them. -/
theorem unitsBefore_placed {counted : Entry → Bool} {other : Nat}
    (hkeep : ∀ n entry, counted (place n entry) = counted entry ∧ (place n entry).size = entry.size) (i : Nat) :
    unitsBefore counted other (placeEntries chosen place unit next entries).1 i = unitsBefore counted other entries i := by
  induction entries generalizing next i with
  | nil => rfl
  | cons entry entries ih =>
      cases i with
      | zero => rfl
      | succ i =>
          rw [placeEntries]
          split
          · rw [unitsBefore_cons_succ, unitsBefore_cons_succ, ih, (hkeep _ _).1, (hkeep _ _).2]
          · rw [unitsBefore_cons_succ, unitsBefore_cons_succ, ih]

theorem length_placeEntries : (placeEntries chosen place unit next entries).1.length = entries.length := by
  induction entries generalizing next with
  | nil => rfl
  | cons entry entries ih =>
      rw [placeEntries]
      split <;> rw [List.length_cons, List.length_cons, ih]

/-- The entry after the layout. -/
def placedAt (header : CfbHeader) (entries : List Entry) (i : Nat) (entry : Entry) : Entry :=
  if entry.isOrdinary header then { entry with start := ordinaryBefore header entries i % 2 ^ 32 }
  else if entry.isMini header then { entry with inMiniStream := true, start := miniBefore header entries i % 2 ^ 32 }
  else entry

theorem miniBefore_placed (i : Nat) :
    miniBefore header (placeOrdinary header entries).1 i = miniBefore header entries i := by
  rw [miniBefore, placeOrdinary, unitsBefore_placed]
  exact fun _ _ => ⟨rfl, rfl⟩

theorem placed_get (i : Nat) :
    (placeMini header (placeOrdinary header entries).1).1[i]? = entries[i]?.map (placedAt header entries i) := by
  have hmini : unitsBefore (Entry.isMini header) kMiniSectorSize (placeOrdinary header entries).1 i =
      miniBefore header entries i := miniBefore_placed i
  rw [placeMini, placeEntries_get, hmini, placeOrdinary, placeEntries_get, Option.map_map]
  congr 1
  funext entry
  simp only [Function.comp_apply, Nat.zero_add, placedAt]
  by_cases h : entry.isOrdinary header = true
  · have hsame : ({ entry with start := ordinaryBefore header entries i % 2 ^ 32 } : Entry).isMini header =
        entry.isMini header := rfl
    rw [if_pos h, if_pos h, ← ordinaryBefore, hsame, isMini_of_ordinary h]
    rfl
  · rw [if_neg h, if_neg h]

theorem computeLayout_eq_ok : computeLayout header entries = .ok (layout, placed) ↔
    (layOut header (ordinaryBefore header entries entries.length) (miniBefore header entries entries.length)
      entries.length).totalSectors ≤ kCfbMaxSectors ∧
    layOut header (ordinaryBefore header entries entries.length) (miniBefore header entries entries.length)
      entries.length = layout ∧
    (placeMini header (placeOrdinary header entries).1).1 = placed := by
  have hordinary : (placeOrdinary header entries).2 = ordinaryBefore header entries entries.length := by
    rw [placeOrdinary, placeEntries_next, Nat.zero_add, ordinaryBefore]
  have hmini : (placeMini header (placeOrdinary header entries).1).2 = miniBefore header entries entries.length := by
    have hlength : (placeOrdinary header entries).1.length = entries.length := length_placeEntries
    rw [placeMini, placeEntries_next, Nat.zero_add, hlength]
    exact miniBefore_placed _
  simp only [computeLayout, bind_eq_ok, pure_eq_ok, Except.ok.injEq, Prod.mk.injEq, rejectIf_eq_ok, hordinary, hmini,
    not_lt, exists_const]

/-! What is stored -/

/-- Each version has one sector size. -/
structure Versioned (header : CfbHeader) : Prop where
  version : (header.majorVersion = 3 ∧ header.sectorSize = 512) ∨ (header.majorVersion = 4 ∧ header.sectorSize = 4096)
  cutoff : header.miniStreamCutoff = kMiniStreamCutoff

theorem Versioned.sector (h : Versioned header) : header.sectorSize = 512 ∨ header.sectorSize = 4096 :=
  h.version.imp And.right And.right

/-- The entry at a position has a start, in memory and in its slot, that is a count of the layout. -/
def StartsAt (placed : List Entry) (layout : Layout) (i count : Nat) : Prop :=
  ∃ stored, placed[i]? = some stored ∧ stored.start = count ∧
    leValue (slice (writeDirectoryEntry stored false layout) 116 4) = count

/-- A number of the layout as the header has it. -/
def HeaderHas (m : PackageModel) (layout : Layout) (offset value : Nat) : Prop :=
  leValue (slice (headerBytes m layout) offset 4) = value

/-- The bytes of a size that a reader of the version takes. -/
def sizeWidth (header : CfbHeader) : Nat := if header.majorVersion = 4 then 8 else 4

/-- The stored numbers are those of the layout. -/
structure NothingNarrowed (m : PackageModel) (entries placed : List Entry) (layout : Layout) : Prop where
  ordinary : ∀ (i : Nat) (entry : Entry), entries[i]? = some entry → entry.isOrdinary m.header = true →
    StartsAt placed layout i (ordinaryBefore m.header entries i)
  small : ∀ (i : Nat) (entry : Entry), entries[i]? = some entry → entry.isMini m.header = true →
    StartsAt placed layout i (miniBefore m.header entries i)
  directorySectors : m.header.majorVersion = 4 → HeaderHas m layout 40 layout.directorySectors
  fatSectors : HeaderHas m layout 44 layout.fatSectors
  directoryStart : HeaderHas m layout 48 layout.directoryStart
  miniIndexStart : layout.miniIndexSectors ≠ 0 → HeaderHas m layout 60 layout.miniIndexStart
  miniIndexSectors : HeaderHas m layout 64 layout.miniIndexSectors
  difatStart : layout.difatSectors ≠ 0 → HeaderHas m layout 68 layout.difatStart
  difatSectors : HeaderHas m layout 72 layout.difatSectors
  fatListed : ∀ i < layout.fatSectors, i < kHeaderDifatEntries → HeaderHas m layout (76 + 4 * i) (layout.fatStart + i)
  rootStart : ∀ root, layout.miniSectors ≠ 0 →
    leValue (slice (writeDirectoryEntry root true layout) 116 4) = layout.miniStreamStart
  rootSize : ∀ root, leValue (slice (writeDirectoryEntry root true layout) 120 (sizeWidth m.header)) =
    layout.miniSectors * kMiniSectorSize

/-- The mini stream is short enough for the size of the root, and every small stream for its start. -/
def SmallEnough (header : CfbHeader) (entries : List Entry) : Prop :=
  (header.majorVersion = 3 → miniBefore header entries entries.length * kMiniSectorSize < 2 ^ 32) ∧
    ∀ (i : Nat) (entry : Entry), entries[i]? = some entry → entry.isMini header = true →
      miniBefore header entries i < 2 ^ 32

/-! The slot of an entry -/

theorem slot_start (hstream : entry.node.isStorage = false) :
    slice (writeDirectoryEntry entry false layout) 116 4 = leBytes 4 entry.start := by
  simp only [writeDirectoryEntry, hstream, Bool.false_eq_true, if_false]
  rw [slice_overwrite_of_disjoint (.inl (by simp)), slice_overwrite_leBytes]
  simp [kDirEntrySize]

theorem slot_rootStart (hmini : layout.miniSectors ≠ 0) :
    slice (writeDirectoryEntry root true layout) 116 4 = leBytes 4 layout.miniStreamStart := by
  simp only [writeDirectoryEntry, if_true, if_neg hmini]
  rw [slice_overwrite_of_disjoint (.inl (by simp)), slice_overwrite_leBytes]
  simp [kDirEntrySize]

theorem slot_rootSize : slice (writeDirectoryEntry root true layout) 120 8 =
    leBytes 8 (layout.miniSectors * kMiniSectorSize) := by
  simp only [writeDirectoryEntry, if_true]
  rw [slice_overwrite_leBytes]
  simp [kDirEntrySize]

theorem rootSize_value (hversion : Versioned header) :
    leValue (slice (writeDirectoryEntry root true layout) 120 (sizeWidth header)) =
      layout.miniSectors * kMiniSectorSize % 256 ^ sizeWidth header := by
  obtain ⟨hmajor, -⟩ | ⟨hmajor, -⟩ := hversion.version
  · have hwidth : sizeWidth header = 4 := by rw [sizeWidth, if_neg (by omega)]
    have hpart : slice (writeDirectoryEntry root true layout) (120 + 0) 4 =
        slice (leBytes 8 (layout.miniSectors * kMiniSectorSize)) 0 4 := by
      rw [← slot_rootSize, slice_slice (by decide)]
    rw [hwidth, hpart, slice, List.drop_zero, take_leBytes (by decide), leValue_leBytes]
  · have hwidth : sizeWidth header = 8 := by rw [sizeWidth, if_pos hmajor]
    rw [hwidth, slot_rootSize, leValue_leBytes]

/-! The check of the sectors bounds every region -/

/-- Every number of the layout but that of the mini sectors. -/
def regions (layout : Layout) : List Nat :=
  [layout.streamSectors, layout.miniStreamStart, layout.miniStreamSectors, layout.miniIndexStart,
    layout.miniIndexSectors, layout.directoryStart, layout.directorySectors, layout.difatStart, layout.difatSectors,
    layout.fatStart, layout.fatSectors]

theorem regions_le (header : CfbHeader) (streamSectors miniSectors entryCount : Nat) :
    ∀ n ∈ regions (layOut header streamSectors miniSectors entryCount),
      n ≤ (layOut header streamSectors miniSectors entryCount).totalSectors := by
  simp only [regions, layOut, List.forall_mem_cons, List.not_mem_nil, false_imp_iff, implies_true, and_true]
  omega

theorem region_lt (h : computeLayout header entries = .ok (layout, placed)) {n : Nat} (hn : n ∈ regions layout) :
    n < 256 ^ 4 := by
  obtain ⟨hfew, rfl, -⟩ := computeLayout_eq_ok.1 h
  exact ((regions_le _ _ _ _ n hn).trans hfew).trans_lt (by decide)

theorem headerHas_of_field {offset value : Nat} (hfield : (offset, leBytes 4 value) ∈ headerFields m layout)
    (hvalue : value < 256 ^ 4) : HeaderHas m layout offset value := by
  have hslice := slice_headerBytes hfield
  rw [length_leBytes] at hslice
  rw [HeaderHas, hslice, leValue_leBytes_of_lt hvalue]

/-- The mini stream fits in the sectors, so that its length is far from the end of 64 bits. -/
theorem miniStream_lt (hversion : Versioned header) (h : computeLayout header entries = .ok (layout, placed)) :
    layout.miniSectors * kMiniSectorSize < 256 ^ 8 := by
  have hsectors : layout.miniStreamSectors < 256 ^ 4 := region_lt h (by simp [regions])
  obtain ⟨-, rfl, -⟩ := computeLayout_eq_ok.1 h
  have hsize : header.sectorSize ≤ 4096 := by
    obtain hs | hs := hversion.sector <;> omega
  have hpos : 0 < header.sectorSize := by
    obtain hs | hs := hversion.sector <;> omega
  calc _ ≤ unitsFor (miniBefore header entries entries.length * kMiniSectorSize) header.sectorSize * header.sectorSize :=
        unitsFor_covers hpos
    _ ≤ 256 ^ 4 * 4096 := Nat.mul_le_mul (Nat.le_of_lt hsectors) hsize
    _ < 256 ^ 8 := by decide

theorem stored_get (h : computeLayout header entries = .ok (layout, placed)) (hi : entries[i]? = some entry) :
    placed[i]? = some (placedAt header entries i entry) := by
  obtain ⟨-, -, rfl⟩ := computeLayout_eq_ok.1 h
  rw [placed_get, hi, Option.map_some]

theorem startsAt_of_lt (h : computeLayout header entries = .ok (layout, placed)) (hi : entries[i]? = some entry)
    (hstream : entry.node.isStorage = false) {count : Nat} (hcount : count < 2 ^ 32)
    (hstart : (placedAt header entries i entry).start = count % 2 ^ 32) : StartsAt placed layout i count := by
  rw [Nat.mod_eq_of_lt hcount] at hstart
  have hnode : (placedAt header entries i entry).node.isStorage = false := by
    rw [placedAt]
    split_ifs <;> exact hstream
  refine ⟨_, stored_get h hi, hstart, ?_⟩
  rw [slot_start hnode, hstart]
  exact leValue_leBytes_of_lt (hcount.trans_le (by decide))

theorem ordinary_lt (h : computeLayout header entries = .ok (layout, placed)) (i : Nat) :
    ordinaryBefore header entries i < 2 ^ 32 := by
  have hall : layout.streamSectors < 256 ^ 4 := region_lt h (by simp [regions])
  obtain ⟨-, rfl, -⟩ := computeLayout_eq_ok.1 h
  exact (unitsBefore_le i).trans_lt (hall.trans_le (by decide))

/-- The only numbers that the check of the sectors leaves unbounded are those of the mini sectors. -/
theorem nothing_narrowed_iff (hversion : Versioned m.header)
    (h : computeLayout m.header entries = .ok (layout, placed)) :
    NothingNarrowed m entries placed layout ↔ SmallEnough m.header entries := by
  have hcount : layout.miniSectors = miniBefore m.header entries entries.length := by
    obtain ⟨-, rfl, -⟩ := computeLayout_eq_ok.1 h
    rfl
  constructor
  · intro hn
    refine ⟨fun hmajor => ?_, fun i entry hi hmini => ?_⟩
    · have hwidth : sizeWidth m.header = 4 := by rw [sizeWidth, if_neg (by omega)]
      have hsize := hn.rootSize { node := m.root }
      rw [rootSize_value hversion, hwidth, hcount] at hsize
      rw [← hsize]
      exact Nat.mod_lt _ (by decide)
    · obtain ⟨stored, hstored, hstart, -⟩ := hn.small i entry hi hmini
      rw [stored_get h hi, Option.some.injEq] at hstored
      rw [← hstart, ← hstored, placedAt, not_ordinary_of_mini hmini, if_neg (by simp), if_pos hmini]
      exact Nat.mod_lt _ (by decide)
  · intro hs
    refine {
      ordinary := fun i entry hi hordinary => ?_
      small := fun i entry hi hmini => ?_
      directorySectors := fun hmajor => ?_
      fatSectors := headerHas_of_field (by simp [headerFields]) (region_lt h (by simp [regions]))
      directoryStart := headerHas_of_field (by simp [headerFields]) (region_lt h (by simp [regions]))
      miniIndexStart := fun hne => headerHas_of_field (by simp [headerFields, hne]) (region_lt h (by simp [regions]))
      miniIndexSectors := headerHas_of_field (by simp [headerFields]) (region_lt h (by simp [regions]))
      difatStart := fun hne => headerHas_of_field (by simp [headerFields, hne]) (region_lt h (by simp [regions]))
      difatSectors := headerHas_of_field (by simp [headerFields]) (region_lt h (by simp [regions]))
      fatListed := fun i hi hfew => ?_
      rootStart := fun root hne => ?_
      rootSize := fun root => ?_ }
    · have hstream : entry.node.isStorage = false := by
        simp only [Entry.isOrdinary, Bool.not_eq_true', Bool.or_eq_false_iff] at hordinary
        exact hordinary.1.1
      refine startsAt_of_lt h hi hstream (ordinary_lt h i) ?_
      rw [placedAt, if_pos hordinary]
    · have hstream : entry.node.isStorage = false := by
        simp only [Entry.isMini, Bool.not_eq_true', Bool.or_eq_false_iff] at hmini
        exact hmini.1.1
      refine startsAt_of_lt h hi hstream (hs.2 i entry hi hmini) ?_
      rw [placedAt, not_ordinary_of_mini hmini, if_neg (by simp), if_pos hmini]
    · exact headerHas_of_field (by simp [headerFields, hmajor]) (region_lt h (by simp [regions]))
    · obtain ⟨hc, -⟩ := closing_of_computeLayout hversion.sector h
      have hlisted := @Closing.header_entry m placed layout hc i hi hfew
      have hnumber : layout.fatStart + i < 256 ^ 4 := by
        have htotal := hc.total
        have hmax : kCfbMaxSectors < 256 ^ 4 := by decide
        have := hc.few
        omega
      rw [HeaderHas, ← slice_serialise_header (by rw [kHeaderDifatEntries] at hfew; omega) hc.header, hlisted]
      exact leValue_leBytes_of_lt hnumber
    · rw [slot_rootStart hne]
      exact leValue_leBytes_of_lt (region_lt h (by simp [regions]))
    · rw [rootSize_value hversion]
      refine Nat.mod_eq_of_lt ?_
      obtain ⟨hmajor, -⟩ | ⟨hmajor, -⟩ := hversion.version
      · have hwidth : sizeWidth m.header = 4 := by rw [sizeWidth, if_neg (by omega)]
        rw [hwidth, hcount]
        exact (hs.1 hmajor).trans_le (by decide)
      · have hwidth : sizeWidth m.header = 8 := by rw [sizeWidth, if_pos hmajor]
        rw [hwidth]
        exact miniStream_lt hversion h

/-- An empty package of the third version. -/
def emptyPackage : PackageModel where
  source := ⟨List.replicate 512 0, kFormat, "package"⟩
  header := { majorVersion := 3, sectorSize := 512, miniSectorSize := 64, miniStreamCutoff := 4096 }
  root := { name := CfbName.empty, isStorage := true }

theorem emptyPackage_versioned : Versioned emptyPackage.header := ⟨.inl ⟨rfl, rfl⟩, rfl⟩

def streamEntry (number size : Nat) : Entry where
  node := { name := CfbName.ofUnits [UInt16.ofNat (number / 2 ^ 16), UInt16.ofNat number], size }
  pieces := [List.replicate size 0]
  size

theorem nothing_narrowed_of_two : ∃ layout placed,
    computeLayout emptyPackage.header [{ node := emptyPackage.root }, streamEntry 0 100, streamEntry 1 5000] =
      .ok (layout, placed) ∧
    (NothingNarrowed emptyPackage [{ node := emptyPackage.root }, streamEntry 0 100, streamEntry 1 5000] placed layout ↔
      SmallEnough emptyPackage.header [{ node := emptyPackage.root }, streamEntry 0 100, streamEntry 1 5000]) := by
  obtain ⟨⟨layout, placed⟩, h⟩ := exists_of_isOk
    (by decide +kernel : (computeLayout emptyPackage.header
      [{ node := emptyPackage.root }, streamEntry 0 100, streamEntry 1 5000]).isOk = true)
  exact ⟨layout, placed, h, nothing_narrowed_iff emptyPackage_versioned h⟩

/-- A root with streams of 64 mini sectors each. -/
def equalStreams (count : Nat) : List Entry :=
  { node := emptyPackage.root, children := List.range' 1 count } ::
    (List.range count).map fun number => streamEntry number 4095

theorem length_equalStreams (count : Nat) : (equalStreams count).length = count + 1 := by simp [equalStreams]

theorem isMini_streamEntry (number : Nat) {size : Nat} (hsize : size ≠ 0) (hless : size < kMiniStreamCutoff) :
    (streamEntry number size).isMini emptyPackage.header = true := by
  have hcutoff : emptyPackage.header.miniStreamCutoff = kMiniStreamCutoff := rfl
  simp [Entry.isMini, streamEntry, hcutoff, hsize, Nat.not_le.2 hless]

theorem filter_equalStreams (count : Nat) {chosen : Entry → Bool}
    (hroot : chosen { node := emptyPackage.root, children := List.range' 1 count } = false) (all : Bool)
    (heach : ∀ number, chosen (streamEntry number 4095) = all) : (equalStreams count).filter chosen =
      if all then (List.range count).map fun number => streamEntry number 4095 else [] := by
  have heq : (chosen ∘ fun number => streamEntry number 4095) = fun _ => all := funext heach
  rw [equalStreams, List.filter_cons_of_neg (by rw [hroot]; decide), List.filter_map, heq]
  cases all
  · rw [List.filter_false, List.map_nil, if_neg (by decide)]
  · rw [List.filter_true, if_pos rfl]

theorem ordinary_equalStreams (count : Nat) :
    ordinaryBefore emptyPackage.header (equalStreams count) (equalStreams count).length = 0 := by
  have hnone : ∀ number, (streamEntry number 4095).isOrdinary emptyPackage.header = false := fun number =>
    not_ordinary_of_mini (isMini_streamEntry number (by decide) (by decide))
  rw [ordinaryBefore, unitsBefore, List.take_length, filter_equalStreams count rfl false hnone, if_neg (by decide),
    List.map_nil, List.sum_nil]

theorem mini_equalStreams (count : Nat) :
    miniBefore emptyPackage.header (equalStreams count) (equalStreams count).length = count * 64 := by
  have hall : ∀ number, (streamEntry number 4095).isMini emptyPackage.header = true := fun number =>
    isMini_streamEntry number (by decide) (by decide)
  have hunits : ∀ number size, unitsFor (streamEntry number size).size kMiniSectorSize = unitsFor size kMiniSectorSize :=
    fun _ _ => rfl
  have hsame : ((fun entry : Entry => unitsFor entry.size kMiniSectorSize) ∘ fun number => streamEntry number 4095) =
      fun _ => unitsFor 4095 kMiniSectorSize := funext fun number => hunits number 4095
  have hunit : unitsFor 4095 kMiniSectorSize = 64 := by decide
  rw [miniBefore, unitsBefore, List.take_length, filter_equalStreams count rfl true hall, if_pos rfl, List.map_map,
    hsame, List.map_const', List.sum_replicate, List.length_range, smul_eq_mul, hunit]

/-- The mini stream of 4 GiB passes the check, and its length reads as zero. -/
theorem million_streams_narrowed : ∃ layout placed,
    computeLayout emptyPackage.header (equalStreams 1048576) = .ok (layout, placed) ∧
    layout.miniSectors * kMiniSectorSize = 2 ^ 32 ∧
    (∀ root, leValue (slice (writeDirectoryEntry root true layout) 120 4) = 0) ∧
    ¬ NothingNarrowed emptyPackage (equalStreams 1048576) placed layout := by
  obtain ⟨count, hcount⟩ : ∃ count, count = 1048576 := ⟨_, rfl⟩
  rw [← hcount]
  have hfew : (layOut emptyPackage.header 0 (count * 64) (count + 1)).totalSectors ≤ kCfbMaxSectors := by
    subst hcount
    decide +kernel
  have h := computeLayout_eq_ok.2 ⟨by
    rwa [ordinary_equalStreams, mini_equalStreams, length_equalStreams], rfl, rfl⟩
  rw [ordinary_equalStreams, mini_equalStreams, length_equalStreams] at h
  have hsize : (layOut emptyPackage.header 0 (count * 64) (count + 1)).miniSectors * kMiniSectorSize = 2 ^ 32 := by
    rw [layOut]
    simp only [hcount, kMiniSectorSize, Nat.reduceMul, Nat.reducePow]
  have hread : ∀ root, leValue (slice (writeDirectoryEntry root true
      (layOut emptyPackage.header 0 (count * 64) (count + 1))) 120 (sizeWidth emptyPackage.header)) = 0 := by
    intro root
    rw [rootSize_value emptyPackage_versioned, hsize]
    decide
  refine ⟨_, _, h, hsize, hread, fun hn => ?_⟩
  have hroot := hn.rootSize { node := emptyPackage.root }
  rw [hread, hsize] at hroot
  omega

end TheSeed.CfbNarrowing
