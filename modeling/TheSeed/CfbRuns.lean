import TheSeed.CfbNarrowing

namespace TheSeed.CfbRuns

open Bytes Checked BoundedBytes CfbReader CfbWriter CfbHeader CfbResolve CfbAllocation CfbNarrowing

/-! The allocation index of a package that is laid out: the sectors of each run lead to each other, and the runs are
apart. -/

variable {m : PackageModel} {entries placed : List Entry} {entry : Entry} {header : CfbHeader} {layout : Layout}
  {index : Index} {i first count : Nat}

/-- The regions of a layout, one after the other from the sectors of the streams on. -/
structure Regions (header : CfbHeader) (entries : List Entry) (layout : Layout) : Prop where
  sectorSize : layout.sectorSize = header.sectorSize
  headerSize : layout.headerSize = if header.majorVersion = 4 then 4096 else 512
  perSector : layout.entriesPerIndexSector = header.sectorSize / 4
  streamSectors : layout.streamSectors = ordinaryBefore header entries entries.length
  miniSectors : layout.miniSectors = miniBefore header entries entries.length
  miniStreamStart : layout.miniStreamStart = layout.streamSectors
  miniStreamSectors : layout.miniStreamSectors = unitsFor (layout.miniSectors * kMiniSectorSize) header.sectorSize
  miniIndexStart : layout.miniIndexStart = layout.miniStreamStart + layout.miniStreamSectors
  miniIndexSectors : layout.miniIndexSectors = unitsFor layout.miniSectors (header.sectorSize / 4)
  directoryStart : layout.directoryStart = layout.miniIndexStart + layout.miniIndexSectors
  directorySectors : layout.directorySectors = unitsFor entries.length (header.sectorSize / kDirEntrySize)
  difatStart : layout.difatStart = layout.directoryStart + layout.directorySectors

theorem regions_of_computeLayout (h : computeLayout header entries = .ok (layout, placed)) :
    Regions header entries layout := by
  obtain ⟨-, rfl, -⟩ := computeLayout_eq_ok.1 h
  constructor <;> rfl

/-! Runs in an index -/

/-- What an index has for a sector of a run. -/
def follower (first count i : Nat) : Nat := if i + 1 = first + count then kCfbEndOfChain else (i + 1) % 2 ^ 32

theorem setRun_inside (h : first ≤ i) (h' : i < first + count) : setRun index first count i = follower first count i :=
  if_pos ⟨h, h'⟩

theorem setRun_outside (h : i < first ∨ first + count ≤ i) : setRun index first count i = index i := by
  rw [setRun, if_neg]
  omega

theorem setAll_outside {value : Nat} (h : i < first ∨ first + count ≤ i) : setAll index first count value i = index i := by
  rw [setAll, if_neg]
  omega

section fold

variable {α : Type} {on : α → Bool} {start units : α → Nat} {xs : List α}

/-- One run for each element that `on` picks. -/
def setRuns (on : α → Bool) (start units : α → Nat) (xs : List α) (index : Index) : Index :=
  xs.foldl (fun index x => if on x then setRun index (start x) (units x) else index) index

theorem setRuns_cons (x : α) (xs : List α) : setRuns on start units (x :: xs) index =
    setRuns on start units xs (if on x then setRun index (start x) (units x) else index) := rfl

theorem setRuns_outside (h : ∀ x ∈ xs, on x = true → i < start x ∨ start x + units x ≤ i) :
    setRuns on start units xs index i = index i := by
  induction xs generalizing index with
  | nil => rfl
  | cons x xs ih =>
      obtain ⟨hx, hxs⟩ := List.forall_mem_cons.1 h
      rw [setRuns_cons, ih hxs]
      by_cases hon : on x = true
      · rw [if_pos hon, setRun_outside (hx hon)]
      · rw [if_neg hon]

/-- Of runs that are apart each is there in the end. -/
theorem setRuns_inside (hapart : xs.Pairwise fun a b => on a = true → on b = true → start a + units a ≤ start b) {x : α}
    (hx : x ∈ xs) (hon : on x = true) (h : start x ≤ i) (h' : i < start x + units x) :
    setRuns on start units xs index i = follower (start x) (units x) i := by
  induction xs generalizing index with
  | nil => cases hx
  | cons first xs ih =>
      obtain ⟨hfirst, hrest⟩ := List.pairwise_cons.1 hapart
      rw [setRuns_cons]
      rcases List.mem_cons.1 hx with rfl | hx
      · rw [setRuns_outside fun other hother hon' => .inl (h'.trans_le (hfirst other hother hon hon')), if_pos hon,
          setRun_inside h h']
      · exact ih hrest hx

end fold

/-! The runs of the streams -/

theorem unitsBefore_mono {chosen : Entry → Bool} {unit i j : Nat} (h : i ≤ j) :
    unitsBefore chosen unit entries i ≤ unitsBefore chosen unit entries j := by
  induction entries generalizing i j with
  | nil => simp [unitsBefore]
  | cons entry entries ih =>
      cases i with
      | zero => exact Nat.zero_le _
      | succ i =>
          obtain ⟨j, rfl⟩ : ∃ k, j = k + 1 := ⟨j - 1, by omega⟩
          rw [unitsBefore_cons_succ, unitsBefore_cons_succ]
          exact Nat.add_le_add_left (ih (Nat.le_of_succ_le_succ h)) _

/-- A chosen entry has its units before the next count. -/
theorem unitsBefore_succ {chosen : Entry → Bool} {unit : Nat} (hi : entries[i]? = some entry) (hchosen : chosen entry = true) :
    unitsBefore chosen unit entries (i + 1) = unitsBefore chosen unit entries i + unitsFor entry.size unit := by
  induction entries generalizing i with
  | nil => cases hi
  | cons head entries ih =>
      cases i with
      | zero =>
          rw [List.getElem?_cons_zero, Option.some.injEq] at hi
          subst hi
          rw [unitsBefore_cons_succ, unitsBefore_zero, unitsBefore_zero, if_pos hchosen, Nat.add_comm]
      | succ i =>
          rw [List.getElem?_cons_succ] at hi
          rw [unitsBefore_cons_succ, unitsBefore_cons_succ, ih hi, Nat.add_assoc]

theorem unitsBefore_add_le {chosen : Entry → Bool} {unit j : Nat} (hi : entries[i]? = some entry)
    (hchosen : chosen entry = true) (h : i < j) :
    unitsBefore chosen unit entries i + unitsFor entry.size unit ≤ unitsBefore chosen unit entries j := by
  rw [← unitsBefore_succ hi hchosen]
  exact unitsBefore_mono h

/-- The entries as flattening makes them, before they are placed and linked. -/
def Unplaced (entries : List Entry) : Prop :=
  ∀ entry ∈ entries, entry.inMiniStream = false ∧ entry.start = kCfbEndOfChain ∧ entry.left = kCfbNoStream ∧
    entry.right = kCfbNoStream ∧ entry.child = kCfbNoStream

/-- The entry is a stream with sectors of its own. -/
def ownsSectors (entry : Entry) : Bool := !entry.node.isStorage && !entry.inMiniStream && entry.size ≠ 0

/-- The entry is a stream with mini sectors. -/
def ownsMinis (entry : Entry) : Bool := !(entry.node.isStorage || entry.size = 0) && entry.inMiniStream

section placed

variable (h : computeLayout header entries = .ok (layout, placed))

include h

theorem placed_of_get {stored : Entry} (hi : placed[i]? = some stored) :
    ∃ entry, entries[i]? = some entry ∧ stored = placedAt header entries i entry := by
  obtain ⟨-, -, rfl⟩ := computeLayout_eq_ok.1 h
  rw [placed_get, Option.map_eq_some_iff] at hi
  obtain ⟨entry, hentry, heq⟩ := hi
  exact ⟨entry, hentry, heq.symm⟩

/-- The streams that own sectors are the ordinary ones. -/
theorem ordinary_of_owns (hown : ownsSectors (placedAt header entries i entry) = true) :
    entry.isOrdinary header = true ∧ (placedAt header entries i entry).start = ordinaryBefore header entries i := by
  have hlt := ordinary_lt h i
  by_cases hordinary : entry.isOrdinary header = true
  · refine ⟨hordinary, ?_⟩
    rw [placedAt, if_pos hordinary]
    exact Nat.mod_eq_of_lt hlt
  · exfalso
    rw [placedAt, if_neg hordinary] at hown
    by_cases hmini : entry.isMini header = true
    · rw [if_pos hmini] at hown
      simp [ownsSectors] at hown
    · rw [if_neg hmini] at hown
      simp only [ownsSectors, Bool.and_eq_true, Bool.not_eq_true', decide_eq_true_eq] at hown
      simp only [Entry.isOrdinary, Bool.not_eq_true, Bool.not_eq_false', Bool.or_eq_true, decide_eq_true_eq, hown.1.1,
        Bool.false_eq_true, hown.2, false_or] at hordinary
      simp only [Entry.isMini, Bool.not_eq_true, Bool.not_eq_false', Bool.or_eq_true, decide_eq_true_eq, hown.1.1,
        Bool.false_eq_true, hown.2, false_or] at hmini
      omega

omit h in
/-- The streams that own mini sectors are the small ones. -/
theorem mini_of_owns (hu : Unplaced entries) (hi : entries[i]? = some entry)
    (hown : ownsMinis (placedAt header entries i entry) = true) :
    entry.isMini header = true ∧ (placedAt header entries i entry).start = miniBefore header entries i % 2 ^ 32 := by
  have hfresh := (hu entry (List.mem_of_getElem? hi)).1
  rw [placedAt] at hown ⊢
  by_cases hordinary : entry.isOrdinary header = true
  · rw [if_pos hordinary] at hown
    simp [ownsMinis, hfresh] at hown
  · rw [if_neg hordinary] at hown ⊢
    by_cases hmini : entry.isMini header = true
    · rw [if_pos hmini]
      exact ⟨hmini, rfl⟩
    · rw [if_neg hmini] at hown
      simp [ownsMinis, hfresh] at hown

omit h in
theorem placed_node : (placedAt header entries i entry).node = entry.node := by
  rw [placedAt]
  split_ifs <;> rfl

omit h in
theorem placed_size : (placedAt header entries i entry).size = entry.size := by
  rw [placedAt]
  split_ifs <;> rfl

/-- The runs of two streams follow each other as the streams do. -/
theorem sectors_apart (unit : Nat) (hunit : unit = header.sectorSize) :
    placed.Pairwise fun a b => ownsSectors a = true → ownsSectors b = true → a.start + unitsFor a.size unit ≤ b.start := by
  subst hunit
  rw [List.pairwise_iff_getElem]
  intro i j hi hj hij ha hb
  obtain ⟨first, hfirst, hfirst'⟩ := placed_of_get h (List.getElem?_eq_getElem hi)
  obtain ⟨second, hsecond, hsecond'⟩ := placed_of_get h (List.getElem?_eq_getElem hj)
  rw [hfirst'] at ha ⊢
  rw [hsecond'] at hb ⊢
  obtain ⟨hordinary, hstart⟩ := ordinary_of_owns h ha
  obtain ⟨-, hstart'⟩ := ordinary_of_owns h hb
  rw [hstart, hstart', placed_size]
  exact unitsBefore_add_le hfirst hordinary hij

theorem minis_apart (hu : Unplaced entries) (hfew : miniBefore header entries entries.length < 2 ^ 32) :
    placed.Pairwise fun a b => ownsMinis a = true → ownsMinis b = true →
      a.start + unitsFor a.size kMiniSectorSize ≤ b.start := by
  rw [List.pairwise_iff_getElem]
  intro i j hi hj hij ha hb
  obtain ⟨first, hfirst, hfirst'⟩ := placed_of_get h (List.getElem?_eq_getElem hi)
  obtain ⟨second, hsecond, hsecond'⟩ := placed_of_get h (List.getElem?_eq_getElem hj)
  rw [hfirst'] at ha ⊢
  rw [hsecond'] at hb ⊢
  obtain ⟨hmini, hstart⟩ := mini_of_owns hu hfirst ha
  obtain ⟨-, hstart'⟩ := mini_of_owns hu hsecond hb
  have hlt : ∀ k, miniBefore header entries k < 2 ^ 32 := fun k => (unitsBefore_le k).trans_lt hfew
  rw [hstart, hstart', placed_size, Nat.mod_eq_of_lt (hlt i), Nat.mod_eq_of_lt (hlt j)]
  exact unitsBefore_add_le hfirst hmini hij

/-- The streams lie before the mini stream. -/
theorem sectors_before (hr : Regions header entries layout) {stored : Entry} (hmem : stored ∈ placed)
    (hown : ownsSectors stored = true) : stored.start + unitsFor stored.size header.sectorSize ≤ layout.streamSectors := by
  obtain ⟨i, hi⟩ := List.getElem?_of_mem hmem
  obtain ⟨entry, hentry, rfl⟩ := placed_of_get h hi
  obtain ⟨hordinary, hstart⟩ := ordinary_of_owns h hown
  rw [hstart, placed_size, hr.streamSectors]
  exact unitsBefore_add_le hentry hordinary (List.getElem?_eq_some_iff.1 hentry).1

end placed

/-! The index -/

theorem allocationIndex_eq (entries : List Entry) (layout : Layout) : allocationIndex entries layout =
    setAll (setAll (setRun (setRun (setRun
      (setRuns ownsSectors Entry.start (fun entry => unitsFor entry.size layout.sectorSize) entries fun _ => kCfbFreeSector)
      layout.miniStreamStart layout.miniStreamSectors) layout.miniIndexStart layout.miniIndexSectors)
      layout.directoryStart layout.directorySectors) layout.difatStart layout.difatSectors kDifatSector)
      layout.fatStart layout.fatSectors kFatSector := rfl

theorem miniIndex_eq (entries : List Entry) : miniIndex entries =
    setRuns ownsMinis Entry.start (fun entry => unitsFor entry.size kMiniSectorSize) entries fun _ => kCfbFreeSector := rfl

section runs

variable (hr : Regions header entries layout) (hc : Closing layout)

include hr hc

theorem index_directory (h : layout.directoryStart ≤ i) (h' : i < layout.directoryStart + layout.directorySectors) :
    allocationIndex placed layout i = follower layout.directoryStart layout.directorySectors i := by
  have hdifat := hr.difatStart
  have hfat := hc.fatStart
  rw [allocationIndex_eq, setAll_outside (by omega), setAll_outside (by omega), setRun_inside h h']

theorem index_miniIndex (h : layout.miniIndexStart ≤ i) (h' : i < layout.miniIndexStart + layout.miniIndexSectors) :
    allocationIndex placed layout i = follower layout.miniIndexStart layout.miniIndexSectors i := by
  have hdirectory := hr.directoryStart
  have hdifat := hr.difatStart
  have hfat := hc.fatStart
  rw [allocationIndex_eq, setAll_outside (by omega), setAll_outside (by omega), setRun_outside (by omega),
    setRun_inside h h']

theorem index_miniStream (h : layout.miniStreamStart ≤ i) (h' : i < layout.miniStreamStart + layout.miniStreamSectors) :
    allocationIndex placed layout i = follower layout.miniStreamStart layout.miniStreamSectors i := by
  have hindex := hr.miniIndexStart
  have hdirectory := hr.directoryStart
  have hdifat := hr.difatStart
  have hfat := hc.fatStart
  rw [allocationIndex_eq, setAll_outside (by omega), setAll_outside (by omega), setRun_outside (by omega),
    setRun_outside (by omega), setRun_inside h h']

theorem index_stream (hl : computeLayout header entries = .ok (layout, placed)) {stored : Entry} (hmem : stored ∈ placed)
    (hown : ownsSectors stored = true) (h : stored.start ≤ i) (h' : i < stored.start + unitsFor stored.size header.sectorSize) :
    allocationIndex placed layout i = follower stored.start (unitsFor stored.size header.sectorSize) i := by
  have hbefore := sectors_before hl hr hmem hown
  have hstream := hr.miniStreamStart
  have hindex := hr.miniIndexStart
  have hdirectory := hr.directoryStart
  have hdifat := hr.difatStart
  have hfat := hc.fatStart
  rw [allocationIndex_eq, setAll_outside (by omega), setAll_outside (by omega), setRun_outside (by omega),
    setRun_outside (by omega), setRun_outside (by omega), hr.sectorSize]
  exact setRuns_inside (sectors_apart hl _ rfl) hmem hown h h'

end runs

theorem index_mini (hl : computeLayout header entries = .ok (layout, placed)) (hu : Unplaced entries)
    (hfew : miniBefore header entries entries.length < 2 ^ 32) {stored : Entry} (hmem : stored ∈ placed)
    (hown : ownsMinis stored = true) (h : stored.start ≤ i) (h' : i < stored.start + unitsFor stored.size kMiniSectorSize) :
    miniIndex placed i = follower stored.start (unitsFor stored.size kMiniSectorSize) i := by
  rw [miniIndex_eq]
  exact setRuns_inside (minis_apart hl hu hfew) hmem hown h h'

end TheSeed.CfbRuns
