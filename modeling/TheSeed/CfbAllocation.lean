import TheSeed.CfbHeader
import TheSeed.CfbResolve
import TheSeed.Library.Climb

namespace TheSeed.CfbAllocation

open Bytes BoundedBytes Checked CfbReader CfbWriter CfbHeader CfbResolve Climb

/-! The size of the allocation index: the loop that looks for it ends, and finds the least that is enough. -/

variable {others perSector : Nat}

/-- Sectors of the extended index for so many sectors of the allocation index. -/
def difatFor (perSector fat : Nat) : Nat := unitsFor (fat - kHeaderDifatEntries) (perSector - 1)

/-- Sectors of an allocation index that lists itself at a size. -/
def fatFor (others perSector fat : Nat) : Nat := unitsFor (others + difatFor perSector fat + fat) perSector

theorem unitsFor_eq_ceilDiv {size unit : Nat} (hunit : 0 < unit) : unitsFor size unit = size ⌈/⌉ unit := by
  refine le_antisymm ?_ ?_
  · by_contra hlt
    rw [not_le, lt_unitsFor hunit, Nat.mul_comm] at hlt
    exact absurd ((ceilDiv_le_iff_le_mul hunit).1 le_rfl) (not_le.2 hlt)
  · rw [ceilDiv_le_iff_le_mul hunit, Nat.mul_comm]
    exact unitsFor_covers hunit

theorem indexSectors_succ (steps fat difat : Nat) : indexSectors others perSector (steps + 1) fat difat =
    if fatFor others perSector fat = fat then (fat, difatFor perSector fat)
    else indexSectors others perSector steps (fatFor others perSector fat) (difatFor perSector fat) := by
  have hlisted : (if kHeaderDifatEntries < fat then fat - kHeaderDifatEntries else 0) = fat - kHeaderDifatEntries := by
    split <;> omega
  simp only [indexSectors, hlisted]
  rfl

/-- The loop that leaves by its break gives what it had there. -/
theorem indexSectors_of_stops {steps fat stop difat : Nat} (h : Stops (fatFor others perSector) steps fat stop) :
    indexSectors others perSector steps fat difat = (stop, difatFor perSector stop) := by
  induction h generalizing difat with
  | here h => rw [indexSectors_succ, if_pos h]
  | onward hne _ ih => rw [indexSectors_succ, if_neg hne, ih]

theorem difatFor_add_le (hper : 1 < perSector) (fat d : Nat) :
    difatFor perSector (fat + d) ≤ difatFor perSector fat + d ⌈/⌉ (perSector - 1) := by
  have hpos : 0 < perSector - 1 := by omega
  rw [difatFor, difatFor, unitsFor_eq_ceilDiv hpos, unitsFor_eq_ceilDiv hpos]
  exact (ceilDiv_mono hpos (by omega)).trans (ceilDiv_add_le hpos)

theorem difatFor_mono (hper : 1 < perSector) : Monotone (difatFor perSector) := by
  intro a b hab
  have hpos : 0 < perSector - 1 := by omega
  rw [difatFor, difatFor, unitsFor_eq_ceilDiv hpos, unitsFor_eq_ceilDiv hpos]
  exact ceilDiv_mono hpos (by omega)

theorem fatFor_mono (hper : 1 < perSector) : Monotone (fatFor others perSector) := by
  intro a b hab
  have hpos : 0 < perSector := by omega
  have hdifat := difatFor_mono hper hab
  rw [fatFor, fatFor, unitsFor_eq_ceilDiv hpos, unitsFor_eq_ceilDiv hpos]
  exact ceilDiv_mono hpos (by omega)

/-- More sectors of the index take an entry each and, past the header, an entry of the extended index each. -/
theorem fatFor_contracts (hper : 1 < perSector) : Contracts (fatFor others perSector) (perSector - 1) := by
  intro fat d
  have hpos : 0 < perSector := by omega
  have hdifat := difatFor_add_le hper fat d
  have hcover : d ≤ (perSector - 1) * (d ⌈/⌉ (perSector - 1)) := (ceilDiv_le_iff_le_mul (by omega)).1 le_rfl
  have hmore : (d ⌈/⌉ (perSector - 1) + d) ⌈/⌉ perSector ≤ d ⌈/⌉ (perSector - 1) := by
    rw [ceilDiv_le_iff_le_mul hpos]
    obtain ⟨n, rfl⟩ := Nat.exists_eq_add_of_lt hper
    rw [show 1 + n + 1 - 1 = 1 + n from rfl] at hcover ⊢
    rw [Nat.succ_mul]
    omega
  rw [fatFor, fatFor, unitsFor_eq_ceilDiv hpos, unitsFor_eq_ceilDiv hpos]
  calc (others + difatFor perSector (fat + d) + (fat + d)) ⌈/⌉ perSector
      ≤ (others + difatFor perSector fat + fat + (d ⌈/⌉ (perSector - 1) + d)) ⌈/⌉ perSector := ceilDiv_mono hpos (by omega)
    _ ≤ (others + difatFor perSector fat + fat) ⌈/⌉ perSector + (d ⌈/⌉ (perSector - 1) + d) ⌈/⌉ perSector :=
        ceilDiv_add_le hpos
    _ ≤ (others + difatFor perSector fat + fat) ⌈/⌉ perSector + d ⌈/⌉ (perSector - 1) := Nat.add_le_add_left hmore _

/-- As many sectors as there are others are enough. -/
theorem fatFor_others (hper : 2 < perSector) : fatFor others perSector others ≤ others := by
  have hdifat : difatFor perSector others ≤ others := by
    rw [difatFor, unitsFor_eq_ceilDiv (by omega), ceilDiv_le_iff_le_mul (by omega)]
    calc others - kHeaderDifatEntries ≤ 1 * others := by omega
      _ ≤ (perSector - 1) * others := Nat.mul_le_mul_right _ (by omega)
  have hthree : 3 * others ≤ perSector * others := Nat.mul_le_mul_right _ hper
  rw [fatFor, unitsFor_eq_ceilDiv (by omega), ceilDiv_le_iff_le_mul (by omega)]
  omega

/-- What the loop is to arrive at: a number of sectors of the allocation index, and of the extended one. -/
structure LeastIndex (others perSector : Nat) (index : Nat × Nat) : Prop where
  leaves : Stops (fatFor others perSector) 64 0 index.1
  fat_eq : index.1 = (others + index.2 + index.1) ⌈/⌉ perSector
  difat_eq : index.2 = (index.1 - kHeaderDifatEntries) ⌈/⌉ (perSector - 1)
  least : ∀ fat difat : Nat, fat = (others + difat + fat) ⌈/⌉ perSector →
    difat = (fat - kHeaderDifatEntries) ⌈/⌉ (perSector - 1) → index.1 ≤ fat

theorem leastIndex (hper : 128 ≤ perSector) (hothers : others ≤ 2 ^ 62) :
    LeastIndex others perSector (indexSectors others perSector 64 0 0) := by
  have hmono : Monotone (fatFor others perSector) := fatFor_mono (by omega)
  have hfew : others ≤ (perSector - 1) ^ 62 :=
    calc others ≤ 2 ^ 62 := hothers
      _ ≤ (perSector - 1) ^ 62 := Nat.pow_le_pow_left (by omega) 62
  obtain ⟨fat, -, hstops⟩ := stops_of_contracts hmono (fatFor_contracts (by omega)) (by omega)
    (fatFor_others (by omega)) hfew
  have hleast := hstops.isLeast hmono
  have hfixed : fatFor others perSector fat = fat := hleast.1
  have hdifat : difatFor perSector fat = (fat - kHeaderDifatEntries) ⌈/⌉ (perSector - 1) :=
    unitsFor_eq_ceilDiv (by omega)
  rw [indexSectors_of_stops hstops]
  refine ⟨hstops, ?_, hdifat, fun fat' difat' hfat' hdifat' => hleast.2 ?_⟩
  · rw [fatFor, unitsFor_eq_ceilDiv (by omega)] at hfixed
    exact hfixed.symm
  · rw [Set.mem_ofPred_eq, fatFor, difatFor, unitsFor_eq_ceilDiv (by omega), unitsFor_eq_ceilDiv (by omega), ← hdifat']
    exact hfat'.symm

/-! The index as it is written -/

variable {m : PackageModel} {entries placed : List Entry} {layout : Layout}

theorem slice_indexBytes (index : Index) {i count : Nat} (h : i < count) :
    slice (indexBytes index count) (4 * i) 4 = leBytes 4 (index i) := by
  rw [indexBytes, Nat.mul_comm]
  exact slice_flatMap_range (fun _ => length_leBytes 4 _) h

theorem length_difatSectorBytes (layout : Layout) (d : Nat) (hper : 1 < layout.entriesPerIndexSector) :
    (difatSectorBytes layout d).length = 4 * layout.entriesPerIndexSector := by
  simp only [difatSectorBytes, List.length_append, length_indexBytes, length_leBytes]
  omega

/-- The regions at the end of the package, one after the other up to its last sector. -/
structure Closing (layout : Layout) : Prop where
  sector : layout.sectorSize = 4 * layout.entriesPerIndexSector
  header : 512 ≤ layout.headerSize
  least : LeastIndex layout.difatStart layout.entriesPerIndexSector (layout.fatSectors, layout.difatSectors)
  fatStart : layout.fatStart = layout.difatStart + layout.difatSectors
  total : layout.totalSectors = layout.fatStart + layout.fatSectors
  few : layout.totalSectors ≤ kCfbMaxSectors

theorem closing_of_computeLayout {header : CfbHeader} (hsize : header.sectorSize = 512 ∨ header.sectorSize = 4096)
    (h : computeLayout header entries = .ok (layout, placed)) :
    Closing layout ∧ layout.entriesPerIndexSector = header.sectorSize / 4 := by
  have hhead := computeLayout_headerSize h
  simp only [computeLayout, bind_eq_ok, pure_eq_ok, Except.ok.injEq, Prod.mk.injEq, rejectIf_eq_ok] at h
  obtain ⟨-, hfew, rfl, -⟩ := h
  refine ⟨⟨?_, hhead, ?_, rfl, ?_, not_lt.1 hfew⟩, rfl⟩
  · obtain hs | hs := hsize <;> simp only [layOut, hs]
  · refine leastIndex ?_ ?_
    · obtain hs | hs := hsize <;> simp only [layOut, hs] <;> omega
    · have hbefore : (layOut header (placeOrdinary header entries).2
          (placeMini header (placeOrdinary header entries).1).2 entries.length).difatStart ≤ kCfbMaxSectors :=
        le_trans (le_trans (Nat.le_add_right _ _) (Nat.le_add_right _ _)) (not_lt.1 hfew)
      exact hbefore.trans (by decide)
  · rfl

theorem sectorAt_add (layout : Layout) (a b : Nat) :
    layout.sectorAt (a + b) = layout.sectorAt a + b * layout.sectorSize := by
  simp only [Layout.sectorAt, Nat.add_mul, Nat.add_assoc]

theorem Closing.index_bytes (hc : Closing layout) (count : Nat) :
    4 * (count * layout.entriesPerIndexSector) = count * layout.sectorSize := by
  rw [hc.sector, Nat.mul_left_comm]

theorem Closing.length_difat (hc : Closing layout) (hper : 1 < layout.entriesPerIndexSector) :
    ((List.range layout.difatSectors).flatMap (difatSectorBytes layout)).length =
      layout.difatSectors * layout.sectorSize := by
  simp [length_difatSectorBytes layout _ hper, hc.sector]

/-- The last sectors of the package are those of the allocation index. -/
theorem Closing.fat_region (hc : Closing layout) (hper : 1 < layout.entriesPerIndexSector) :
    slice (serialise m entries layout) (layout.sectorAt layout.fatStart)
        (4 * (layout.fatSectors * layout.entriesPerIndexSector)) =
      indexBytes (allocationIndex (linkTrees (List.range entries.length) entries) layout)
        (layout.fatSectors * layout.entriesPerIndexSector) := by
  have hdifat := hc.length_difat hper
  have hstart := sectorAt_add layout layout.difatStart layout.difatSectors
  have hend := sectorAt_add layout layout.fatStart layout.fatSectors
  have hhead : layout.headerSize ≤ layout.sectorAt layout.difatStart := Nat.le_add_right _ _
  have hlong := hc.header
  have hsize := hc.index_bytes layout.fatSectors
  have hheader := length_headerBytes m layout
  rw [← hc.fatStart] at hstart
  rw [← hc.total] at hend
  rw [serialise, slice_overwrite_of_disjoint (by omega), slice_overwrite_of_disjoint (by omega)]
  have hregion := length_indexBytes (allocationIndex (linkTrees (List.range entries.length) entries) layout)
    (layout.fatSectors * layout.entriesPerIndexSector)
  conv_lhs => rw [← hregion]
  refine slice_overwrite_self ?_
  simp only [length_overwrite, length_writeStreams, List.length_replicate, length_indexBytes, hsize]
  rw [← hend]
  exact le_refl _

/-- Before them lie those of the extended index. -/
theorem Closing.difat_region (hc : Closing layout) (hper : 1 < layout.entriesPerIndexSector) :
    slice (serialise m entries layout) (layout.sectorAt layout.difatStart) (layout.difatSectors * layout.sectorSize) =
      (List.range layout.difatSectors).flatMap (difatSectorBytes layout) := by
  have hdifat := hc.length_difat hper
  have hstart := sectorAt_add layout layout.difatStart layout.difatSectors
  have hend := sectorAt_add layout layout.fatStart layout.fatSectors
  have hhead : layout.headerSize ≤ layout.sectorAt layout.difatStart := Nat.le_add_right _ _
  have hlong := hc.header
  have hheader := length_headerBytes m layout
  rw [← hc.fatStart] at hstart
  rw [← hc.total] at hend
  rw [serialise, slice_overwrite_of_disjoint (by omega)]
  conv_lhs => rw [← hdifat]
  refine slice_overwrite_self ?_
  simp only [length_overwrite, length_writeStreams, List.length_replicate, hdifat]
  change layout.sectorAt layout.difatStart + _ ≤ layout.sectorAt layout.totalSectors
  omega

/-- An entry of the allocation index, at its place in the output. -/
theorem Closing.entry (hc : Closing layout) (hper : 1 < layout.entriesPerIndexSector) {i j : Nat}
    (hi : i < layout.fatSectors) (hj : j < layout.entriesPerIndexSector) :
    slice (serialise m entries layout) (layout.sectorAt (layout.fatStart + i) + 4 * j) 4 =
      leBytes 4 (allocationIndex (linkTrees (List.range entries.length) entries) layout
        (i * layout.entriesPerIndexSector + j)) := by
  have hin : i * layout.entriesPerIndexSector + j < layout.fatSectors * layout.entriesPerIndexSector :=
    calc i * layout.entriesPerIndexSector + j < (i + 1) * layout.entriesPerIndexSector := by
          rw [Nat.succ_mul]
          omega
      _ ≤ layout.fatSectors * layout.entriesPerIndexSector := Nat.mul_le_mul_right _ hi
  have hplace : layout.sectorAt (layout.fatStart + i) + 4 * j =
      layout.sectorAt layout.fatStart + 4 * (i * layout.entriesPerIndexSector + j) := by
    rw [sectorAt_add, Nat.mul_add, hc.index_bytes, Nat.add_assoc]
  rw [hplace, ← slice_slice (by omega : 4 * (i * layout.entriesPerIndexSector + j) + 4 ≤
    4 * (layout.fatSectors * layout.entriesPerIndexSector)), hc.fat_region hper, slice_indexBytes _ hin]

/-- An entry of the extended index, at its place in the output. -/
theorem Closing.extended (hc : Closing layout) {d j : Nat} (hd : d < layout.difatSectors)
    (hj : j < layout.entriesPerIndexSector - 1)
    (hlisted : kHeaderDifatEntries + d * (layout.entriesPerIndexSector - 1) + j < layout.fatSectors) :
    slice (serialise m entries layout) (layout.sectorAt (layout.difatStart + d) + 4 * j) 4 =
      leBytes 4 (layout.fatStart + (kHeaderDifatEntries + d * (layout.entriesPerIndexSector - 1) + j)) := by
  have hper : 1 < layout.entriesPerIndexSector := by omega
  have hin : d * layout.sectorSize + layout.sectorSize ≤ layout.difatSectors * layout.sectorSize := by
    rw [← Nat.succ_mul]
    exact Nat.mul_le_mul_right _ hd
  have hsector : slice (serialise m entries layout) (layout.sectorAt (layout.difatStart + d)) layout.sectorSize =
      difatSectorBytes layout d := by
    rw [sectorAt_add, ← slice_slice hin, hc.difat_region hper]
    exact slice_flatMap_range (fun i => (length_difatSectorBytes layout i hper).trans hc.sector.symm) hd
  have hfit : 4 * j + 4 ≤ layout.sectorSize := by
    rw [hc.sector]
    omega
  rw [← slice_slice hfit, hsector, difatSectorBytes, slice_append_left, slice_indexBytes _ hj, if_pos hlisted]
  rw [length_indexBytes]
  omega

/-- What the header lists. -/
theorem Closing.header_entry (hc : Closing layout) {i : Nat} (hi : i < layout.fatSectors) (hfew : i < kHeaderDifatEntries) :
    slice (serialise m entries layout) (76 + 4 * i) 4 = leBytes 4 (layout.fatStart + i) := by
  have hfield := @slice_serialise_field m layout entries 76 (4 * kHeaderDifatEntries)
    (indexBytes (fun i => if i < layout.fatSectors then layout.fatStart + i else kCfbFreeSector) kHeaderDifatEntries)
    (List.mem_of_getLast? (by rfl)) (length_indexBytes _ _) hc.header
  rw [← slice_slice (by omega : 4 * i + 4 ≤ 4 * kHeaderDifatEntries), hfield, slice_indexBytes _ hfew, if_pos hi]

/-- What the written index covers and where its sectors are listed. -/
structure Covers (m : PackageModel) (entries : List Entry) (layout : Layout) (out : List UInt8) : Prop where
  entry : ∀ sector < layout.totalSectors, ∃ i < layout.fatSectors, ∃ j < layout.entriesPerIndexSector,
    sector = i * layout.entriesPerIndexSector + j ∧
      slice out (layout.sectorAt (layout.fatStart + i) + 4 * j) 4 =
        leBytes 4 (allocationIndex (linkTrees (List.range entries.length) entries) layout sector)
  listed : ∀ i < layout.fatSectors,
    (i < kHeaderDifatEntries ∧ leValue (slice out (76 + 4 * i) 4) = layout.fatStart + i) ∨
      ∃ d < layout.difatSectors, ∃ j < layout.entriesPerIndexSector - 1,
        i = kHeaderDifatEntries + d * (layout.entriesPerIndexSector - 1) + j ∧
          leValue (slice out (layout.sectorAt (layout.difatStart + d) + 4 * j) 4) = layout.fatStart + i

theorem Closing.covers (hc : Closing layout) (hper : 1 < layout.entriesPerIndexSector) :
    Covers m entries layout (serialise m entries layout) := by
  have hleast := hc.least
  have hfat : layout.totalSectors ≤ layout.entriesPerIndexSector * layout.fatSectors := by
    rw [hc.total, hc.fatStart, ← ceilDiv_le_iff_le_mul (by omega)]
    exact le_of_eq hleast.fat_eq.symm
  have hdifat : layout.fatSectors - kHeaderDifatEntries ≤ (layout.entriesPerIndexSector - 1) * layout.difatSectors := by
    rw [← ceilDiv_le_iff_le_mul (by omega)]
    exact le_of_eq hleast.difat_eq.symm
  have hnumber : ∀ {i : Nat}, i < layout.fatSectors → layout.fatStart + i < 256 ^ 4 := by
    intro i hi
    have hmax : kCfbMaxSectors < 256 ^ 4 := by decide
    have htotal := hc.total
    have hfew := hc.few
    omega
  refine ⟨fun sector hsector => ?_, fun i hi => ?_⟩
  · have hi : sector / layout.entriesPerIndexSector < layout.fatSectors := Nat.div_lt_of_lt_mul (hsector.trans_le hfat)
    have hj : sector % layout.entriesPerIndexSector < layout.entriesPerIndexSector := Nat.mod_lt _ (by omega)
    have hsplit : sector = sector / layout.entriesPerIndexSector * layout.entriesPerIndexSector +
        sector % layout.entriesPerIndexSector := (Nat.div_add_mod' _ _).symm
    refine ⟨_, hi, _, hj, hsplit, ?_⟩
    rw [hc.entry hper hi hj, ← hsplit]
  · by_cases hfew : i < kHeaderDifatEntries
    · left
      rw [hc.header_entry hi hfew]
      exact ⟨hfew, leValue_leBytes_of_lt (hnumber hi)⟩
    · right
      have hd : (i - kHeaderDifatEntries) / (layout.entriesPerIndexSector - 1) < layout.difatSectors :=
        Nat.div_lt_of_lt_mul (by omega)
      have hj : (i - kHeaderDifatEntries) % (layout.entriesPerIndexSector - 1) < layout.entriesPerIndexSector - 1 :=
        Nat.mod_lt _ (by omega)
      have hsplit : i = kHeaderDifatEntries + (i - kHeaderDifatEntries) / (layout.entriesPerIndexSector - 1) *
          (layout.entriesPerIndexSector - 1) + (i - kHeaderDifatEntries) % (layout.entriesPerIndexSector - 1) := by
        rw [Nat.add_assoc, Nat.div_add_mod']
        omega
      refine ⟨_, hd, _, hj, hsplit, ?_⟩
      rw [hc.extended hd hj (hsplit ▸ hi), ← hsplit]
      exact leValue_leBytes_of_lt (hnumber hi)

/-- For any number of other sectors the format can have, and for every package that is laid out. -/
theorem index_least_and_covering (m : PackageModel) (entries : List Entry)
    (hsize : m.header.sectorSize = 512 ∨ m.header.sectorSize = 4096) :
    (∀ others ≤ kCfbMaxSectors, LeastIndex others (m.header.sectorSize / 4)
      (indexSectors others (m.header.sectorSize / 4) 64 0 0)) ∧
    ∀ (layout : Layout) (placed : List Entry), computeLayout m.header entries = .ok (layout, placed) →
      LeastIndex layout.difatStart layout.entriesPerIndexSector (layout.fatSectors, layout.difatSectors) ∧
        Covers m placed layout (serialise m placed layout) := by
  have hper : 128 ≤ m.header.sectorSize / 4 := by omega
  refine ⟨fun others hothers => leastIndex hper (hothers.trans (by decide)), fun layout placed hlayout => ?_⟩
  obtain ⟨hc, hsector⟩ := closing_of_computeLayout hsize hlayout
  exact ⟨hc.least, hc.covers (by omega)⟩

/-- A package of 512-byte sectors that holds nothing but its root. -/
def rootOnly : PackageModel where
  source := ⟨List.replicate 512 0, kFormat, "package"⟩
  header := { sectorSize := 512 }

theorem rootOnly_covered : LeastIndex 13952 128 (indexSectors 13952 128 64 0 0) ∧
    ∃ layout placed, computeLayout rootOnly.header [{ node := rootOnly.root }] = .ok (layout, placed) ∧
      LeastIndex layout.difatStart layout.entriesPerIndexSector (layout.fatSectors, layout.difatSectors) ∧
        Covers rootOnly placed layout (serialise rootOnly placed layout) := by
  have hall := index_least_and_covering rootOnly [{ node := rootOnly.root }] (.inl rfl)
  obtain ⟨⟨layout, placed⟩, hlayout⟩ := exists_of_isOk
    (by decide +kernel : (computeLayout rootOnly.header [{ node := rootOnly.root }]).isOk = true)
  exact ⟨hall.1 13952 (by decide), layout, placed, hlayout, hall.2 layout placed hlayout⟩

end TheSeed.CfbAllocation
