import TheSeed.CfbAllocation
import TheSeed.CfbLinks
import TheSeed.CfbRuns
import TheSeed.CfbSlots

namespace TheSeed.CfbRegions

open Bytes Checked BoundedBytes CfbReader CfbResolve CfbWriter CfbHeader CfbNarrowing CfbAllocation CfbRuns CfbLinks

/-! The output is made of regions that do not meet, so each of them can be read back whole. -/

variable {m : PackageModel} {entries placed : List Entry} {layout : Layout} {stored other : Entry}

/-- Entries with the layout that is computed for them. -/
structure Arranged (m : PackageModel) (entries placed : List Entry) (layout : Layout) : Prop where
  laidOut : computeLayout m.header entries = .ok (layout, placed)
  versioned : Versioned m.header
  minor : m.header.minorVersion < 2 ^ 16
  mini : m.header.miniSectorSize = kMiniSectorSize

/-- Entries whose numbers have room in the fields that hold them. -/
structure Written (m : PackageModel) (entries placed : List Entry) (layout : Layout) : Prop
    extends Arranged m entries placed layout where
  unplaced : Unplaced entries
  sized : ∀ entry ∈ entries, entry.node.isStorage = false → entry.size = entry.pieces.flatten.length
  few : layout.miniSectors ≤ kCfbEndOfChain
  small : layout.miniSectors * kMiniSectorSize < if m.header.majorVersion = 4 then 2 ^ 64 else 2 ^ 32
  sizes : ∀ entry ∈ entries, entry.node.isStorage = false → entry.size < if m.header.majorVersion = 4 then 2 ^ 64 else 2 ^ 32

/-- The entries with the trees of their storages. -/
def linked (placed : List Entry) : List Entry := linkTrees (List.range placed.length) placed

def holdsBytes (entry : Entry) : Bool := !(entry.node.isStorage || entry.size = 0)

def streamOffset (layout : Layout) (entry : Entry) : Nat :=
  if entry.inMiniStream then layout.sectorAt layout.miniStreamStart + entry.start * kMiniSectorSize
  else layout.sectorAt entry.start

def streamWrites (layout : Layout) (entries : List Entry) : List (Nat × List UInt8) :=
  (entries.filter holdsBytes).map fun entry => (streamOffset layout entry, entry.pieces.flatten)

def regionWrites (m : PackageModel) (placed : List Entry) (layout : Layout) : List (Nat × List UInt8) := [
  (layout.sectorAt layout.miniIndexStart,
    indexBytes (miniIndex placed) (layout.miniIndexSectors * layout.entriesPerIndexSector)),
  (layout.sectorAt layout.directoryStart, directoryBytes (linked placed) layout),
  (layout.sectorAt layout.fatStart,
    indexBytes (allocationIndex placed layout) (layout.fatSectors * layout.entriesPerIndexSector)),
  (layout.sectorAt layout.difatStart, (List.range layout.difatSectors).flatMap (difatSectorBytes layout)),
  (0, headerBytes m layout)]

theorem writeStreams_eq (layout : Layout) (entries : List Entry) (out : List UInt8) :
    writeStreams layout entries out = overwriteAll out (streamWrites layout entries) := by
  rw [writeStreams]
  induction entries generalizing out with
  | nil => rfl
  | cons entry entries ih =>
      rw [List.foldl_cons, ih, streamWrites, streamWrites]
      by_cases h : holdsBytes entry = true
      · have hnot : (entry.node.isStorage || decide (entry.size = 0)) = false := by
          rwa [holdsBytes, Bool.not_eq_true'] at h
        rw [List.filter_cons_of_pos h, List.map_cons, overwriteAll_cons, hnot, streamOffset]
        by_cases hmini : entry.inMiniStream = true
        · rw [if_pos hmini, if_pos hmini, if_neg (by decide)]
        · rw [if_neg hmini, if_neg hmini, if_neg (by decide)]
      · have hskip : (entry.node.isStorage || decide (entry.size = 0)) = true := by
          rw [holdsBytes, Bool.not_eq_true', Bool.not_eq_false] at h
          exact h
        rw [List.filter_cons_of_neg h, hskip, if_pos rfl]

/-- The slot of the directory with the given number. -/
def slotAt (entries : List Entry) (layout : Layout) (i : Nat) : List UInt8 :=
  entries[i]?.elim writeUnusedEntry fun entry => writeDirectoryEntry entry (i = 0) layout

theorem length_slotAt (entries : List Entry) (layout : Layout) (i : Nat) :
    (slotAt entries layout i).length = kDirEntrySize := by
  rw [slotAt]
  cases entries[i]? with
  | none => rw [Option.elim_none, CfbSlots.length_unused]
  | some entry => rw [Option.elim_some, CfbSlots.length_slot]

theorem directoryBytes_eq (entries : List Entry) (layout : Layout) : directoryBytes entries layout =
    (List.range (layout.directorySectors * (layout.sectorSize / kDirEntrySize))).flatMap (slotAt entries layout) := by
  rw [directoryBytes]
  congr 1
  funext i
  rw [slotAt]
  cases entries[i]? with
  | none => simp only [Option.elim_none]
  | some entry => simp only [Option.elim_some]

theorem linked_bare (placed : List Entry) : (linked placed).map bare = placed.map bare :=
  linkTrees_bare _ _

theorem serialise_eq (m : PackageModel) (placed : List Entry) (layout : Layout) : serialise m placed layout =
    overwriteAll (List.replicate (layout.headerSize + layout.totalSectors * layout.sectorSize) 0)
      (streamWrites layout placed ++ regionWrites m placed layout) := by
  rw [serialise, writeStreams_of_bare (linkTrees_bare _ _), miniIndex_of_bare (linkTrees_bare _ _),
    allocationIndex_of_bare (linkTrees_bare _ _), writeStreams_eq]
  simp only [overwriteAll, regionWrites, List.foldl_append, List.foldl_cons, List.foldl_nil]
  rfl

/-! Where each region lies -/

/-- A write inside the sectors from `a` to `b`. -/
structure Inside (layout : Layout) (a b : Nat) (write : Nat × List UInt8) : Prop where
  start : layout.sectorAt a ≤ write.1
  stop : write.1 + write.2.length ≤ layout.sectorAt b

theorem sectorAt_mono {a b : Nat} (h : a ≤ b) : layout.sectorAt a ≤ layout.sectorAt b := by
  rw [Layout.sectorAt, Layout.sectorAt]
  exact Nat.add_le_add_left (Nat.mul_le_mul_right _ h) _

theorem Inside.before {a b c d : Nat} {first second : Nat × List UInt8} (h : Inside layout a b first)
    (h' : Inside layout c d second) (hle : b ≤ c) : first.1 + first.2.length ≤ second.1 :=
  (h.stop.trans (sectorAt_mono hle)).trans h'.start

theorem Inside.mono {a b c d : Nat} {write : Nat × List UInt8} (h : Inside layout a b write) (hc : c ≤ a) (hd : b ≤ d) :
    Inside layout c d write :=
  ⟨(sectorAt_mono hc).trans h.start, h.stop.trans (sectorAt_mono hd)⟩

/-- A region of whole sectors. -/
theorem Inside.of_length {a count : Nat} {data : List UInt8} (h : data.length = count * layout.sectorSize) :
    Inside layout a (a + count) (layout.sectorAt a, data) := by
  refine ⟨Nat.le_refl _, ?_⟩
  rw [sectorAt_add, h]

section arranged

variable (h : Arranged m entries placed layout)

include h

theorem Arranged.regions : Regions m.header entries layout := regions_of_computeLayout h.laidOut

theorem Arranged.closing : Closing layout := (closing_of_computeLayout h.versioned.sector h.laidOut).1

theorem Arranged.perSector : layout.entriesPerIndexSector = m.header.sectorSize / 4 :=
  (closing_of_computeLayout h.versioned.sector h.laidOut).2

theorem Arranged.perSector_pos : 1 < layout.entriesPerIndexSector := by
  rw [h.perSector]
  rcases h.versioned.sector with hsize | hsize <;> rw [hsize] <;> decide

theorem Arranged.sector : layout.sectorSize = 512 ∨ layout.sectorSize = 4096 := by
  rw [h.regions.sectorSize]
  exact h.versioned.sector

theorem Arranged.sectorSize_pos : 0 < layout.sectorSize := by
  rcases h.sector with hsize | hsize <;> omega

theorem Arranged.length_eq : placed.length = entries.length := by
  obtain ⟨-, -, rfl⟩ := computeLayout_eq_ok.1 h.laidOut
  rw [placeMini, placeOrdinary, length_placeEntries, length_placeEntries]

end arranged

section streams

variable (h : Written m entries placed layout)

include h

theorem Written.minis : miniBefore m.header entries entries.length < 2 ^ 32 := by
  have hfew := h.few
  rw [h.regions.miniSectors, kCfbEndOfChain] at hfew
  omega

theorem Written.placed_sized (hmem : stored ∈ placed) (hs : stored.node.isStorage = false) :
    stored.size = stored.pieces.flatten.length := by
  obtain ⟨i, hi⟩ := List.getElem?_of_mem hmem
  obtain ⟨entry, hentry, rfl⟩ := placed_of_get h.laidOut hi
  have hsized := h.sized entry (List.mem_of_getElem? hentry)
  rw [placedAt] at hs ⊢
  split_ifs at hs ⊢ <;> exact hsized hs

theorem Written.data (hmem : stored ∈ placed) (hholds : holdsBytes stored = true) :
    stored.pieces.flatten.length = stored.size := by
  have hs : stored.node.isStorage = false := by
    rw [holdsBytes, Bool.not_eq_true', Bool.or_eq_false_iff] at hholds
    exact hholds.1
  exact (h.placed_sized hmem hs).symm

omit h in
theorem ownsSectors_of (hholds : holdsBytes stored = true) (hmini : stored.inMiniStream = false) :
    ownsSectors stored = true := by
  rw [holdsBytes, Bool.not_eq_true', Bool.or_eq_false_iff, decide_eq_false_iff_not] at hholds
  simp [ownsSectors, hholds.1, hholds.2, hmini]

omit h in
theorem ownsMinis_of (hholds : holdsBytes stored = true) (hmini : stored.inMiniStream = true) :
    ownsMinis stored = true := by
  rw [ownsMinis, hmini, Bool.and_true]
  exact hholds

/-- A stream of its own sectors. -/
theorem Written.inside_sectors (hmem : stored ∈ placed) (hholds : holdsBytes stored = true)
    (hmini : stored.inMiniStream = false) :
    Inside layout stored.start (stored.start + unitsFor stored.size layout.sectorSize)
      (streamOffset layout stored, stored.pieces.flatten) := by
  have hlength := h.data hmem hholds
  have hcovers := @unitsFor_covers stored.size layout.sectorSize h.sectorSize_pos
  have hoffset : streamOffset layout stored = layout.sectorAt stored.start := by
    rw [streamOffset, if_neg (by rw [hmini]; decide)]
  refine ⟨hoffset.ge, ?_⟩
  dsimp only
  rw [hoffset, sectorAt_add, hlength]
  omega

/-- The mini sectors of a stream lie among all mini sectors. -/
theorem Written.minis_fit (hmem : stored ∈ placed) (hown : ownsMinis stored = true) :
    stored.start + unitsFor stored.size kMiniSectorSize ≤ layout.miniSectors := by
  obtain ⟨i, hi⟩ := List.getElem?_of_mem hmem
  obtain ⟨entry, hentry, rfl⟩ := placed_of_get h.laidOut hi
  obtain ⟨hmini, hstart⟩ := mini_of_owns h.unplaced hentry hown
  have hlt : miniBefore m.header entries i < 2 ^ 32 := (unitsBefore_le i).trans_lt h.minis
  rw [hstart, Nat.mod_eq_of_lt hlt, placed_size, h.regions.miniSectors]
  exact unitsBefore_add_le hentry hmini (List.getElem?_eq_some_iff.1 hentry).1

theorem Written.inside_minis (hmem : stored ∈ placed) (hholds : holdsBytes stored = true)
    (hmini : stored.inMiniStream = true) :
    Inside layout layout.miniStreamStart (layout.miniStreamStart + layout.miniStreamSectors)
      (streamOffset layout stored, stored.pieces.flatten) := by
  have hlength := h.data hmem hholds
  have hfit := h.minis_fit hmem (ownsMinis_of hholds hmini)
  have hcovers := @unitsFor_covers stored.size kMiniSectorSize (by decide)
  have hall := @unitsFor_covers (layout.miniSectors * kMiniSectorSize) layout.sectorSize h.sectorSize_pos
  have hsectors : layout.miniStreamSectors = unitsFor (layout.miniSectors * kMiniSectorSize) layout.sectorSize := by
    rw [h.regions.miniStreamSectors, h.regions.sectorSize]
  have hoffset : streamOffset layout stored =
      layout.sectorAt layout.miniStreamStart + stored.start * kMiniSectorSize := by
    rw [streamOffset, if_pos hmini]
  rw [← hsectors] at hall
  have hunits := Nat.mul_le_mul_right kMiniSectorSize hfit
  rw [Nat.add_mul] at hunits
  refine ⟨?_, ?_⟩
  · dsimp only
    rw [hoffset]
    exact Nat.le_add_right _ _
  · dsimp only
    rw [hoffset, sectorAt_add, hlength]
    omega

theorem Written.inside_stream (hmem : stored ∈ placed) (hholds : holdsBytes stored = true) :
    Inside layout 0 layout.miniIndexStart (streamOffset layout stored, stored.pieces.flatten) := by
  have hstream := h.regions.miniStreamStart
  have hindex := h.regions.miniIndexStart
  by_cases hmini : stored.inMiniStream = true
  · apply (h.inside_minis hmem hholds hmini).mono (Nat.zero_le _)
    omega
  · rw [Bool.not_eq_true] at hmini
    apply (h.inside_sectors hmem hholds hmini).mono (Nat.zero_le _)
    have hbefore := sectors_before h.laidOut h.regions hmem (ownsSectors_of hholds hmini)
    rw [h.regions.sectorSize]
    omega

/-- Two streams do not meet, one of them the earlier in the directory. -/
theorem Written.streams_apart : (streamWrites layout placed).Pairwise fun a b =>
    a.1 + a.2.length ≤ b.1 ∨ b.1 + b.2.length ≤ a.1 := by
  rw [streamWrites, List.pairwise_map]
  have hsectors := sectors_apart h.laidOut layout.sectorSize h.regions.sectorSize
  have hminis := minis_apart h.laidOut h.unplaced h.minis
  have hboth := (hsectors.and hminis).filter holdsBytes
  refine hboth.imp_of_mem fun {a b} ha hb hab => ?_
  obtain ⟨hmem, hholds⟩ := List.mem_filter.1 ha
  obtain ⟨hmem', hholds'⟩ := List.mem_filter.1 hb
  have hstart := h.regions.miniStreamStart
  cases hmini : a.inMiniStream with
  | false =>
      have hown := ownsSectors_of hholds hmini
      have hbefore := sectors_before h.laidOut h.regions hmem hown
      rw [← h.regions.sectorSize] at hbefore
      cases hmini' : b.inMiniStream with
      | false =>
          left
          exact (h.inside_sectors hmem hholds hmini).before (h.inside_sectors hmem' hholds' hmini')
            (hab.1 hown (ownsSectors_of hholds' hmini'))
      | true =>
          left
          exact (h.inside_sectors hmem hholds hmini).before (h.inside_minis hmem' hholds' hmini') (by omega)
  | true =>
      cases hmini' : b.inMiniStream with
      | false =>
          right
          have hbefore := sectors_before h.laidOut h.regions hmem' (ownsSectors_of hholds' hmini')
          rw [← h.regions.sectorSize] at hbefore
          exact (h.inside_sectors hmem' hholds' hmini').before (h.inside_minis hmem hholds hmini) (by omega)
      | true =>
          left
          have hafter := hab.2 (ownsMinis_of hholds hmini) (ownsMinis_of hholds' hmini')
          have hcovers := @unitsFor_covers a.size kMiniSectorSize (by decide)
          have hunits := Nat.mul_le_mul_right kMiniSectorSize hafter
          rw [Nat.add_mul] at hunits
          dsimp only
          rw [streamOffset, streamOffset, if_pos hmini, if_pos hmini', h.data hmem hholds]
          omega

end streams

/-! The other regions follow each other behind the streams -/

section regions

variable (h : Arranged m entries placed layout)

include h

theorem Arranged.slots_fill : layout.sectorSize / kDirEntrySize * kDirEntrySize = layout.sectorSize := by
  rcases h.sector with hsize | hsize <;> rw [hsize] <;> rfl

theorem Arranged.length_directory (entries : List Entry) :
    (directoryBytes entries layout).length = layout.directorySectors * layout.sectorSize := by
  have hconst : (List.range (layout.directorySectors * (layout.sectorSize / kDirEntrySize))).map
      (fun i => (slotAt entries layout i).length) =
      (List.range (layout.directorySectors * (layout.sectorSize / kDirEntrySize))).map fun _ => kDirEntrySize :=
    List.map_congr_left fun i _ => length_slotAt entries layout i
  rw [directoryBytes_eq, List.length_flatMap, hconst, List.map_const', List.length_range, List.sum_replicate, smul_eq_mul,
    Nat.mul_assoc, h.slots_fill]

theorem Arranged.inside_miniIndex : Inside layout layout.miniIndexStart layout.directoryStart
    (layout.sectorAt layout.miniIndexStart,
      indexBytes (miniIndex placed) (layout.miniIndexSectors * layout.entriesPerIndexSector)) := by
  rw [h.regions.directoryStart]
  apply Inside.of_length
  rw [length_indexBytes, h.closing.index_bytes]

theorem Arranged.inside_directory : Inside layout layout.directoryStart layout.difatStart
    (layout.sectorAt layout.directoryStart, directoryBytes (linked placed) layout) := by
  rw [h.regions.difatStart]
  apply Inside.of_length
  exact h.length_directory _

theorem Arranged.inside_difat : Inside layout layout.difatStart layout.fatStart
    (layout.sectorAt layout.difatStart, (List.range layout.difatSectors).flatMap (difatSectorBytes layout)) := by
  rw [h.closing.fatStart]
  apply Inside.of_length
  exact h.closing.length_difat h.perSector_pos

theorem Arranged.inside_fat : Inside layout layout.fatStart layout.totalSectors
    (layout.sectorAt layout.fatStart,
      indexBytes (allocationIndex placed layout) (layout.fatSectors * layout.entriesPerIndexSector)) := by
  rw [h.closing.total]
  apply Inside.of_length
  rw [length_indexBytes, h.closing.index_bytes]

theorem Arranged.headerSize_le (a : Nat) : 512 ≤ layout.sectorAt a := by
  have hheader := h.closing.header
  rw [Layout.sectorAt]
  omega

theorem Arranged.order : layout.miniIndexStart ≤ layout.directoryStart ∧ layout.directoryStart ≤ layout.difatStart ∧
    layout.difatStart ≤ layout.fatStart ∧ layout.fatStart ≤ layout.totalSectors := by
  have hdirectory := h.regions.directoryStart
  have hdifat := h.regions.difatStart
  have hfat := h.closing.fatStart
  have htotal := h.closing.total
  omega

theorem Arranged.regions_inside : ∀ write ∈ regionWrites m placed layout,
    write = (0, headerBytes m layout) ∨ Inside layout layout.miniIndexStart layout.totalSectors write := by
  obtain ⟨hmini, hdirectory, hdifat, hfat⟩ := h.order
  rw [regionWrites]
  simp only [List.forall_mem_cons, List.not_mem_nil, false_imp_iff, implies_true, and_true]
  refine ⟨.inr ?_, .inr ?_, .inr ?_, .inr ?_, .inl trivial⟩
  · exact h.inside_miniIndex.mono (Nat.le_refl _) (by omega)
  · exact h.inside_directory.mono hmini (by omega)
  · exact h.inside_fat.mono (by omega) (Nat.le_refl _)
  · exact h.inside_difat.mono (by omega) hfat

theorem Arranged.regions_apart : (regionWrites m placed layout).Pairwise fun a b =>
    a.1 + a.2.length ≤ b.1 ∨ b.1 + b.2.length ≤ a.1 := by
  obtain ⟨hmini, hdirectory, hdifat, hfat⟩ := h.order
  have hheader : ∀ a, 0 + (headerBytes m layout).length ≤ layout.sectorAt a := by
    intro a
    rw [length_headerBytes, Nat.zero_add]
    exact h.headerSize_le a
  rw [regionWrites]
  simp only [List.pairwise_cons, List.forall_mem_cons, List.not_mem_nil, false_imp_iff, implies_true, and_true,
    List.Pairwise.nil]
  refine ⟨⟨.inl ?_, .inl ?_, .inl ?_, .inr (hheader _)⟩, ⟨.inl ?_, .inl ?_, .inr (hheader _)⟩, ⟨.inr ?_, .inr (hheader _)⟩,
    .inr (hheader _)⟩
  · exact h.inside_miniIndex.before h.inside_directory (Nat.le_refl _)
  · exact h.inside_miniIndex.before h.inside_fat (by omega)
  · exact h.inside_miniIndex.before h.inside_difat hdirectory
  · exact h.inside_directory.before h.inside_fat hdifat
  · exact h.inside_directory.before h.inside_difat (Nat.le_refl _)
  · exact h.inside_difat.before h.inside_fat (Nat.le_refl _)

theorem Arranged.regions_fit : ∀ write ∈ regionWrites m placed layout,
    write.1 + write.2.length ≤ layout.sectorAt layout.totalSectors := by
  intro write hw
  rcases h.regions_inside write hw with rfl | hinside
  · rw [length_headerBytes, Nat.zero_add]
    exact h.headerSize_le _
  · exact hinside.stop

/-- Every region behind the streams stands in the output as it was meant. -/
theorem Arranged.region {offset length : Nat} {data : List UInt8} (hw : (offset, data) ∈ regionWrites m placed layout)
    (hlength : data.length = length) : slice (serialise m placed layout) offset length = data := by
  subst hlength
  have hlater : serialise m placed layout = overwriteAll (overwriteAll
      (List.replicate (layout.headerSize + layout.totalSectors * layout.sectorSize) 0) (streamWrites layout placed))
      (regionWrites m placed layout) := (serialise_eq m placed layout).trans List.foldl_append
  rw [hlater]
  apply slice_overwriteAll_apart h.regions_apart _ hw
  rw [length_overwriteAll, List.length_replicate]
  exact h.regions_fit

theorem Arranged.miniIndex_entry {i j : Nat} (hi : i < layout.miniIndexSectors) (hj : j < layout.entriesPerIndexSector) :
    slice (serialise m placed layout) (layout.sectorAt (layout.miniIndexStart + i) + 4 * j) 4 =
      leBytes 4 (miniIndex placed (i * layout.entriesPerIndexSector + j)) := by
  have hregion : slice (serialise m placed layout) (layout.sectorAt layout.miniIndexStart)
      (4 * (layout.miniIndexSectors * layout.entriesPerIndexSector)) =
      indexBytes (miniIndex placed) (layout.miniIndexSectors * layout.entriesPerIndexSector) :=
    h.region List.mem_cons_self (length_indexBytes _ _)
  have hposition : i * layout.entriesPerIndexSector + j < layout.miniIndexSectors * layout.entriesPerIndexSector := by
    calc i * layout.entriesPerIndexSector + j < (i + 1) * layout.entriesPerIndexSector := by
          rw [Nat.succ_mul]
          omega
      _ ≤ layout.miniIndexSectors * layout.entriesPerIndexSector := Nat.mul_le_mul_right _ hi
  have hentry := slice_indexBytes (miniIndex placed) hposition
  rw [← hregion, slice_slice (by omega)] at hentry
  have hoffset : layout.sectorAt (layout.miniIndexStart + i) + 4 * j =
      layout.sectorAt layout.miniIndexStart + 4 * (i * layout.entriesPerIndexSector + j) := by
    rw [sectorAt_add, ← h.closing.index_bytes]
    omega
  rw [hoffset, hentry]

/-- The slot of each entry of the directory. -/
theorem Arranged.slot {i j : Nat} (hi : i < layout.directorySectors) (hj : j < layout.sectorSize / kDirEntrySize) :
    slice (serialise m placed layout) (layout.sectorAt (layout.directoryStart + i) + j * kDirEntrySize) kDirEntrySize =
      slotAt (linked placed) layout (i * (layout.sectorSize / kDirEntrySize) + j) := by
  have hregion : slice (serialise m placed layout) (layout.sectorAt layout.directoryStart)
      (layout.directorySectors * layout.sectorSize) = directoryBytes (linked placed) layout :=
    h.region (List.mem_cons_of_mem _ List.mem_cons_self) (h.length_directory _)
  have hposition : i * (layout.sectorSize / kDirEntrySize) + j <
      layout.directorySectors * (layout.sectorSize / kDirEntrySize) := by
    calc i * (layout.sectorSize / kDirEntrySize) + j < (i + 1) * (layout.sectorSize / kDirEntrySize) := by
          rw [Nat.succ_mul]
          omega
      _ ≤ layout.directorySectors * (layout.sectorSize / kDirEntrySize) := Nat.mul_le_mul_right _ hi
  have hslot := slice_flatMap_range (length_slotAt (linked placed) layout) hposition
  have hfit : (i * (layout.sectorSize / kDirEntrySize) + j) * kDirEntrySize + kDirEntrySize ≤
      layout.directorySectors * layout.sectorSize := by
    calc (i * (layout.sectorSize / kDirEntrySize) + j) * kDirEntrySize + kDirEntrySize
        = (i * (layout.sectorSize / kDirEntrySize) + j + 1) * kDirEntrySize := by rw [Nat.succ_mul]
      _ ≤ layout.directorySectors * (layout.sectorSize / kDirEntrySize) * kDirEntrySize :=
          Nat.mul_le_mul_right _ hposition
      _ = layout.directorySectors * layout.sectorSize := by rw [Nat.mul_assoc, h.slots_fill]
  rw [directoryBytes_eq] at hregion
  rw [← hregion, slice_slice hfit] at hslot
  have hoffset : layout.sectorAt (layout.directoryStart + i) + j * kDirEntrySize =
      layout.sectorAt layout.directoryStart + (i * (layout.sectorSize / kDirEntrySize) + j) * kDirEntrySize := by
    rw [sectorAt_add, Nat.add_mul, Nat.mul_assoc i, h.slots_fill]
    omega
  rw [hoffset, hslot]

end regions

section written

variable (h : Written m entries placed layout)

include h

theorem Written.stream_write {write : Nat × List UInt8} (hw : write ∈ streamWrites layout placed) :
    Inside layout 0 layout.miniIndexStart write := by
  rw [streamWrites, List.mem_map] at hw
  obtain ⟨stored, hstored, rfl⟩ := hw
  obtain ⟨hmem, hholds⟩ := List.mem_filter.1 hstored
  exact h.inside_stream hmem hholds

theorem Written.writes_apart : (streamWrites layout placed ++ regionWrites m placed layout).Pairwise fun a b =>
    a.1 + a.2.length ≤ b.1 ∨ b.1 + b.2.length ≤ a.1 := by
  apply List.pairwise_append.2 ⟨h.streams_apart, h.regions_apart, _⟩
  intro a ha b hb
  have hstream := h.stream_write ha
  rcases h.regions_inside b hb with rfl | hb
  · right
    rw [length_headerBytes, Nat.zero_add]
    exact (h.headerSize_le 0).trans hstream.start
  · left
    exact hstream.before hb (Nat.le_refl _)

theorem Written.writes_fit : ∀ write ∈ streamWrites layout placed ++ regionWrites m placed layout,
    write.1 + write.2.length ≤ layout.sectorAt layout.totalSectors := by
  obtain ⟨hmini, hdirectory, hdifat, hfat⟩ := h.order
  intro write hw
  rcases List.mem_append.1 hw with hw | hw
  · exact ((h.stream_write hw).mono (Nat.le_refl _) (by omega)).stop
  · exact h.regions_fit write hw

/-- Every region stands in the output as it was meant. -/
theorem Written.region {offset length : Nat} {data : List UInt8}
    (hw : (offset, data) ∈ streamWrites layout placed ++ regionWrites m placed layout) (hlength : data.length = length) :
    slice (serialise m placed layout) offset length = data := by
  subst hlength
  rw [serialise_eq]
  apply slice_overwriteAll_apart h.writes_apart _ hw
  rw [List.length_replicate]
  exact h.writes_fit

theorem Written.stream_bytes (hmem : stored ∈ placed) (hholds : holdsBytes stored = true) :
    slice (serialise m placed layout) (streamOffset layout stored) stored.size = stored.pieces.flatten := by
  apply h.region _ (h.data hmem hholds)
  apply List.mem_append_left
  exact List.mem_map_of_mem (List.mem_filter.2 ⟨hmem, hholds⟩)

end written

theorem length_out : (serialise m placed layout).length = layout.sectorAt layout.totalSectors := by
  rw [length_serialise, Layout.sectorAt]

end TheSeed.CfbRegions
