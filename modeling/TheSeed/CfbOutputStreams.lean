import TheSeed.CfbOutputTree
import TheSeed.CfbJoint

namespace TheSeed.CfbOutputStreams

open Checked BoundedBytes LinkedChain CfbReader CfbWriter CfbResolve CfbJoint CfbAllocation CfbNarrowing CfbRuns CfbLinks
  CfbRegions CfbReadBack CfbOutputTree

/-! The streams of the output lie in one piece each, and the reader finds them there. -/

variable {m check : PackageModel} {entries placed : List Entry} {layout : Layout} {stored : Entry} {s : CfbNode}

theorem appendExtent_touching {start length offset : Nat} (h : start + length = offset) (chunk : Nat) :
    appendExtent [⟨start, length⟩] offset chunk = [⟨start, length + chunk⟩] := by
  rw [appendExtent, List.getLast?_singleton]
  dsimp only
  rw [if_pos h]
  rfl

section run

variable {place : Nat → Nat → Outcome Nat} {unit first count base start length remaining : Nat} {extents : ByteExtents}

/-- Units that follow each other continue the range that they touch. -/
theorem collectExtents_touching
    (hplace : ∀ i < count, ∀ chunk ≤ unit, place (first + i) chunk = .ok (base + i * unit))
    (hunits : ∀ i, i < count ↔ i * unit < remaining) (hpos : 0 < remaining) (hbase : start + length = base)
    (happend : ∀ chunk, appendExtent extents base chunk = [⟨start, length + chunk⟩]) :
    collectExtents place unit (List.range' first count) extents remaining = .ok [⟨start, length + remaining⟩] := by
  induction count generalizing first base extents length remaining with
  | zero =>
      have hnone := hunits 0
      omega
  | succ count ih =>
      have hhere := hplace 0 (Nat.succ_pos _) (min unit remaining) (Nat.min_le_left _ _)
      rw [Nat.add_zero, Nat.zero_mul, Nat.add_zero] at hhere
      rw [List.range'_succ, collectExtents, hhere, ok_bind, happend]
      by_cases hmore : unit < remaining
      · rw [Nat.min_eq_left hmore.le]
        have hrest := @ih (first + 1) (base + unit) (length + unit) (remaining - unit) [⟨start, length + unit⟩]
          (fun i hi chunk hchunk => by
            have hnext := hplace (i + 1) (Nat.succ_lt_succ hi) chunk hchunk
            rw [Nat.succ_mul] at hnext
            rw [Nat.add_assoc first, Nat.add_comm 1 i, hnext, Nat.add_assoc base, Nat.add_comm unit])
          (fun i => by
            have hnext := hunits (i + 1)
            rw [Nat.succ_mul] at hnext
            omega)
          (by omega) (by omega) (appendExtent_touching (by omega))
        rw [hrest]
        have hsum : length + unit + (remaining - unit) = length + remaining := by omega
        rw [hsum]
      · have hlast : count = 0 := by
          have hnext := hunits 1
          omega
        rw [hlast, Nat.min_eq_right (Nat.le_of_not_lt hmore), List.range'_zero]
        rfl

/-- A run of units is one range. -/
theorem collectExtents_run {size : Nat} (hunit : 0 < unit) (hpos : 0 < size)
    (hplace : ∀ i < unitsFor size unit, ∀ chunk ≤ unit, place (first + i) chunk = .ok (base + i * unit)) :
    collectExtents place unit (List.range' first (unitsFor size unit)) [] size = .ok [⟨base, size⟩] := by
  have hrun := @collectExtents_touching place unit first (unitsFor size unit) base base 0 size [] hplace
    (fun i => lt_unitsFor hunit) hpos rfl fun chunk => by rw [Nat.zero_add]; rfl
  rwa [Nat.zero_add] at hrun

end run

/-- The output with its indexes and its mini stream. -/
structure Opened (m : PackageModel) (placed : List Entry) (layout : Layout) (check : PackageModel) : Prop
    extends Indexed m placed layout check where
  miniFat : check.miniFat = (List.range (layout.miniIndexSectors * layout.entriesPerIndexSector)).map fun q =>
    miniIndex placed q % 256 ^ 4
  containerStart : check.miniContainerStart = if layout.miniSectors = 0 then kCfbEndOfChain else layout.miniStreamStart
  containerSize : check.miniContainerSize = layout.miniSectors * kMiniSectorSize

theorem checked_opened (root : CfbNode) : Opened m placed layout (checked m placed layout root) :=
  ⟨checked_indexed root, rfl, rfl, rfl⟩

/-- A stream that was read from an entry. -/
structure StreamOf (stored : Entry) (s : CfbNode) : Prop where
  isStream : stored.node.isStorage = false
  kind : s.isStorage = false
  start : s.startSector = stored.start
  size : s.size = stored.size

/-- Where the bytes of an entry are. -/
def rangesOf (layout : Layout) (stored : Entry) : ByteExtents :=
  if holdsBytes stored then [⟨streamOffset layout stored, stored.size⟩] else []

section written

variable (h : Written m entries placed layout)

include h

/-- The small streams are in the mini stream. -/
theorem placed_inMini (hmem : stored ∈ placed) (hholds : holdsBytes stored = true) :
    stored.inMiniStream = decide (stored.size < m.header.miniStreamCutoff) := by
  obtain ⟨i, hi⟩ := List.getElem?_of_mem hmem
  obtain ⟨entry, hentry, rfl⟩ := placed_of_get h.laidOut hi
  have hfresh := (h.unplaced entry (List.mem_of_getElem? hentry)).1
  rw [holdsBytes, placed_node, placed_size, Bool.not_eq_true', Bool.or_eq_false_iff] at hholds
  rw [placed_size]
  by_cases hcut : entry.size < m.header.miniStreamCutoff
  · have hmini : entry.isMini m.header = true := by
      rw [Entry.isMini, Bool.or_eq_false_iff.2 hholds, decide_eq_false (by omega)]
      rfl
    have hordinary : entry.isOrdinary m.header = false := not_ordinary_of_mini hmini
    rw [placedAt, if_neg (by rw [hordinary]; decide), if_pos hmini, decide_eq_true hcut]
  · have hordinary : entry.isOrdinary m.header = true := by
      rw [Entry.isOrdinary, Bool.or_eq_false_iff.2 hholds, decide_eq_false hcut]
      rfl
    rw [placedAt, if_pos hordinary, decide_eq_false hcut]
    exact hfresh

theorem geometry_of (ho : Output m placed layout check) : Geometry check := by
  have hsize := h.versioned.sector
  have hheader := ho.header
  refine ⟨?_, ?_, ?_⟩
  · rw [hheader]
    omega
  · rw [hheader, h.mini]
    decide
  · rw [hheader, h.mini]
    rcases hsize with hsize | hsize
    · rw [hsize]
      decide
    · rw [hsize]
      decide

variable (ho : Opened m placed layout check)

include ho

theorem isMini_eq (hmem : stored ∈ placed) (hholds : holdsBytes stored = true) (hs : StreamOf stored s) :
    IsMini check s = stored.inMiniStream := by
  rw [placed_inMini h hmem hholds, IsMini, hs.kind, hs.size, ho.header]
  rw [holdsBytes, hs.isStream, Bool.false_or, Bool.not_eq_true', decide_eq_false_iff_not] at hholds
  rw [decide_eq_true hholds]
  rfl

theorem isOrdinary_eq (hmem : stored ∈ placed) (hholds : holdsBytes stored = true) (hs : StreamOf stored s) :
    IsOrdinary check s = !stored.inMiniStream := by
  rw [placed_inMini h hmem hholds, IsOrdinary, hs.kind, hs.size, ho.header]
  rw [holdsBytes, hs.isStream, Bool.false_or, Bool.not_eq_true', decide_eq_false_iff_not] at hholds
  rw [decide_eq_true hholds, decide_not]
  rfl

theorem ordinary_run (hmem : stored ∈ placed) (hholds : holdsBytes stored = true) (hmini : stored.inMiniStream = false)
    (hs : StreamOf stored s) :
    OrdinaryChain check s (List.range' stored.start (unitsFor stored.size check.header.sectorSize))
      [⟨streamOffset layout stored, stored.size⟩] := by
  have hown := ownsSectors_of hholds hmini
  have hpos : 0 < stored.size := by
    rw [holdsBytes, hs.isStream, Bool.false_or, Bool.not_eq_true', decide_eq_false_iff_not] at hholds
    exact Nat.pos_of_ne_zero hholds
  have hsize := sectorSize_eq h.toArranged ho.toOutput
  have hregions := h.regions
  have hbefore := sectors_before h.laidOut hregions hmem hown
  have horder := region_order h.toArranged
  have hstream := hregions.miniStreamStart
  have hunit := h.sectorSize_pos
  have hlimit : stored.start + unitsFor stored.size check.header.sectorSize ≤ layout.totalSectors := by
    rw [ho.header]
    omega
  have hcount : 0 < unitsFor stored.size check.header.sectorSize := by
    rw [hsize]
    exact unitsFor_pos hunit hpos.ne'
  refine ⟨?_, ?_, ?_⟩
  · rw [hs.start]
    apply chain_of_run h.toArranged ho.toIndexed "stream" hcount hlimit
    intro i hlow hhigh
    rw [ho.header] at hhigh ⊢
    exact index_stream hregions h.closing h.laidOut hmem hown hlow hhigh
  · rw [List.length_range', hs.size]
  · rw [hs.size]
    apply collectExtents_run (hsize ▸ hunit) hpos
    intro i hi chunk hchunk
    have hfits := @sector_fits layout (stored.start + i) (by omega)
    apply placeSector_eq_ok.2
    rw [sectorStart_eq h.toArranged ho.toOutput, size_eq ho.toOutput]
    rw [hsize] at hchunk ⊢
    refine ⟨by omega, ?_⟩
    rw [sectorAt_add, streamOffset, if_neg (by rw [hmini]; decide)]

/-- The mini stream is a run too. -/
theorem container_run (hsome : check.miniContainerSize ≠ 0) :
    Chain (check.fatTable "stream") check.miniContainerStart (List.range' layout.miniStreamStart layout.miniStreamSectors) := by
  have hregions := h.regions
  have horder := region_order h.toArranged
  have hindex := hregions.miniIndexStart
  have hunit := h.sectorSize_pos
  rw [hregions.sectorSize] at hunit
  rw [ho.containerSize] at hsome
  have hminis : layout.miniSectors ≠ 0 := by
    intro hnone
    rw [hnone, Nat.zero_mul] at hsome
    exact hsome rfl
  rw [ho.containerStart, if_neg hminis]
  apply chain_of_run h.toArranged ho.toIndexed
  · rw [hregions.miniStreamSectors]
    exact unitsFor_pos hunit hsome
  · omega
  · intro i hlow hhigh
    exact index_miniStream hregions h.closing hlow hhigh

theorem containerSectors_run : containerSectors check = List.range' layout.miniStreamStart layout.miniStreamSectors := by
  have hregions := h.regions
  by_cases hnone : check.miniContainerSize = 0
  · have hzero := ho.containerSize
    rw [hnone] at hzero
    rw [containerSectors, if_pos hnone, hregions.miniStreamSectors, ← hzero, unitsFor, Nat.zero_div, Nat.zero_mod, if_neg]
    · rfl
    · exact fun hne => hne rfl
  · rw [containerSectors, if_neg hnone, visited_chain (container_run h ho hnone)]

theorem checkContainer_run {first count remaining : Nat} (hlimit : first + count ≤ layout.totalSectors) :
    check.checkContainer (List.range' first count) remaining = .ok () := by
  induction count generalizing first remaining with
  | zero => rfl
  | succ count ih =>
      have hfits := @sector_fits layout first (by omega)
      have hplace : check.placeSector first (min check.header.sectorSize remaining) = .ok (check.sectorStart first) := by
        apply placeSector_eq_ok.2
        rw [sectorStart_eq h.toArranged ho.toOutput, size_eq ho.toOutput, sectorSize_eq h.toArranged ho.toOutput]
        exact ⟨by omega, rfl⟩
      rw [List.range'_succ, PackageModel.checkContainer, hplace, ok_bind]
      exact ih (by omega)

theorem container_ok : ContainerOk check := by
  have hregions := h.regions
  have horder := region_order h.toArranged
  have hindex := hregions.miniIndexStart
  have hneeded : unitsFor check.miniContainerSize check.header.sectorSize = layout.miniStreamSectors := by
    rw [ho.containerSize, ho.header, hregions.miniStreamSectors]
  by_cases hnone : check.miniContainerSize = 0
  · exact .inl hnone
  · refine .inr ⟨?_, ?_⟩
    · rw [containerSectors_run h ho]
      exact container_run h ho hnone
    · apply containerChain_eq_ok.2
      rw [containerSectors_run h ho, hneeded, List.length_range']
      refine ⟨rfl, Nat.le_refl _, ?_⟩
      rw [List.take_of_length_le (by rw [List.length_range'])]
      exact checkContainer_run h ho (by omega)

/-- A position in the mini stream is that far from its start. -/
theorem containerPosition_run {position : Nat} (hin : position < layout.miniSectors * kMiniSectorSize) :
    containerPosition check (containerSectors check) position = layout.sectorAt layout.miniStreamStart + position := by
  have hregions := h.regions
  have hunit := h.sectorSize_pos
  have hindex : position / layout.sectorSize < layout.miniStreamSectors := by
    rw [hregions.miniStreamSectors, ← hregions.sectorSize, lt_unitsFor hunit]
    exact (Nat.div_mul_le_self _ _).trans_lt hin
  have hsector : (List.range' layout.miniStreamStart layout.miniStreamSectors).getD (position / layout.sectorSize) 0 =
      layout.miniStreamStart + position / layout.sectorSize := by
    rw [List.getD_eq_getElem _ _ (by rw [List.length_range']; exact hindex), List.getElem_range', Nat.one_mul]
  rw [containerPosition, containerSectors_run h ho, sectorSize_eq h.toArranged ho.toOutput, hsector, sectorStart_eq h.toArranged ho.toOutput,
    sectorAt_add, Nat.add_assoc, Nat.div_add_mod']

theorem mini_run (hmem : stored ∈ placed) (hholds : holdsBytes stored = true) (hmini : stored.inMiniStream = true)
    (hs : StreamOf stored s) :
    MiniChain check s (List.range' stored.start (unitsFor stored.size check.header.miniSectorSize))
      [⟨streamOffset layout stored, stored.size⟩] := by
  have hown := ownsMinis_of hholds hmini
  have hpos : 0 < stored.size := by
    rw [holdsBytes, hs.isStream, Bool.false_or, Bool.not_eq_true', decide_eq_false_iff_not] at hholds
    exact Nat.pos_of_ne_zero hholds
  have hunit : check.header.miniSectorSize = kMiniSectorSize := by rw [ho.header, h.mini]
  have hregions := h.regions
  have hfit := h.minis_fit hmem hown
  have hindexed : layout.miniSectors ≤ layout.miniIndexSectors * layout.entriesPerIndexSector := by
    rw [hregions.miniIndexSectors, hregions.perSector]
    exact unitsFor_covers (by rw [← hregions.perSector]; exact Nat.lt_trans Nat.one_pos h.perSector_pos)
  have hcount : 0 < unitsFor stored.size kMiniSectorSize := unitsFor_pos (by decide) hpos.ne'
  have hnumbers := h.few
  rw [hunit]
  refine ⟨?_, ?_, ?_⟩
  · rw [hs.start]
    apply Chain.run hcount
    · intro q hlow hhigh
      have hstop : check.miniFatTable.stop = kCfbEndOfChain := rfl
      omega
    · intro q hlow hhigh
      rw [PackageModel.miniFatTable]
      dsimp only
      rw [ho.miniFat, List.length_map, List.length_range, rejectIf_of_not (by omega)]
    · intro q hlow hhigh
      have hentry : check.miniFat.getD q 0 = miniIndex placed q % 256 ^ 4 := by
        rw [ho.miniFat, List.getD_eq_getElem?_getD, List.getElem?_map, List.getElem?_range (by omega)]
        rfl
      rw [PackageModel.miniFatTable]
      dsimp only
      rw [hentry, index_mini h.laidOut h.unplaced h.minis hmem hown hlow hhigh, follower]
      rw [kCfbEndOfChain] at hnumbers ⊢
      split
      · rfl
      · rw [Nat.mod_mod_of_dvd _ (by decide), Nat.mod_eq_of_lt (by omega)]
  · rw [List.length_range', hs.size, hunit]
  · rw [hs.size, hunit]
    apply collectExtents_run (by decide) hpos
    intro i hi chunk hchunk
    have hunits : (stored.start + i + 1) * kMiniSectorSize ≤ layout.miniSectors * kMiniSectorSize :=
      Nat.mul_le_mul_right _ (by omega)
    rw [Nat.succ_mul] at hunits
    apply placeMiniSector_eq_ok.2
    rw [hunit, ho.containerSize]
    refine ⟨by omega, ?_⟩
    rw [containerPosition_run h ho, streamOffset, if_pos hmini, Nat.add_mul, Nat.add_assoc]
    have hsize : 0 < kMiniSectorSize := by decide
    omega

/-- The reader finds each stream in one piece, and its bytes are those that were meant. -/
theorem stream_alone (hmem : stored ∈ placed) (hs : StreamOf stored s) :
    (check.resolve s {}).1 = .ok (rangesOf layout stored) ∧
      extentBytes check.source.bytes (rangesOf layout stored) = stored.pieces.flatten := by
  rw [rangesOf]
  by_cases hholds : holdsBytes stored = true
  · have hbytes := h.stream_bytes hmem hholds
    rw [if_pos hholds]
    refine ⟨?_, ?_⟩
    · cases hmini : stored.inMiniStream with
      | false =>
          have hordinary : IsOrdinary check s = true := by
            rw [isOrdinary_eq h ho hmem hholds hs, hmini]
            rfl
          exact (ordinary_alone hordinary).2 ⟨_, ordinary_run h ho hmem hholds hmini hs⟩
      | true =>
          have hsmall : IsMini check s = true := by
            rw [isMini_eq h ho hmem hholds hs, hmini]
          exact (mini_alone (geometry_of h ho.toOutput) hsmall).2
            ⟨container_ok h ho, _, mini_run h ho hmem hholds hmini hs⟩
    · rw [extentBytes, List.flatMap_singleton, ho.source]
      exact hbytes
  · have hempty : stored.size = 0 := by
      rw [holdsBytes, hs.isStream, Bool.false_or, Bool.not_eq_true', decide_eq_false_iff_not, not_not] at hholds
      exact hholds
    have hdata := h.placed_sized hmem hs.isStream
    rw [if_neg hholds]
    refine ⟨?_, ?_⟩
    · rw [PackageModel.resolve, if_pos (.inr (hs.size.trans hempty))]
    · rw [hempty] at hdata
      exact (List.eq_nil_of_length_eq_zero hdata.symm).symm

end written

end TheSeed.CfbOutputStreams
