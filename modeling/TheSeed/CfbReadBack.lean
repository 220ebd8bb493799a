import TheSeed.CfbRegions

namespace TheSeed.CfbReadBack

open Bytes Checked BoundedBytes LinkedChain CfbReader CfbResolve CfbWriter CfbHeader CfbNarrowing CfbAllocation CfbRuns
  CfbLinks CfbSlots CfbRegions

/-! The reader on what the writer wrote: the header, the two indexes and the directory come back as they were
laid out. -/

variable {m check : PackageModel} {entries placed : List Entry} {layout : Layout}

/-- The output as the reader sees it. -/
def outputSpan (m : PackageModel) (placed : List Entry) (layout : Layout) : ByteSpan :=
  ⟨serialise m placed layout, kFormat, "the file"⟩

/-- A model of the output whose header has been read. -/
structure Output (m : PackageModel) (placed : List Entry) (layout : Layout) (check : PackageModel) : Prop where
  source : check.source = outputSpan m placed layout
  header : check.header = m.header

section numbers

variable (h : Arranged m entries placed layout)

include h

theorem sectors_lt : layout.totalSectors < 2 ^ 32 := by
  have hfew := h.closing.few
  rw [kCfbMaxSectors] at hfew
  omega

theorem sector_numbers : layout.totalSectors < kCfbEndOfChain := by
  have hfew := h.closing.few
  rw [kCfbMaxSectors] at hfew
  rw [kCfbEndOfChain]
  omega

theorem region_order : layout.miniStreamStart ≤ layout.miniIndexStart ∧
    layout.miniIndexStart + layout.miniIndexSectors = layout.directoryStart ∧
    layout.directoryStart + layout.directorySectors = layout.difatStart ∧
    layout.difatStart + layout.difatSectors = layout.fatStart ∧
    layout.fatStart + layout.fatSectors = layout.totalSectors := by
  have hindex := h.regions.miniIndexStart
  have hdirectory := h.regions.directoryStart
  have hdifat := h.regions.difatStart
  have hfat := h.closing.fatStart
  have htotal := h.closing.total
  omega

end numbers

/-! The header -/

section header

variable (h : Arranged m entries placed layout)

include h

/-- A number of the header of the output. -/
theorem header_read {offset width value : Nat} (hfield : (offset, leBytes width value) ∈ headerFields m layout)
    (hvalue : value < 256 ^ width) (what : String) :
    (outputSpan m placed layout).read width offset .little what = .ok value := by
  have hlong := h.closing.header
  have hfit := headerFields_fit m layout _ hfield
  rw [length_leBytes] at hfit
  rw [read_little, outputSpan, slice_serialise_field hfield (length_leBytes _ _) hlong, leValue_leBytes_of_lt hvalue]
  rw [outputSpan, length_out, Layout.sectorAt]
  omega

theorem magic : checkMagic (outputSpan m placed layout) = .ok () := by
  have hlong := h.closing.header
  have hmagic : slice (serialise m placed layout) 0 8 = kMagic :=
    slice_serialise_field List.mem_cons_self rfl hlong
  have hvalues : ∀ i < 8, leValue (slice kMagic i 1) = (kMagic.getD i 0).toNat := by decide
  rw [checkMagic]
  apply forM_ok
  intro i hi
  have hi := List.mem_range.1 hi
  have hone : slice (serialise m placed layout) i 1 = slice kMagic i 1 := by
    rw [← hmagic, slice_slice (by omega), Nat.zero_add]
  rw [read_little, outputSpan, hone, hvalues i hi, ok_bind]
  · apply rejectIf_of_not
    exact fun hne => hne rfl
  · rw [outputSpan, length_out, Layout.sectorAt]
    omega

/-- The output after its header was read. -/
def headed (m : PackageModel) (placed : List Entry) (layout : Layout) : PackageModel where
  source := outputSpan m placed layout
  header := m.header
  firstDirSector := layout.directoryStart
  firstMiniFatSector := if layout.miniIndexSectors = 0 then kCfbEndOfChain else layout.miniIndexStart
  totalMiniFatSectors := layout.miniIndexSectors
  firstDifatSector := if layout.difatSectors = 0 then kCfbEndOfChain else layout.difatStart
  totalDifatSectors := layout.difatSectors

theorem parseHeader_out : parseHeader { source := outputSpan m placed layout } = .ok (headed m placed layout) := by
  have hlong := h.closing.header
  have hnumbers := sectors_lt h
  obtain ⟨hminis, hindex, hdirectory, hdifat, hfat⟩ := region_order h
  have hsize : (outputSpan m placed layout).size = layout.headerSize + layout.totalSectors * layout.sectorSize := by
    rw [ByteSpan.size, outputSpan, length_out, Layout.sectorAt]
  have hversion : m.header.majorVersion = 3 ∨ m.header.majorVersion = 4 := h.versioned.version.imp And.left And.left
  have hpower : (if m.header.majorVersion = 4 then 12 else 9) < 256 ^ 2 := by split <;> decide
  have hminiStart : (if layout.miniIndexSectors = 0 then kCfbEndOfChain else layout.miniIndexStart) < 256 ^ 4 := by
    split
    · decide
    · omega
  have hdifatStart : (if layout.difatSectors = 0 then kCfbEndOfChain else layout.difatStart) < 256 ^ 4 := by
    split
    · decide
    · omega
  have hminor : (outputSpan m placed layout).read 2 24 .little "minor version" =
      .ok m.header.minorVersion := header_read h (by simp [headerFields]) h.minor _
  have hmajor : (outputSpan m placed layout).read 2 26 .little "major version" =
      .ok m.header.majorVersion := header_read h (by simp [headerFields]) (by rcases hversion with hv | hv <;> rw [hv] <;> decide) _
  have horder : (outputSpan m placed layout).read 2 28 .little "byte order" =
      .ok 0xFFFE := header_read h (by simp [headerFields]) (by decide) _
  have hsector : (outputSpan m placed layout).read 2 30 .little "sector size exponent" =
      .ok (if m.header.majorVersion = 4 then 12 else 9) := header_read h (by simp [headerFields]) hpower _
  have hmini : (outputSpan m placed layout).read 2 32 .little "mini-sector exponent" =
      .ok 6 := header_read h (by simp [headerFields]) (by decide) _
  have hfirstDir : (outputSpan m placed layout).read 4 48 .little "first directory sector" =
      .ok layout.directoryStart := header_read h (by simp [headerFields]) (by omega) _
  have hcutoff : (outputSpan m placed layout).read 4 56 .little "mini-stream cutoff" =
      .ok m.header.miniStreamCutoff := header_read h (by simp [headerFields]) (by rw [h.versioned.cutoff]; decide) _
  have hfirstMini : (outputSpan m placed layout).read 4 60 .little "first mini-FAT sector" =
      .ok (if layout.miniIndexSectors = 0 then kCfbEndOfChain else layout.miniIndexStart) := header_read h (by simp [headerFields]) hminiStart _
  have htotalMini : (outputSpan m placed layout).read 4 64 .little "mini-FAT sector count" =
      .ok layout.miniIndexSectors := header_read h (by simp [headerFields]) (by omega) _
  have hfirstDifat : (outputSpan m placed layout).read 4 68 .little "first DIFAT sector" =
      .ok (if layout.difatSectors = 0 then kCfbEndOfChain else layout.difatStart) := header_read h (by simp [headerFields]) hdifatStart _
  have htotalDifat : (outputSpan m placed layout).read 4 72 .little "DIFAT sector count" =
      .ok layout.difatSectors := header_read h (by simp [headerFields]) (by omega) _
  have hpowers : ¬((if m.header.majorVersion = 4 then 12 else 9) ≠ kSectorExponentV3 ∧
      (if m.header.majorVersion = 4 then 12 else 9) ≠ kSectorExponentV4) := by
    rcases hversion with hv | hv <;> rw [hv] <;> decide
  have hmatch : ¬(decide (m.header.majorVersion = 3) ≠
      decide ((if m.header.majorVersion = 4 then 12 else 9) = kSectorExponentV3)) := by
    rcases hversion with hv | hv <;> rw [hv] <;> decide
  have hlarge : (if m.header.majorVersion = 4 then 4096 else 512) ≤ (outputSpan m placed layout).size := by
    rw [hsize, h.regions.headerSize]
    exact Nat.le_add_right _ _
  have hheader : (⟨m.header.majorVersion, m.header.minorVersion, 2 ^ (if m.header.majorVersion = 4 then 12 else 9), 2 ^ 6,
      m.header.miniStreamCutoff⟩ : CfbHeader) = m.header := by
    have hsectorSize : 2 ^ (if m.header.majorVersion = 4 then 12 else 9) = m.header.sectorSize := by
      rcases h.versioned.version with ⟨hv, hs⟩ | ⟨hv, hs⟩ <;> rw [hv, hs] <;> rfl
    have hminiSize : 2 ^ 6 = m.header.miniSectorSize := h.mini.symm
    rw [hsectorSize, hminiSize]
  rw [parseHeader]
  dsimp only
  rw [rejectIf_of_not (by omega), ok_bind, magic h, ok_bind, hminor, ok_bind, hmajor, ok_bind, horder, ok_bind,
    rejectIf_of_not (fun hne => hne rfl), ok_bind, hsector, ok_bind, hmini, ok_bind, rejectIf_of_not hpowers, ok_bind,
    rejectIf_of_not (by omega), ok_bind, rejectIf_of_not hmatch, ok_bind, rejectIf_of_not (fun hne => hne rfl), ok_bind,
    rejectIf_of_not (by omega), ok_bind, hfirstDir, ok_bind, hcutoff, ok_bind, hfirstMini, ok_bind, htotalMini, ok_bind,
    hfirstDifat, ok_bind, htotalDifat, ok_bind, rejectIf_of_not (fun hne => hne h.versioned.cutoff), ok_bind, pure_eq_ok,
    headed, hheader]

end header

/-! The sectors -/

section sectors

variable (h : Arranged m entries placed layout) (ho : Output m placed layout check)

include h ho

theorem sectorSize_eq : check.header.sectorSize = layout.sectorSize := by
  rw [ho.header, h.regions.sectorSize]

theorem headerSize_eq : check.headerSize = layout.headerSize := by
  rw [PackageModel.headerSize, ho.header, h.regions.headerSize]

theorem sectorStart_eq (sector : Nat) : check.sectorStart sector = layout.sectorAt sector := by
  rw [PackageModel.sectorStart, headerSize_eq h ho, sectorSize_eq h ho, Layout.sectorAt]

omit h in
theorem size_eq : check.source.size = layout.sectorAt layout.totalSectors := by
  rw [ByteSpan.size, ho.source, outputSpan, length_out]

theorem sectorCount_eq : check.sectorCount = layout.totalSectors := by
  have hpos := h.sectorSize_pos
  have hcount : (layout.totalSectors * layout.sectorSize + layout.sectorSize - 1) / layout.sectorSize =
      layout.totalSectors := by
    rw [Nat.add_sub_assoc hpos, Nat.mul_comm, Nat.mul_add_div hpos, Nat.div_eq_of_lt (Nat.sub_lt hpos Nat.one_pos),
      Nat.add_zero]
  rw [PackageModel.sectorCount, size_eq ho, headerSize_eq h ho, sectorSize_eq h ho, Layout.sectorAt,
    Nat.add_sub_cancel_left, hcount]
  by_cases hle : layout.headerSize + layout.totalSectors * layout.sectorSize ≤ layout.headerSize
  · have hzero : layout.totalSectors * layout.sectorSize = 0 := by omega
    rw [if_pos hle]
    exact ((Nat.mul_eq_zero.1 hzero).resolve_right (Nat.ne_of_gt hpos)).symm
  · rw [if_neg hle]

omit h ho in
theorem sector_fits {sector : Nat} (hs : sector < layout.totalSectors) :
    layout.sectorAt sector + layout.sectorSize ≤ layout.sectorAt layout.totalSectors := by
  have hnext := sectorAt_add layout sector 1
  rw [Nat.one_mul] at hnext
  rw [← hnext]
  exact sectorAt_mono hs

theorem sector_ok {sector : Nat} (hs : sector < layout.totalSectors) (what : String) :
    check.sector sector check.header.sectorSize what =
      .ok ⟨slice (serialise m placed layout) (layout.sectorAt sector) layout.sectorSize, kFormat, what⟩ := by
  rw [PackageModel.sector, sectorCount_eq h ho, rejectIf_of_not (Nat.not_le_of_lt hs), ok_bind]
  apply ByteSpan.sub_eq_ok.2
  rw [sectorStart_eq h ho, sectorSize_eq h ho, ho.source, outputSpan, length_out]
  exact ⟨sector_fits hs, rfl⟩

end sectors

/-! The allocation index -/

/-- A table whose entries are consecutive numbers up to the first free one. -/
theorem readListed_run {span : ByteSpan} {base first n count : Nat} (hn : n ≤ count)
    (hin : base + 4 * count ≤ span.bytes.length) (hlimit : first + n ≤ kCfbEndOfChain)
    (hlisted : ∀ i < n, leValue (slice span.bytes (base + 4 * i) 4) = first + i)
    (hstop : n < count → leValue (slice span.bytes (base + 4 * n) 4) = kCfbFreeSector) :
    readListed span count base = .ok (List.range' first n) := by
  induction count generalizing base first n with
  | zero =>
      rw [Nat.le_zero.1 hn]
      rfl
  | succ count ih =>
      rw [readListed, read_little (by omega), ok_bind]
      cases n with
      | zero =>
          have hfree := hstop (Nat.succ_pos count)
          rw [Nat.mul_zero, Nat.add_zero] at hfree
          rw [hfree, if_pos (.inl rfl)]
          rfl
      | succ n =>
          have hhere := hlisted 0 (Nat.succ_pos n)
          rw [Nat.mul_zero, Nat.add_zero, Nat.add_zero] at hhere
          have hreal : ¬(first = kCfbFreeSector ∨ first = kCfbEndOfChain) := by
            rw [kCfbFreeSector]
            rw [kCfbEndOfChain] at hlimit ⊢
            omega
          have hrest : readListed span count (base + 4) = .ok (List.range' (first + 1) n) := by
            apply ih (Nat.le_of_succ_le_succ hn) (by omega) (by omega)
            · intro i hi
              have hnext := hlisted (i + 1) (Nat.succ_lt_succ hi)
              have hoffset : base + 4 + 4 * i = base + 4 * (i + 1) := by omega
              rw [hoffset, hnext]
              omega
            · intro hlt
              have hoffset : base + 4 + 4 * n = base + 4 * (n + 1) := by omega
              rw [hoffset]
              exact hstop (Nat.succ_lt_succ hlt)
          rw [hhere, if_neg hreal, hrest, ok_bind, List.range'_succ]
          rfl

section index

variable (h : Arranged m entries placed layout)

include h

theorem length_difat (d : Nat) : (difatSectorBytes layout d).length = layout.sectorSize := by
  rw [length_difatSectorBytes layout d h.perSector_pos, h.closing.sector]

theorem listed_value {i : Nat} (hi : i < layout.fatSectors) : layout.fatStart + i < 256 ^ 4 := by
  have hlt := sectors_lt h
  have htotal := h.closing.total
  omega

/-- The sectors of the index that the header lists. -/
theorem header_listed {i : Nat} (hi : i < kHeaderDifatEntries) : slice (serialise m placed layout) (76 + 4 * i) 4 =
    leBytes 4 (if i < layout.fatSectors then layout.fatStart + i else kCfbFreeSector) := by
  have hfield : slice (serialise m placed layout) 76 (4 * kHeaderDifatEntries) =
      indexBytes (fun i => if i < layout.fatSectors then layout.fatStart + i else kCfbFreeSector) kHeaderDifatEntries := by
    apply slice_serialise_field _ (length_indexBytes _ _) h.closing.header
    simp [headerFields]
  have hentry := slice_indexBytes (fun i => if i < layout.fatSectors then layout.fatStart + i else kCfbFreeSector) hi
  rwa [← hfield, slice_slice (by omega)] at hentry

theorem readListed_header : readListed (outputSpan m placed layout) kHeaderDifatEntries 76 =
    .ok (List.range' layout.fatStart (min layout.fatSectors kHeaderDifatEntries)) := by
  have hnumbers := sector_numbers h
  have htotal := h.closing.total
  have hlong := h.closing.header
  apply readListed_run (Nat.min_le_right _ _)
  · rw [outputSpan, length_out, Layout.sectorAt, kHeaderDifatEntries]
    omega
  · omega
  · intro i hi
    rw [outputSpan, header_listed h (by omega), if_pos (by omega)]
    exact leValue_leBytes_of_lt (listed_value h (by omega))
  · intro hlt
    rw [outputSpan, header_listed h hlt, if_neg (by omega)]
    decide

/-- A sector of the extended index. -/
theorem difat_sector {d : Nat} (hd : d < layout.difatSectors) :
    slice (serialise m placed layout) (layout.sectorAt (layout.difatStart + d)) layout.sectorSize =
      difatSectorBytes layout d := by
  have hwhole := slice_flatMap_range (length_difat h) hd
  rw [← @Closing.difat_region m placed layout h.closing h.perSector_pos, slice_slice, ← sectorAt_add] at hwhole
  · exact hwhole
  · rw [← Nat.succ_mul]
    exact Nat.mul_le_mul_right _ hd

theorem difat_more {d : Nat} : d < layout.difatSectors ↔
    kHeaderDifatEntries + d * (layout.entriesPerIndexSector - 1) < layout.fatSectors := by
  have hper := h.perSector_pos
  have hsectors := h.closing.least.difat_eq
  rw [← unitsFor_eq_ceilDiv (by omega)] at hsectors
  dsimp only at hsectors
  rw [hsectors, lt_unitsFor (by omega)]
  omega

/-- What a sector of the extended index lists. -/
theorem readListed_difat {d : Nat} (hd : d < layout.difatSectors) (what : String) :
    readListed ⟨difatSectorBytes layout d, kFormat, what⟩ (layout.entriesPerIndexSector - 1) 0 =
      .ok (List.range' (layout.fatStart + (kHeaderDifatEntries + d * (layout.entriesPerIndexSector - 1)))
        (min (layout.fatSectors - (kHeaderDifatEntries + d * (layout.entriesPerIndexSector - 1)))
          (layout.entriesPerIndexSector - 1))) := by
  have hnumbers := sector_numbers h
  have htotal := h.closing.total
  have hmore := (difat_more h).1 hd
  have hper := h.perSector_pos
  have hentry : ∀ j < layout.entriesPerIndexSector - 1, slice (difatSectorBytes layout d) (0 + 4 * j) 4 =
      leBytes 4 (if kHeaderDifatEntries + d * (layout.entriesPerIndexSector - 1) + j < layout.fatSectors then
        layout.fatStart + (kHeaderDifatEntries + d * (layout.entriesPerIndexSector - 1) + j) else kCfbFreeSector) := by
    intro j hj
    rw [difatSectorBytes, slice_append_left, Nat.zero_add]
    · exact slice_indexBytes _ hj
    · rw [length_indexBytes]
      omega
  apply readListed_run (Nat.min_le_right _ _)
  · dsimp only
    rw [length_difatSectorBytes layout d hper]
    omega
  · omega
  · intro j hj
    dsimp only
    rw [hentry j (by omega), if_pos (by omega), leValue_leBytes_of_lt (listed_value h (by omega))]
    omega
  · intro hlt
    dsimp only
    rw [hentry _ hlt, if_neg (by omega)]
    decide

theorem difat_next (d : Nat) (what : String) :
    (⟨difatSectorBytes layout d, kFormat, what⟩ : ByteSpan).read 4 (layout.sectorSize - 4) .little
      "next DIFAT sector" = .ok (if d + 1 < layout.difatSectors then layout.difatStart + (d + 1) else kCfbEndOfChain) := by
  have hper := h.perSector_pos
  have hsize := h.closing.sector
  have hlength := length_difat h d
  have hnumbers := sectors_lt h
  have hfat := h.closing.fatStart
  have htotal := h.closing.total
  have hoffset : layout.sectorSize - 4 = 4 * (layout.entriesPerIndexSector - 1) := by omega
  have hend : slice (difatSectorBytes layout d) (layout.sectorSize - 4) 4 =
      leBytes 4 (if d + 1 < layout.difatSectors then layout.difatStart + d + 1 else kCfbEndOfChain) := by
    rw [difatSectorBytes, slice_append_right (by rw [length_indexBytes, hoffset]), length_indexBytes, hoffset, Nat.sub_self]
    exact slice_all (leBytes 4 _)
  rw [read_little (by dsimp only; omega)]
  dsimp only
  rw [hend, leValue_leBytes_of_lt]
  · rw [Nat.add_assoc]
  · split
    · omega
    · decide

omit h in
theorem range'_split {first n k : Nat} :
    List.range' first (min n k) ++ List.range' (first + k) (n - k) = List.range' first n := by
  rcases Nat.le_total n k with hle | hle
  · rw [Nat.min_eq_left hle, Nat.sub_eq_zero_of_le hle, List.range'_zero, List.append_nil]
  · rw [Nat.min_eq_right hle, List.range'_append_1, Nat.add_sub_cancel' hle]

/-- The chain of the extended index, from one of its sectors on. -/
theorem readDifat_run (ho : Output m placed layout check) (k d : Nat) (seen : List Nat) (hk : d + k = layout.difatSectors)
    (hseen : ∀ s ∈ seen, s < layout.difatStart + d) :
    readDifat check k (if d < layout.difatSectors then layout.difatStart + d else kCfbEndOfChain) seen =
      .ok (List.range' (layout.fatStart + (kHeaderDifatEntries + d * (layout.entriesPerIndexSector - 1)))
        (layout.fatSectors - (kHeaderDifatEntries + d * (layout.entriesPerIndexSector - 1)))) := by
  induction k generalizing d seen with
  | zero =>
      have hnone : layout.fatSectors - (kHeaderDifatEntries + d * (layout.entriesPerIndexSector - 1)) = 0 := by
        have hmore := (difat_more h (d := d)).not.1 (by omega)
        omega
      rw [hnone]
      rfl
  | succ k ih =>
      have hd : d < layout.difatSectors := by omega
      obtain ⟨-, -, -, hdifat, hfat⟩ := region_order h
      have hnumbers := sector_numbers h
      have hreal : ¬(layout.difatStart + d = kCfbEndOfChain ∨ layout.difatStart + d = kCfbFreeSector) := by
        rw [kCfbFreeSector]
        rw [kCfbEndOfChain] at hnumbers ⊢
        omega
      have hfresh : layout.difatStart + d ∉ seen := fun hmem => Nat.lt_irrefl _ (hseen _ hmem)
      have hrest := ih (d + 1) ((layout.difatStart + d) :: seen) (by omega) (by
        intro s hs
        rcases List.mem_cons.1 hs with rfl | hs
        · omega
        · have hlt := hseen s hs
          omega)
      have hper : check.header.sectorSize / 4 = layout.entriesPerIndexSector := by rw [ho.header, h.perSector]
      rw [if_pos hd, readDifat, if_neg hreal, sector_ok h ho (by omega), difat_sector h hd, ok_bind, rejectIf_of_not hfresh, ok_bind, hper, readListed_difat h hd, ok_bind, sectorSize_eq h ho,
        difat_next h, ok_bind, hrest, ok_bind, pure_eq_ok, Except.ok.injEq]
      have hshift : layout.fatStart + (kHeaderDifatEntries + (d + 1) * (layout.entriesPerIndexSector - 1)) =
          layout.fatStart + (kHeaderDifatEntries + d * (layout.entriesPerIndexSector - 1)) +
            (layout.entriesPerIndexSector - 1) := by
        rw [Nat.succ_mul]
        omega
      have hcount : layout.fatSectors - (kHeaderDifatEntries + (d + 1) * (layout.entriesPerIndexSector - 1)) =
          layout.fatSectors - (kHeaderDifatEntries + d * (layout.entriesPerIndexSector - 1)) -
            (layout.entriesPerIndexSector - 1) := by
        rw [Nat.succ_mul]
        omega
      rw [hshift, hcount]
      exact range'_split

theorem checkFatSectors_ok (ho : Output m placed layout check) {fatSectors used : List Nat}
    (hsmall : ∀ s ∈ fatSectors, s < layout.totalSectors) (hnodup : fatSectors.Nodup) (hfresh : ∀ s ∈ fatSectors, s ∉ used) :
    checkFatSectors check fatSectors used = .ok () := by
  induction fatSectors generalizing used with
  | nil => rfl
  | cons s rest ih =>
      obtain ⟨hs, hrest⟩ := List.forall_mem_cons.1 hsmall
      obtain ⟨hnot, hnodup⟩ := List.nodup_cons.1 hnodup
      obtain ⟨hused, hfresh⟩ := List.forall_mem_cons.1 hfresh
      rw [checkFatSectors, sector_ok h ho hs, ok_bind, rejectIf_of_not hused, ok_bind]
      apply ih hrest hnodup
      intro other hother hmem
      rcases List.mem_cons.1 hmem with rfl | hmem
      · exact hnot hother
      · exact hfresh other hother hmem

/-- The output after its allocation index was found. -/
def indexed (m : PackageModel) (placed : List Entry) (layout : Layout) : PackageModel :=
  { headed m placed layout with fatSectors := List.range' layout.fatStart layout.fatSectors }

omit h in
theorem headed_output : Output m placed layout (headed m placed layout) := ⟨rfl, rfl⟩

theorem readExtended_out : readExtended (headed m placed layout) =
    .ok (List.range' (layout.fatStart + kHeaderDifatEntries) (layout.fatSectors - kHeaderDifatEntries)) := by
  have hmore := difat_more h (d := 0)
  rw [Nat.zero_mul, Nat.add_zero] at hmore
  rw [readExtended]
  by_cases hnone : layout.difatSectors = 0
  · have hzero : layout.fatSectors - kHeaderDifatEntries = 0 := by omega
    rw [if_neg, hzero]
    · rfl
    · rintro ⟨hpos, -⟩
      exact Nat.ne_of_gt hpos hnone
  · have hrun := readDifat_run h headed_output layout.difatSectors 0 [] (Nat.zero_add _) (by simp)
    have hnumbers := sector_numbers h
    obtain ⟨-, -, -, hdifat, hfat⟩ := region_order h
    have hfirst : (headed m placed layout).firstDifatSector = layout.difatStart := if_neg hnone
    rw [if_pos (Nat.pos_of_ne_zero hnone), Nat.add_zero, Nat.zero_mul, Nat.add_zero] at hrun
    rw [if_pos, hfirst]
    · exact hrun
    · rw [hfirst]
      exact ⟨Nat.pos_of_ne_zero hnone, by omega⟩

theorem buildFat_out : buildFat (headed m placed layout) = .ok (indexed m placed layout) := by
  have htotal := h.closing.total
  have hlisted : List.range' layout.fatStart (min layout.fatSectors kHeaderDifatEntries) ++
      List.range' (layout.fatStart + kHeaderDifatEntries) (layout.fatSectors - kHeaderDifatEntries) =
      List.range' layout.fatStart layout.fatSectors := range'_split
  have hcheck : checkFatSectors (headed m placed layout) (List.range' layout.fatStart layout.fatSectors) [] = .ok () := by
    apply checkFatSectors_ok h headed_output
    · intro s hs
      have hs := (List.mem_range'_1.1 hs).2
      omega
    · exact List.nodup_range'
    · exact fun s _ => List.not_mem_nil
  have hheader : readListed (headed m placed layout).source kHeaderDifatEntries 76 =
      .ok (List.range' layout.fatStart (min layout.fatSectors kHeaderDifatEntries)) := readListed_header h
  rw [buildFat, hheader, ok_bind, readExtended_out h, ok_bind, hlisted, hcheck, ok_bind]
  rfl

end index

/-! Chains -/

/-- A model of the output whose allocation index has been found. -/
structure Indexed (m : PackageModel) (placed : List Entry) (layout : Layout) (check : PackageModel) : Prop
    extends Output m placed layout check where
  fatSectors : check.fatSectors = List.range' layout.fatStart layout.fatSectors

section chains

variable (h : Arranged m entries placed layout) (ho : Indexed m placed layout check)

include h

theorem sectors_covered : layout.totalSectors ≤ layout.fatSectors * layout.entriesPerIndexSector := by
  have hper := h.perSector_pos
  rw [h.closing.total, h.closing.fatStart, Nat.mul_comm, ← ceilDiv_le_iff_le_mul (by omega)]
  exact le_of_eq h.closing.least.fat_eq.symm

include ho

theorem perSector_eq : check.header.sectorSize / 4 = layout.entriesPerIndexSector := by rw [ho.header, h.perSector]

theorem fatSize_eq : check.fatSize = layout.fatSectors * layout.entriesPerIndexSector := by
  rw [PackageModel.fatSize, ho.fatSectors, List.length_range', perSector_eq h ho]

theorem fatEntry_eq {sector : Nat} (hs : sector < layout.totalSectors) :
    check.fatEntry sector = .ok (allocationIndex placed layout sector % 256 ^ 4) := by
  have hper := h.perSector_pos
  have hi : sector / layout.entriesPerIndexSector < layout.fatSectors :=
    Nat.div_lt_of_lt_mul (Nat.mul_comm _ _ ▸ hs.trans_le (sectors_covered h))
  have hj : sector % layout.entriesPerIndexSector < layout.entriesPerIndexSector := Nat.mod_lt _ (by omega)
  have hfat : check.fatSectors.getD (sector / layout.entriesPerIndexSector) 0 =
      layout.fatStart + sector / layout.entriesPerIndexSector := by
    rw [ho.fatSectors, List.getD_eq_getElem _ _ (by rw [List.length_range']; exact hi), List.getElem_range', Nat.one_mul]
  have hentry := @Closing.entry m placed layout h.closing hper _ _ hi hj
  rw [Nat.div_add_mod', allocationIndex_of_bare (linkTrees_bare _ _)] at hentry
  have hinside : layout.sectorAt (layout.fatStart + sector / layout.entriesPerIndexSector) + layout.sectorSize ≤
      layout.sectorAt layout.totalSectors := by
    apply sector_fits
    rw [h.closing.total]
    omega
  have hsize := h.closing.sector
  rw [PackageModel.fatEntry, perSector_eq h ho, hfat, sectorStart_eq h ho.toOutput, Nat.mul_comm _ 4, read_little, ho.source, outputSpan, hentry,
    leValue_leBytes]
  rw [ho.source, outputSpan, length_out]
  omega

/-- A run of the layout is a chain of the reader. -/
theorem chain_of_run {first count : Nat} (what : String) (hpos : 0 < count) (hlimit : first + count ≤ layout.totalSectors)
    (hrun : ∀ i, first ≤ i → i < first + count → allocationIndex placed layout i = follower first count i) :
    Chain (check.fatTable what) first (List.range' first count) := by
  have hnumbers := sector_numbers h
  have hcovered := sectors_covered h
  apply Chain.run hpos
  · intro sector hlow hhigh
    have hstop : (check.fatTable what).stop = kCfbEndOfChain := rfl
    omega
  · intro sector hlow hhigh
    rw [PackageModel.fatTable]
    dsimp only
    rw [fatSize_eq h ho, rejectIf_of_not (by omega), ok_bind, sectorCount_eq h ho.toOutput, rejectIf_of_not (by omega)]
  · intro sector hlow hhigh
    rw [PackageModel.fatTable]
    dsimp only
    rw [fatEntry_eq h ho (by omega), hrun sector hlow hhigh, follower]
    rw [kCfbEndOfChain] at hnumbers ⊢
    split
    · rfl
    · rw [Nat.mod_mod_of_dvd _ (by decide), Nat.mod_eq_of_lt (by omega)]

theorem followChain_run {first count : Nat} (what : String) (hpos : 0 < count) (hlimit : first + count ≤ layout.totalSectors)
    (hrun : ∀ i, first ≤ i → i < first + count → allocationIndex placed layout i = follower first count i) :
    check.followChain first what = .ok (List.range' first count) := by
  have hwalk : check.walkChain first (fun _ => 0) 1 what =
      (.ok (List.range' first count), claim (fun _ => 0) (List.range' first count) 1) := by
    apply walkChain_eq_ok.2
    exact ⟨chain_of_run h ho what hpos hlimit hrun, fun _ => Nat.one_ne_zero, fun _ _ => rfl, rfl⟩
  rw [PackageModel.followChain, hwalk]

end chains

/-! Regions of several sectors -/

theorem flatten_blocks {α : Type} (f : Nat → α) (n k : Nat) :
    ((List.range n).map fun i => (List.range k).map fun j => f (i * k + j)).flatten = (List.range (n * k)).map f := by
  induction n with
  | zero => rw [Nat.zero_mul, List.range_zero, List.map_nil, List.map_nil, List.flatten_nil]
  | succ n ih =>
      rw [List.range_succ, List.map_append, List.flatten_append, ih, List.map_cons, List.map_nil, List.flatten_cons,
        List.flatten_nil, List.append_nil, Nat.succ_mul, List.range_add, List.map_append, List.map_map]
      rfl

/-- What is read from a run of sectors, one after the other. -/
theorem mapM_run {α : Type} {get : Nat → Outcome (List α)} {f : Nat → α} {first n k : Nat}
    (hget : ∀ i < n, get (first + i) = .ok ((List.range k).map fun j => f (i * k + j))) :
    ∃ parts, (List.range' first n).mapM get = .ok parts ∧ parts.flatten = (List.range (n * k)).map f := by
  refine ⟨(List.range n).map fun i => (List.range k).map fun j => f (i * k + j), ?_, flatten_blocks f n k⟩
  apply mapM_eq_ok.2
  rw [List.range'_eq_map_range]
  apply List.forall₂_map_left_iff.2
  apply List.forall₂_map_right_iff.2
  apply List.forall₂_same.2
  intro i hi
  exact hget i (List.mem_range.1 hi)

section tables

variable (h : Arranged m entries placed layout) (ho : Indexed m placed layout check)

include h

theorem readMiniFatSector_eq (ho : Indexed m placed layout check) {i : Nat} (hi : i < layout.miniIndexSectors) :
    readMiniFatSector check (layout.miniIndexStart + i) = .ok ((List.range layout.entriesPerIndexSector).map fun j =>
      miniIndex placed (i * layout.entriesPerIndexSector + j) % 256 ^ 4) := by
  obtain ⟨-, hindex, hdirectory, hdifat, hfat⟩ := region_order h
  have hsize := h.closing.sector
  rw [readMiniFatSector, sector_ok h ho.toOutput (by omega), ok_bind, perSector_eq h ho]
  apply mapM_range
  intro j hj
  have hentry := h.miniIndex_entry hi hj
  have hlength : (slice (serialise m placed layout) (layout.sectorAt (layout.miniIndexStart + i)) layout.sectorSize).length =
      layout.sectorSize := by
    apply length_slice_of_le
    rw [length_out]
    exact sector_fits (by omega)
  rw [read_little (by dsimp only; omega)]
  dsimp only
  rw [slice_slice (by omega), Nat.mul_comm j 4, hentry, leValue_leBytes]

/-- The output after its two indexes were read. -/
def tabled (m : PackageModel) (placed : List Entry) (layout : Layout) : PackageModel :=
  { indexed m placed layout with
    miniFat := (List.range (layout.miniIndexSectors * layout.entriesPerIndexSector)).map fun q =>
      miniIndex placed q % 256 ^ 4 }

omit h in
theorem indexed_indexed : Indexed m placed layout (indexed m placed layout) := ⟨⟨rfl, rfl⟩, rfl⟩

omit h in
theorem tabled_indexed : Indexed m placed layout (tabled m placed layout) := ⟨⟨rfl, rfl⟩, rfl⟩

theorem buildMiniFat_out : buildMiniFat (indexed m placed layout) = .ok (tabled m placed layout) := by
  obtain ⟨-, hindex, hdirectory, hdifat, hfat⟩ := region_order h
  have hnumbers := sector_numbers h
  rw [buildMiniFat]
  by_cases hnone : layout.miniIndexSectors = 0
  · rw [if_pos (.inr hnone), tabled, hnone, Nat.zero_mul]
    rfl
  · have hfirst : (indexed m placed layout).firstMiniFatSector = layout.miniIndexStart := if_neg hnone
    have hreal : ¬(layout.miniIndexStart = kCfbEndOfChain ∨ (indexed m placed layout).totalMiniFatSectors = 0) := by
      rintro (hend | hzero)
      · omega
      · exact hnone hzero
    have hchain := followChain_run h indexed_indexed "mini-FAT" (Nat.pos_of_ne_zero hnone) (by omega)
      fun i hlow hhigh => index_miniIndex h.regions h.closing hlow hhigh
    obtain ⟨parts, hparts, hflat⟩ := @mapM_run _ (readMiniFatSector (indexed m placed layout))
      (fun q => miniIndex placed q % 256 ^ 4) layout.miniIndexStart layout.miniIndexSectors layout.entriesPerIndexSector
      fun i hi => readMiniFatSector_eq h indexed_indexed hi
    rw [hfirst, if_neg hreal, hchain, ok_bind, hparts, ok_bind, hflat, ← hfirst]
    rfl

/-- The directory of the output. -/
def directoryOf (m : PackageModel) (placed : List Entry) (layout : Layout) : List DirEntry :=
  (List.range (layout.directorySectors * (layout.sectorSize / kDirEntrySize))).map fun i =>
    entryIn m.header.majorVersion (slotAt (linked placed) layout i)

theorem parseDirectorySector_eq (ho : Indexed m placed layout check) {i : Nat} (hi : i < layout.directorySectors) :
    parseDirectorySector check (layout.directoryStart + i) =
      .ok ((List.range (layout.sectorSize / kDirEntrySize)).map fun j =>
        entryIn m.header.majorVersion (slotAt (linked placed) layout (i * (layout.sectorSize / kDirEntrySize) + j))) := by
  obtain ⟨-, hindex, hdirectory, hdifat, hfat⟩ := region_order h
  rw [parseDirectorySector, sector_ok h ho.toOutput (by omega), ok_bind, sectorSize_eq h ho.toOutput]
  apply mapM_range
  intro j hj
  have hslot := h.slot hi hj
  have hfit : j * kDirEntrySize + kDirEntrySize ≤ layout.sectorSize := by
    rw [← Nat.succ_mul]
    exact (Nat.mul_le_mul_right _ hj).trans_eq h.slots_fill
  have hlength : (slice (serialise m placed layout) (layout.sectorAt (layout.directoryStart + i)) layout.sectorSize).length =
      layout.sectorSize := by
    apply length_slice_of_le
    rw [length_out]
    exact sector_fits (by omega)
  rw [parseDirEntry_eq (hfit.trans hlength.ge), slice_slice hfit, hslot, ho.header]

theorem parseDirectory_out (hsome : entries ≠ []) :
    parseDirectory (tabled m placed layout) = .ok (directoryOf m placed layout) := by
  obtain ⟨-, hindex, hdirectory, hdifat, hfat⟩ := region_order h
  have hpos : 0 < layout.directorySectors := by
    rw [h.regions.directorySectors, lt_unitsFor]
    · rw [Nat.zero_mul]
      exact List.length_pos_iff.2 hsome
    · rcases h.versioned.sector with hsize | hsize <;> rw [hsize] <;> decide
  have hchain := followChain_run h tabled_indexed "directory" hpos (by omega)
    fun i hlow hhigh => index_directory h.regions h.closing hlow hhigh
  have hfirst : (tabled m placed layout).firstDirSector = layout.directoryStart := rfl
  obtain ⟨parts, hparts, hflat⟩ := @mapM_run _ (parseDirectorySector (tabled m placed layout))
    (fun i => entryIn m.header.majorVersion (slotAt (linked placed) layout i)) layout.directoryStart
    layout.directorySectors (layout.sectorSize / kDirEntrySize) fun i hi => parseDirectorySector_eq h tabled_indexed hi
  rw [parseDirectory, hfirst, hchain, ok_bind, hparts, ok_bind, hflat]
  rfl

/-- What remains is to read the tree. -/
theorem parse_out (hsome : entries ≠ []) : parse (serialise m placed layout) =
    CfbReader.buildTree (tabled m placed layout) (directoryOf m placed layout) := by
  have hheader : parseHeader { source := ⟨serialise m placed layout, kFormat, "the file"⟩ } = .ok (headed m placed layout) :=
    parseHeader_out h
  rw [parse, hheader, ok_bind, buildFat_out h, ok_bind, buildMiniFat_out h, ok_bind, parseDirectory_out h hsome, ok_bind]

end tables

end TheSeed.CfbReadBack
