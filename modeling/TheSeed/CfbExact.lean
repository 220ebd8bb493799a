import TheSeed.CfbComplete
import TheSeed.CfbTally

namespace TheSeed.CfbExact

open Bytes Checked BoundedBytes LinkedChain CfbReader CfbResolve CfbWriter CfbJoint CfbContent CfbFlatten CfbTree CfbNarrowing
  CfbSelfCheck MsiFingerprint CfbRegions CfbSlots CfbReadBack CfbReadTree CfbOutputTree CfbOutputCheck CfbComplete CfbTally

/-! The writer returns exactly when the package can be written: the condition speaks of what the package holds, not of the
steps that flatten it, lay it out and check it. -/

variable {m check : PackageModel} {entries placed : List Entry} {layout : Layout} {bytes : List UInt8}
  {signature : Option (List UInt8)} {kept : List Content} {c : Content} {s node : CfbNode} {header : CfbHeader}

/-- The package with its new signature. -/
def intended (m : PackageModel) (signature : Option (List UInt8)) (kept : List Content) : Content :=
  .storage (labelOf m.root) (rootContents signature kept)

/-- The layout that the units and the number of the entries lead to. -/
def layoutFor (header : CfbHeader) (c : Content) : Layout :=
  layOut header (tally (ordinaryUnits header) 0 c) (tally (miniUnits header) 0 c) (count c)

/-- The format has room for so much. -/
structure HasRoom (header : CfbHeader) (c : Content) : Prop where
  sectors : (layoutFor header c).totalSectors ≤ kCfbMaxSectors
  entries : count c ≤ kCfbNoStream
  minis : tally (miniUnits header) 0 c ≤ kCfbEndOfChain
  container : tally (miniUnits header) 0 c * kMiniSectorSize < sizeLimit header

/-- A package can be written with a signature. -/
structure Writable (m : PackageModel) (signature : Option (List UInt8)) (kept : List Content) : Prop where
  contents : contentsOf m (keptChildren m) = .ok kept
  separate : (intended m signature kept).Separate
  joint : Joint m ((keptChildren m).flatMap streamNodes)
  blob : ∀ blob ∈ signature, blob.length < sizeLimit m.header
  room : HasRoom m.header (intended m signature kept)

theorem layout_of_laid (h : Laid entries 0 1 entries.length c.sorted) :
    layOut header (ordinaryBefore header entries entries.length) (miniBefore header entries entries.length) entries.length =
      layoutFor header c := by
  rw [ordinary_tally h, mini_tally h, count_entries h, count_sorted, tally_sorted, tally_sorted]
  rfl

theorem miniSectors_of_laid (h : Laid entries 0 1 entries.length c.sorted)
    (hlayout : computeLayout header entries = .ok (layout, placed)) :
    layout.miniSectors = tally (miniUnits header) 0 c := by
  obtain ⟨-, rfl, -⟩ := computeLayout_eq_ok.1 hlayout
  rw [layout_of_laid h]
  rfl

/-! The mini stream of a package that was read -/

theorem collectExtents_places {place : Nat → Nat → Outcome Nat} {unit remaining : Nat} {chain : List Nat}
    {extents out : ByteExtents} (hunit : 0 < unit) (h : collectExtents place unit chain extents remaining = .ok out)
    (hfill : ∀ k < chain.length, k * unit < remaining) :
    ∀ q ∈ chain, ∃ chunk offset, 0 < chunk ∧ place q chunk = .ok offset := by
  induction chain generalizing extents remaining with
  | nil => exact fun q hq => absurd hq List.not_mem_nil
  | cons first chain ih =>
      rw [collectExtents] at h
      obtain ⟨offset, hplace, h⟩ := bind_eq_ok.1 h
      have hpos := hfill 0 (Nat.succ_pos _)
      rw [Nat.zero_mul] at hpos
      refine List.forall_mem_cons.2 ⟨⟨_, offset, by omega, hplace⟩, ih h ?_⟩
      intro k hk
      have hnext := hfill (k + 1) (Nat.succ_lt_succ hk)
      rw [Nat.succ_mul] at hnext
      omega

/-- A stream that can be read takes as many mini sectors as its size needs, each inside the mini stream. -/
theorem minis_alone (hg : Geometry m) (hmini : m.header.miniSectorSize = kMiniSectorSize) (hs : s.isStorage = false)
    (halone : ∃ extents, (m.resolve s {}).1 = .ok extents) : (minisOf m s).length = miniUnits m.header s.size ∧
      ∀ q ∈ minisOf m s, q * kMiniSectorSize < m.miniContainerSize ∧ q ≠ kCfbEndOfChain := by
  by_cases his : IsMini m s = true
  · obtain ⟨extents, hextents⟩ := halone
    obtain ⟨-, chain, hchain⟩ := (mini_alone hg his).1 hextents
    have htaken := hchain.minisOf_eq his
    obtain ⟨hlinks, hlength, hcollect⟩ := hchain
    have hsmall : s.size < m.header.miniStreamCutoff := by
      simp only [IsMini, Bool.and_eq_true, decide_eq_true_eq] at his
      exact his.2
    rw [htaken, miniUnits, if_pos hsmall, hlength, hmini]
    refine ⟨rfl, fun q hq => ⟨?_, hlinks.ne_stop q hq⟩⟩
    have hfill : ∀ k < chain.length, k * m.header.miniSectorSize < s.size := by
      intro k hk
      rw [hlength] at hk
      exact (lt_unitsFor hg.mini_pos).1 hk
    obtain ⟨chunk, offset, hpos, hplace⟩ := collectExtents_places hg.mini_pos hcollect hfill q hq
    have hfits := (placeMiniSector_eq_ok.1 hplace).1
    rw [hmini] at hfits
    omega
  · have hnone : minisOf m s = [] := by rw [minisOf, if_neg his]
    rw [hnone]
    refine ⟨?_, fun q hq => absurd hq List.not_mem_nil⟩
    by_cases hsmall : s.size < m.header.miniStreamCutoff
    · have hzero : s.size = 0 := by
        by_contra hne
        apply his
        simp [IsMini, hs, hne, hsmall]
      rw [miniUnits, if_pos hsmall, hzero, unitsFor_zero, List.length_nil]
    · rw [miniUnits, if_neg hsmall, List.length_nil]

theorem streamNodes_isStream (node : CfbNode) : ∀ s ∈ streamNodes node, s.isStorage = false := by
  induction node using nodeInduction with
  | h node ih =>
      cases hkind : node.isStorage with
      | true =>
          intro s hs
          rw [streamNodes_storage hkind] at hs
          obtain ⟨child, hchild, hs⟩ := List.mem_flatMap.1 hs
          exact ih child hchild s hs
      | false =>
          intro s hs
          rw [streamNodes_stream hkind, List.mem_singleton] at hs
          rw [hs, hkind]

/-- All mini sectors of the streams that can be read together. -/
theorem minis_joint (hg : Geometry m) (hmini : m.header.miniSectorSize = kMiniSectorSize)
    (hcontent : contentOf m node = .ok c) (hjoint : Joint m (streamNodes node)) :
    ∃ minis : List Nat, minis.Nodup ∧ minis.length = tally (miniUnits m.header) 0 c ∧
      ∀ q ∈ minis, q * kMiniSectorSize < m.miniContainerSize ∧ q ≠ kCfbEndOfChain := by
  have hall : ∀ s ∈ streamNodes node, (minisOf m s).length = miniUnits m.header s.size ∧
      ∀ q ∈ minisOf m s, q * kMiniSectorSize < m.miniContainerSize ∧ q ≠ kCfbEndOfChain :=
    fun s hs => minis_alone hg hmini (streamNodes_isStream node s hs) (hjoint.alone s hs)
  refine ⟨(streamNodes node).flatMap (minisOf m), hjoint.room.minis, ?_, ?_⟩
  · rw [tally_read hg hcontent, List.length_flatMap]
    congr 1
    exact List.map_congr_left fun s hs => (hall s hs).1
  · intro q hq
    obtain ⟨s, hs, hq⟩ := List.mem_flatMap.1 hq
    exact (hall s hs).2 q hq

/-- Numbers that are all different and below how many there are: none is missing. -/
theorem mem_of_nodup {minis : List Nat} (hnodup : minis.Nodup) (hlt : ∀ q ∈ minis, q < minis.length) {q : Nat}
    (hq : q < minis.length) : q ∈ minis := by
  have hsub : minis.Subperm (List.range minis.length) := hnodup.subperm fun q hq => List.mem_range.2 (hlt q hq)
  have hperm := hsub.perm_of_length_le (List.length_range).le
  exact hperm.mem_iff.2 (List.mem_range.2 hq)

/-- The mini sectors fit into the mini stream only when its size was not cut off and no number ends a chain. -/
theorem container_whole {minis : List Nat} {limit : Nat} (hnodup : minis.Nodup) (hlimit : kMiniSectorSize ∣ limit)
    (hpos : 0 < limit) (hin : ∀ q ∈ minis, q * kMiniSectorSize < minis.length * kMiniSectorSize % limit ∧ q ≠ kCfbEndOfChain) :
    minis.length * kMiniSectorSize < limit ∧ minis.length ≤ kCfbEndOfChain := by
  have hmini : 0 < kMiniSectorSize := by decide
  obtain ⟨units, hunits⟩ : kMiniSectorSize ∣ minis.length * kMiniSectorSize % limit :=
    (Nat.dvd_mod_iff hlimit).2 (Nat.dvd_mul_left _ _)
  replace hunits := hunits.trans (Nat.mul_comm _ _)
  have hsmall : ∀ q ∈ minis, q < units := fun q hq => Nat.lt_of_mul_lt_mul_right (hunits ▸ (hin q hq).1)
  have hcount : minis.length ≤ units := by
    have hsub : minis.Subperm (List.range units) := hnodup.subperm fun q hq => List.mem_range.2 (hsmall q hq)
    exact hsub.length_le.trans_eq List.length_range
  have hle := Nat.mul_le_mul_right kMiniSectorSize hcount
  have hlt := Nat.mod_lt (minis.length * kMiniSectorSize) hpos
  have hmod := Nat.mod_le (minis.length * kMiniSectorSize) limit
  rw [hunits] at hlt hmod
  refine ⟨hle.trans_lt hlt, Nat.le_of_not_lt fun hmore => ?_⟩
  have hexact : units ≤ minis.length := Nat.le_of_mul_le_mul_right hmod hmini
  exact (hin _ (mem_of_nodup hnodup (fun q hq => (hsmall q hq).trans_le hexact) hmore)).2 rfl

/-- The size of the mini stream is what the field of the root holds of it, whatever was written. -/
theorem container_read (ha : Arranged m entries placed layout) (hsome : entries ≠ [])
    (hcheck : parse (serialise m placed layout) = .ok check) :
    check.miniContainerSize = layout.miniSectors * kMiniSectorSize % sizeLimit m.header := by
  have hpos : 0 < layout.directorySectors * (layout.sectorSize / kDirEntrySize) := by
    apply Nat.mul_pos
    · rw [ha.regions.directorySectors, lt_unitsFor, Nat.zero_mul]
      · exact List.length_pos_iff.2 hsome
      · rcases ha.versioned.sector with hsize | hsize <;> rw [hsize] <;> decide
    · rcases ha.sector with hsize | hsize <;> rw [hsize] <;> decide
  have hplaced : placed[0]? = some (placed.getD 0 { node := { name := CfbName.empty } }) := by
    have hlength := ha.length_eq
    have hentries := List.length_pos_iff.2 hsome
    rw [List.getD_eq_getElem?_getD, List.getElem?_eq_getElem (by omega), Option.getD_some]
  obtain ⟨root, hroot, -⟩ := linked_get hplaced
  have hfirst : ((directoryOf m placed layout).getD 0 {}).size =
      leValue (slice (writeDirectoryEntry root true layout) 120 (sizeWidth m.header)) := by
    rw [directoryOf, List.getD_eq_getElem?_getD, List.getElem?_map, List.getElem?_range hpos, Option.map_some,
      Option.getD_some, entryIn, slotAt, hroot, sizeWidth]
    simp only [Option.elim_some, field, decide_true]
  rw [parse_out ha hsome] at hcheck
  simp only [CfbReader.buildTree, bind_eq_ok, pure_eq_ok, Except.ok.injEq] at hcheck
  obtain ⟨-, -, read, -, rfl⟩ := hcheck
  have hwidth : 256 ^ sizeWidth m.header = sizeLimit m.header := by
    rw [sizeWidth, sizeLimit]
    split <;> norm_num
  rw [hfirst, rootSize_value ha.versioned, hwidth]

/-! Both directions -/

/-- What was written could be written. -/
theorem writable_of_written {out : List UInt8} (hparse : parse bytes = .ok m) (h : writeCfb m signature = .ok out) :
    ∃ kept, Writable m (signature.filter fun blob => blob ≠ []) kept := by
  have hg := (parse_accepted hparse).geometry
  obtain ⟨check, kept, hcheck, hkept, hsep, hcontent, hjoint⟩ := writeCfb_content hparse h
  obtain ⟨entries, ⟨layout, placed⟩, hflatten, hlayout, rfl, -⟩ := CfbCanonical.writeCfb_eq_ok.1 h
  have hheader := (MsiHistory.writeCfb_header hparse h hcheck).header
  have haccepted := parse_accepted hcheck
  obtain ⟨kept', hkept', -, hlaid⟩ := flatten_laid hg (parse_root hparse).1 hflatten (flatten_bound hparse hflatten)
  obtain rfl := Except.ok.inj (hkept.symm.trans hkept')
  have hsome : entries ≠ [] := by
    have hle := hlaid.le
    rintro rfl
    cases hle
  have hcontainer := container_read (arranged_of_layout hparse hlayout) hsome hcheck
  have hminis := miniSectors_of_laid hlaid hlayout
  obtain ⟨minis, hnodup, hlength, hin⟩ := minis_joint haccepted.geometry haccepted.mini hcontent hjoint
  rw [hheader, tally_sorted, ← hminis] at hlength
  rw [hcontainer, ← hlength] at hin
  have hlimit : kMiniSectorSize ∣ sizeLimit m.header ∧ 0 < sizeLimit m.header := by
    rw [sizeLimit]
    split <;> decide
  obtain ⟨hwhole, hfew⟩ := container_whole hnodup hlimit.1 hlimit.2 hin
  refine ⟨kept, hkept, hsep, CfbStreams.flatten_joint hg hflatten, ?_, ?_, ?_, ?_, ?_⟩
  · intro blob hblob
    have hbounded := bounded_of_shallow haccepted.geometry (parse_shallow hcheck) hcontent
    rw [Option.mem_def] at hblob
    rw [hheader, hblob, rootContents, Content.sorted] at hbounded
    cases hbounded with
    | storage hall =>
        have hstream := hall (.stream (labelOf (signatureItem blob).node) blob) (by
          rw [(SortedBy.sortBy_perm _ _).mem_iff, List.map_cons, Content.sorted]
          exact List.mem_cons_self)
        cases hstream with
        | stream hlt => exact hlt
  · rw [intended, ← layout_of_laid hlaid]
    exact (computeLayout_eq_ok.1 hlayout).1
  · have hcount := count_read hcontent
    have htree := (parse_root hcheck).2
    rw [count_sorted, below_storage (parse_root hcheck).1] at hcount
    rw [CfbTree.size] at htree
    rw [intended, hcount, kCfbNoStream]
    omega
  · rw [intended, ← hminis, ← hlength]
    exact hfew
  · rw [intended, ← hminis, ← hlength]
    exact hwhole

/-- What can be written is written. -/
theorem written_of_writable (hparse : parse bytes = .ok m)
    (h : Writable m (signature.filter fun blob => blob ≠ []) kept) : ∃ out, writeCfb m signature = .ok out := by
  have hg := (parse_accepted hparse).geometry
  obtain ⟨entries, hflatten⟩ := CfbStreams.flatten_ok hg h.contents h.separate h.joint
  obtain ⟨kept', hkept', -, hlaid⟩ := flatten_laid hg (parse_root hparse).1 hflatten (flatten_bound hparse hflatten)
  obtain rfl := Except.ok.inj (h.contents.symm.trans hkept')
  have hlayout : computeLayout m.header entries = .ok (layoutFor m.header (intended m _ kept), _) :=
    computeLayout_eq_ok.2 ⟨(layout_of_laid hlaid).symm ▸ h.room.sectors, layout_of_laid hlaid, rfl⟩
  have hminis := miniSectors_of_laid hlaid hlayout
  have hentries : entries.length ≤ kCfbNoStream := by
    rw [count_entries hlaid, count_sorted]
    exact h.room.entries
  have hfitting : Fitting m.header entries (layoutFor m.header (intended m _ kept)) :=
    ⟨hentries, hminis ▸ h.room.minis, hminis ▸ h.room.container⟩
  obtain ⟨kept', hkept', hwritten, hlaid', hascending, hnested⟩ := written_of_flatten hparse h.blob hflatten hlayout hfitting
  rw [Content.sorted] at hlaid' hascending hnested
  obtain ⟨check, hread⟩ := read_output hwritten hlaid' hentries hnested
  obtain ⟨u, hcompare⟩ := compare_output hwritten hlaid' hentries hread hascending
  exact ⟨_, CfbCanonical.writeCfb_eq_ok.2 ⟨entries, (_, _), hflatten, hlayout, rfl, check, u, hread.parsed, hcompare⟩⟩

/-- The writer returns exactly when the package can be written. -/
theorem writes_iff (hparse : parse bytes = .ok m) (signature : Option (List UInt8)) :
    (∃ out, writeCfb m signature = .ok out) ↔ ∃ kept, Writable m (signature.filter fun blob => blob ≠ []) kept :=
  ⟨fun ⟨_, h⟩ => writable_of_written hparse h, fun ⟨_, h⟩ => written_of_writable hparse h⟩

/-- A package with two small streams, signed -/
theorem writes_iff_minis : ∃ m kept, parse CfbAnyOrder.minisPackage = .ok m ∧ m.root.children.length = 2 ∧
    Writable m (some (DigestEncoding.sampleSignature (List.replicate 32 7))) kept := by
  obtain ⟨file, hrun⟩ := MsiSignerRuns.signAgain_runs
  obtain ⟨mid, hcall, -⟩ := foldlM_cons_eq_ok.1 hrun
  obtain ⟨m, hparse, hw⟩ := MsiSignerRuns.embedSignature_rebuilt hcall
  have htwo : (parse CfbAnyOrder.minisPackage).map (fun m => m.root.children.length) = .ok 2 := by decide +kernel
  rw [hparse] at htwo
  obtain ⟨kept, h⟩ := (writes_iff hparse (some (DigestEncoding.sampleSignature (List.replicate 32 7)))).1 ⟨mid, hw⟩
  exact ⟨m, kept, hparse, Except.ok.inj htwo, h⟩

end TheSeed.CfbExact
