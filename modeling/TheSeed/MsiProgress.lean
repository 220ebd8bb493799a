import TheSeed.CfbExact

namespace TheSeed.MsiProgress

open Bytes Checked BoundedBytes Climb CfbReader CfbResolve CfbJoint CfbWriter SortedBy CfbNames CfbContent Content MsiFingerprint
  CfbFlatten CfbTree CfbStreams CfbSelfCheck CfbCanonical CfbAllocation CfbNarrowing CfbTally CfbComplete CfbExact
  MsiAuthenticode MsiSigner MsiSignerRuns MsiHistory

/-! No run of calls comes to a file on which a call fails that succeeds on the first file. -/

variable {m check : PackageModel} {header : CfbHeader} {kept : List Content} {signature : Option (List UInt8)}
  {bytes file mid out blob : List UInt8}

/-! A package without a signature takes no more room than with one -/

/-- More to index never takes a smaller index. -/
theorem indexSectors_mono {perSector others more : Nat} (hper : 128 ≤ perSector) (hle : others ≤ more)
    (hmore : more ≤ 2 ^ 62) : (indexSectors others perSector 64 0 0).1 ≤ (indexSectors more perSector 64 0 0).1 ∧
      (indexSectors others perSector 64 0 0).2 ≤ (indexSectors more perSector 64 0 0).2 := by
  have hfew := leastIndex hper (hle.trans hmore)
  have hmany := leastIndex hper hmore
  generalize indexSectors others perSector 64 0 0 = few at *
  generalize indexSectors more perSector 64 0 0 = many at *
  have hfixed : fatFor more perSector many.1 = many.1 := hmany.leaves.fixed
  have hsmaller : fatFor others perSector many.1 ≤ many.1 := by
    calc fatFor others perSector many.1 ≤ fatFor more perSector many.1 := by
          rw [fatFor, fatFor, unitsFor_eq_ceilDiv (by omega), unitsFor_eq_ceilDiv (by omega)]
          exact ceilDiv_mono (by omega) (by omega)
      _ = many.1 := hfixed
  have hfat : few.1 ≤ many.1 := hfew.leaves.le (fatFor_mono (by omega)) hsmaller (Nat.zero_le _)
  refine ⟨hfat, ?_⟩
  rw [hfew.difat_eq, hmany.difat_eq]
  exact ceilDiv_mono (by omega) (by omega)

theorem unitsFor_mono {size more unit : Nat} (hunit : 0 < unit) (hle : size ≤ more) : unitsFor size unit ≤ unitsFor more unit := by
  rw [unitsFor_eq_ceilDiv hunit, unitsFor_eq_ceilDiv hunit]
  exact ceilDiv_mono hunit hle

/-- A larger package has no smaller layout. -/
theorem layOut_mono (hversion : Versioned header) {streams minis count streams' minis' count' : Nat} (hstreams : streams ≤ streams')
    (hminis : minis ≤ minis') (hcount : count ≤ count')
    (hfew : (layOut header streams' minis' count').totalSectors ≤ kCfbMaxSectors) :
    (layOut header streams minis count).totalSectors ≤ (layOut header streams' minis' count').totalSectors := by
  have hsize := hversion.sector
  have hsector : 0 < header.sectorSize := by omega
  have hper : 128 ≤ header.sectorSize / 4 := by omega
  have hslots : 0 < header.sectorSize / kDirEntrySize := by
    rcases hsize with hsize | hsize <;> rw [hsize] <;> decide
  have hcontainer := unitsFor_mono hsector (Nat.mul_le_mul_right kMiniSectorSize hminis)
  have hindex := unitsFor_mono (Nat.lt_of_lt_of_le (by decide) hper) hminis
  have hdirectory := unitsFor_mono hslots hcount
  rw [kCfbMaxSectors] at hfew
  simp only [layOut] at hfew ⊢
  generalize hothers : streams + unitsFor (minis * kMiniSectorSize) header.sectorSize + unitsFor minis (header.sectorSize / 4) +
    unitsFor count (header.sectorSize / kDirEntrySize) = others at *
  generalize hmore : streams' + unitsFor (minis' * kMiniSectorSize) header.sectorSize + unitsFor minis' (header.sectorSize / 4) +
    unitsFor count' (header.sectorSize / kDirEntrySize) = more at *
  have hle : others ≤ more := by omega
  obtain ⟨hfat, hdifat⟩ := indexSectors_mono hper hle (by omega)
  omega

theorem tally_root {weigh : Nat → Nat} {own : Nat} (signature : Option (List UInt8)) (label : Label) (kept : List Content) :
    tally weigh own (.storage label kept) ≤ tally weigh own (.storage label (rootContents signature kept)) := by
  cases signature with
  | none => exact Nat.le_refl _
  | some blob =>
      rw [tally_storage, tally_storage, rootContents, List.map_cons, List.sum_cons]
      omega

/-- A package that can be written with a signature can be written without one. -/
theorem writable_bare (hversion : Versioned m.header) (h : Writable m signature kept) : Writable m none kept := by
  refine ⟨h.contents, ?_, h.joint, fun blob hblob => ?_, ?_⟩
  · have hsep := h.separate
    cases signature with
    | none => exact hsep
    | some blob =>
        refine .storage _ _ ?_ fun c hc => hsep.child (List.mem_cons_of_mem _ hc)
        exact hsep.distinct.sublist (List.sublist_cons_self _ _)
  · cases hblob
  · obtain ⟨hsectors, hentries, hminis, hcontainer⟩ := h.room
    have hmini := @tally_root (miniUnits m.header) 0 signature (labelOf m.root) kept
    have hcount := @tally_root (fun _ => 1) 1 signature (labelOf m.root) kept
    have hordinary := @tally_root (ordinaryUnits m.header) 0 signature (labelOf m.root) kept
    refine ⟨(layOut_mono hversion hordinary hmini hcount hsectors).trans hsectors, hcount.trans hentries, hmini.trans hminis,
      (Nat.mul_le_mul_right _ hmini).trans_lt hcontainer⟩

/-- Where the package was written with a signature, it is also written without one. -/
theorem bare_of_written (hparse : parse bytes = .ok m) (h : writeCfb m signature = .ok out) :
    ∃ bare, writeCfb m none = .ok bare := by
  have haccepted := parse_accepted hparse
  obtain ⟨kept, hwritable⟩ := writable_of_written hparse h
  exact written_of_writable hparse (writable_bare ⟨haccepted.version, haccepted.cutoff⟩ hwritable)

/-! What can be made of the first package can be made of a rebuilt one -/

/-- A rebuilt package can be rebuilt into all that the first one can be rebuilt into. -/
theorem rebuilt_again {signature' : Option (List UInt8)} (hparse : parse bytes = .ok m) (hmid : writeCfb m signature = .ok mid)
    (hcheck : parse mid = .ok check) (hout : writeCfb m signature' = .ok out) : writeCfb check signature' = .ok out := by
  obtain ⟨kept, kept', hkept, hkept', hp, hlabel, hsepKept⟩ := kept_of_rebuilt hparse hmid hcheck
  obtain ⟨_, _, hsame, -, -, -, hjoint⟩ := writeCfb_content hparse hmid
  obtain rfl := Except.ok.inj (hcheck.symm.trans hsame)
  obtain ⟨entries, laid, hflatten, hlayout, rfl, final, u, hfinal, hcompare⟩ := writeCfb_eq_ok.1 hout
  generalize hnew : signature'.filter (fun blob => blob ≠ []) = new at *
  obtain ⟨cs, hcs, hsep, -⟩ := flatten_laid (parse_accepted hparse).geometry (parse_root hparse).1 hflatten
    (flatten_bound hparse hflatten)
  obtain rfl := Except.ok.inj (hkept.symm.trans hcs)
  have hroot : (rootContents new kept').Perm ((rootContents new kept).map Content.sorted) := by
    rw [← rootContents_sorted]
    exact rootContents_perm hp
  have hsep' : Separate (.storage (labelOf check.root) (rootContents new kept')) := by
    refine .storage _ _ ((sorted_children hsep.distinct).perm hroot.symm) fun c hc => ?_
    obtain ⟨d, hd, rfl⟩ := List.mem_map.1 (hroot.mem_iff.1 hc)
    exact (hsep.child hd).sorted
  have hkeptJoint : Joint check ((keptChildren check).flatMap streamNodes) := by
    rw [streamNodes_storage (parse_root hcheck).1] at hjoint
    exact hjoint.sublist (List.filter_sublist.flatMap _)
  obtain ⟨entries', hflatten'⟩ := flatten_ok (parse_accepted hcheck).geometry hkept' hsep' hkeptJoint
  have hsorted : (Content.storage (labelOf check.root) (rootContents new kept')).sorted =
      (Content.storage (labelOf m.root) (rootContents new kept)).sorted := by
    rw [sorted_eq_of_perm hsep'.distinct hroot, sorted_map_sorted fun c hc => hsep.child hc, hlabel]
  have hshown := flatten_shown hcheck hparse hkept' hkept hsorted hflatten' hflatten
  obtain ⟨others, hothers, hmap, hbytes⟩ := layout_congr (writeCfb_header hparse hmid hcheck) hshown hlayout
  refine writeCfb_eq_ok.2 ⟨entries', (laid.1, others), hnew ▸ hflatten', hothers, hbytes, final, u, hfinal, ?_⟩
  rw [← compareEntry_shown, hmap, compareEntry_shown]
  exact hcompare

variable {readAuthenticodeDigestField : List UInt8 → AuthenticodeDigestField} {hash : List UInt8 → List UInt8}
  {filePath : String} {last : Option SignerCall} {calls : List SignerCall}

theorem strip_eq_ok : (∃ result, SignerCall.strip.run readAuthenticodeDigestField hash filePath file = .ok result) ↔
    ∃ m, parse file = .ok m ∧ (findByEnumeration m.root msiSignatureName = none ∧
      findByEnumeration m.root msiSignatureExName = none ∨ ∃ out, writeCfb m none = .ok out) := by
  simp only [SignerCall.run, except_map_eq_ok, stripSignature, guarded_eq_ok]
  constructor
  · rintro ⟨_, stripped, h, -⟩
    obtain ⟨m, hparse, h⟩ := bind_eq_ok.1 h
    refine ⟨m, hparse, ?_⟩
    split at h
    · rename_i hbare
      exact .inl hbare
    · obtain ⟨out, hout, -⟩ := bind_eq_ok.1 h
      exact .inr ⟨out, hout⟩
  · rintro ⟨m, hparse, h⟩
    by_cases hbare : findByEnumeration m.root msiSignatureName = none ∧ findByEnumeration m.root msiSignatureExName = none
    · refine ⟨file, (false, file), bind_eq_ok.2 ⟨m, hparse, ?_⟩, rfl⟩
      rw [if_pos hbare]
      rfl
    · obtain ⟨out, hout⟩ := h.resolve_left hbare
      refine ⟨out, (true, out), bind_eq_ok.2 ⟨m, hparse, ?_⟩, rfl⟩
      rw [if_neg hbare, hout]
      rfl

/-- A call succeeds on a file on the way exactly when it succeeds on the first one. -/
theorem call_again (h : MadeBy readAuthenticodeDigestField hash filePath file last mid) (call : SignerCall) :
    (∃ result, call.run readAuthenticodeDigestField hash filePath mid = .ok result) ↔
      ∃ result, call.run readAuthenticodeDigestField hash filePath file = .ok result := by
  rcases h.rebuilt with ⟨rfl, -⟩ | ⟨m, signature, hparse, hmid⟩
  · exact Iff.rfl
  · obtain ⟨-, -, -, -, -, check, -, hcheck, -⟩ := writeCfb_eq_ok.1 hmid
    have hmajor : check.header.majorVersion = m.header.majorVersion := by rw [(writeCfb_header hparse hmid hcheck).header]
    cases call with
    | embed blob requireMatchingDigest =>
        constructor
        · rintro ⟨result, hrun⟩
          obtain ⟨hblob, other, hother, hsize, hwrite, hrequired⟩ := embedSignature_eq_ok.1 hrun
          obtain rfl := Except.ok.inj (hcheck.symm.trans hother)
          rw [hmajor] at hsize
          exact ⟨result, embedSignature_eq_ok.2
            ⟨hblob, m, hparse, hsize, rebuild_again hparse hmid hcheck hwrite, hrequired⟩⟩
        · rintro ⟨result, hrun⟩
          obtain ⟨hblob, other, hother, hsize, hwrite, hrequired⟩ := embedSignature_eq_ok.1 hrun
          obtain rfl := Except.ok.inj (hparse.symm.trans hother)
          rw [← hmajor] at hsize
          exact ⟨result, embedSignature_eq_ok.2
            ⟨hblob, check, hcheck, hsize, rebuilt_again hparse hmid hcheck hwrite, hrequired⟩⟩
    | strip =>
        obtain ⟨bare, hbare⟩ := bare_of_written hparse hmid
        have hagain := rebuilt_again hparse hmid hcheck hbare
        exact iff_of_true (strip_eq_ok.2 ⟨check, hcheck, .inr ⟨bare, hagain⟩⟩) (strip_eq_ok.2 ⟨m, hparse, .inr ⟨bare, hbare⟩⟩)

theorem made_next (h : MadeBy readAuthenticodeDigestField hash filePath file last mid) {call : SignerCall}
    {next : List UInt8} (hcall : call.run readAuthenticodeDigestField hash filePath mid = .ok next) :
    ∃ after, MadeBy readAuthenticodeDigestField hash filePath file after next := by
  cases call with
  | embed blob requireMatchingDigest =>
      have htrack : trackCall readAuthenticodeDigestField hash filePath (last, mid) (.embed blob requireMatchingDigest) =
          .ok (some (.embed blob requireMatchingDigest), next) := bind_eq_ok.2 ⟨next, hcall, rfl⟩
      exact ⟨_, h.step htrack⟩
  | strip =>
      obtain ⟨stripped, hs, rfl⟩ := map_eq_ok.1 hcall
      have htrack : trackCall readAuthenticodeDigestField hash filePath (last, mid) .strip =
          .ok (if stripped.1 then some .strip else last, stripped.2) := bind_eq_ok.2 ⟨stripped, hs, rfl⟩
      exact ⟨_, h.step htrack⟩

theorem run_again (h : MadeBy readAuthenticodeDigestField hash filePath file last mid) :
    (∃ result, runCalls readAuthenticodeDigestField hash filePath calls mid = .ok result) ↔
      ∀ call ∈ calls, ∃ result, call.run readAuthenticodeDigestField hash filePath file = .ok result := by
  induction calls generalizing last mid with
  | nil => exact iff_of_true ⟨mid, rfl⟩ fun call hcall => absurd hcall List.not_mem_nil
  | cons call calls ih =>
      rw [List.forall_mem_cons, ← call_again h call]
      constructor
      · rintro ⟨result, hrun⟩
        obtain ⟨next, hcall, hrest⟩ := foldlM_cons_eq_ok.1 hrun
        obtain ⟨after, hafter⟩ := made_next h hcall
        exact ⟨⟨next, hcall⟩, (ih hafter).1 ⟨result, hrest⟩⟩
      · rintro ⟨⟨next, hcall⟩, hall⟩
        obtain ⟨after, hafter⟩ := made_next h hcall
        obtain ⟨result, hrest⟩ := (ih hafter).2 hall
        exact ⟨result, foldlM_cons_eq_ok.2 ⟨next, hcall, hrest⟩⟩

/-- What can be embedded into can be stripped. -/
theorem strip_of_embed {blob signed : List UInt8} {requireMatchingDigest : Bool}
    (h : (SignerCall.embed blob requireMatchingDigest).run readAuthenticodeDigestField hash filePath file = .ok signed) :
    ∃ result, SignerCall.strip.run readAuthenticodeDigestField hash filePath file = .ok result := by
  obtain ⟨-, m, hparse, -, hwrite, -⟩ := embedSignature_eq_ok.1 h
  obtain ⟨bare, hbare⟩ := bare_of_written hparse hwrite
  exact strip_eq_ok.2 ⟨m, hparse, .inr ⟨bare, hbare⟩⟩

/-- A run of calls succeeds exactly when each of its calls succeeds on the first file alone, whatever their order; and
what an embedding has made of a file can be stripped, as can the file itself. -/
theorem run_succeeds_iff (calls : List SignerCall) (file : List UInt8) :
    ((∃ result, runCalls readAuthenticodeDigestField hash filePath calls file = .ok result) ↔
      ∀ call ∈ calls, ∃ result, call.run readAuthenticodeDigestField hash filePath file = .ok result) ∧
    ∀ blob requireMatchingDigest signed,
      (SignerCall.embed blob requireMatchingDigest).run readAuthenticodeDigestField hash filePath file = .ok signed →
        (∃ result, SignerCall.strip.run readAuthenticodeDigestField hash filePath file = .ok result) ∧
          ∃ result, SignerCall.strip.run readAuthenticodeDigestField hash filePath signed = .ok result := by
  have hstart : MadeBy readAuthenticodeDigestField hash filePath file none file := rfl
  refine ⟨run_again hstart, ?_⟩
  intro blob requireMatchingDigest signed hembed
  have hstrip := strip_of_embed hembed
  obtain ⟨last, hsigned⟩ := made_next hstart hembed
  exact ⟨hstrip, (call_again hsigned .strip).2 hstrip⟩

end TheSeed.MsiProgress
