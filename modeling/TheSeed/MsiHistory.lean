import TheSeed.CfbCanonical
import TheSeed.CfbHeader
import TheSeed.CfbStreams
import TheSeed.MsiSignerRuns

namespace TheSeed.MsiHistory

open Bytes Checked BoundedBytes CfbReader CfbResolve CfbJoint MsiAuthenticode CfbWriter SortedBy CfbNames CfbContent
  Content MsiFingerprint CfbFlatten CfbTree CfbStreams CfbSelfCheck CfbCanonical CfbHeader MsiSigner MsiSignerRuns
open CfbAnyOrder (minisPackage)
open DigestEncoding (sampleSignature)

/-! Signing and stripping a package leaves no trace of the calls before the last one that changed the file. -/

variable {m check : PackageModel} {layout : Layout} {entries : List Entry} {bytes file mid out : List UInt8}

/-! The header survives a rebuild -/

/-- What of the header a model keeps is what its source has. -/
structure ReadHeader (bytes : List UInt8) (m : PackageModel) : Prop where
  long : 512 ≤ bytes.length
  minor : m.header.minorVersion = leValue (slice bytes 24 2)
  major : m.header.majorVersion = leValue (slice bytes 26 2)

theorem parseHeader_read {first : PackageModel} (h : parseHeader first = .ok m) : ReadHeader first.source.bytes m := by
  simp only [parseHeader, bind_eq_ok, rejectIf_eq_ok, exists_const, pure_eq_ok, Except.ok.injEq,
    ByteSpan.read_eq_ok, ByteOrder.value] at h
  obtain ⟨hlong, -, -, minor, ⟨-, hminor⟩, major, ⟨-, hmajor⟩, h⟩ := h
  obtain ⟨order, -, -, power, -, mini, -, -, -, -, -, -, h⟩ := h
  obtain ⟨dir, -, cutoff, -, firstMini, -, totalMini, -, firstDifat, -, totalDifat, -, -, rfl⟩ := h
  exact ⟨Nat.le_of_not_lt hlong, hminor.symm, hmajor.symm⟩

theorem ReadHeader.transfer {m' : PackageModel} (h : ReadHeader bytes m) (hheader : m'.header = m.header) :
    ReadHeader bytes m' :=
  ⟨h.long, hheader ▸ h.minor, hheader ▸ h.major⟩

theorem parse_read (h : parse bytes = .ok m) : ReadHeader bytes m := by
  obtain ⟨m₁, hheader, h⟩ := bind_eq_ok.1 h
  obtain ⟨m₂, hfat, h⟩ := bind_eq_ok.1 h
  obtain ⟨m₃, hmini, h⟩ := bind_eq_ok.1 h
  obtain ⟨directory, -, htree⟩ := bind_eq_ok.1 h
  have h₁ : ReadHeader bytes m₁ := parseHeader_read hheader
  have h₂ : m₂.header = m₁.header := by
    simp only [buildFat, bind_eq_ok, pure_eq_ok, Except.ok.injEq] at hfat
    obtain ⟨listed, -, extended, -, -, -, rfl⟩ := hfat
    rfl
  have h₃ : m₃.header = m₂.header := by
    rw [buildMiniFat] at hmini
    split at hmini
    · cases hmini
      rfl
    · simp only [bind_eq_ok, pure_eq_ok, Except.ok.injEq] at hmini
      obtain ⟨chain, -, parts, -, rfl⟩ := hmini
      rfl
  have h₄ : m.header = m₃.header := by
    simp only [CfbReader.buildTree, bind_eq_ok, pure_eq_ok, Except.ok.injEq] at htree
    obtain ⟨-, -, read, -, rfl⟩ := htree
    rfl
  exact h₁.transfer (h₄.trans (h₃.trans h₂))

theorem readHeader_bounds (h : ReadHeader bytes m) :
    m.header.minorVersion < 2 ^ 16 ∧ m.header.majorVersion < 2 ^ 16 := by
  have hlong := h.long
  have hminor := leValue_lt (slice bytes 24 2)
  have hmajor := leValue_lt (slice bytes 26 2)
  rw [length_slice_of_le (by omega)] at hminor hmajor
  rw [h.minor, h.major]
  exact ⟨hminor, hmajor⟩

/-- The header of a rebuilt package says what the header of the first one says. -/
theorem writeCfb_header {signature : Option (List UInt8)} (hparse : parse bytes = .ok m)
    (h : writeCfb m signature = .ok out) (hcheck : parse out = .ok check) : SameHeader check m := by
  obtain ⟨entries, laid, -, hlayout, rfl, -⟩ := writeCfb_eq_ok.1 h
  have hread := parse_read hparse
  have hlong := hread.long
  have hsource := (parse_accepted hparse).source
  have hheader := computeLayout_headerSize hlayout
  obtain ⟨hminor, hmajor⟩ := readHeader_bounds hread
  have hminorField : slice (serialise m laid.2 laid.1) 24 2 = leBytes 2 m.header.minorVersion := by
    refine slice_serialise_field ?_ (length_leBytes _ _) hheader
    simp [headerFields]
  have hmajorField : slice (serialise m laid.2 laid.1) 26 2 = leBytes 2 m.header.majorVersion := by
    refine slice_serialise_field ?_ (length_leBytes _ _) hheader
    simp [headerFields]
  have hearlyField : slice (serialise m laid.2 laid.1) 8 16 = slice m.source.bytes 8 16 := by
    refine slice_serialise_field ?_ (length_slice_of_le (by rw [hsource]; omega)) hheader
    simp [headerFields]
  have hlateField : slice (serialise m laid.2 laid.1) 52 4 = slice m.source.bytes 52 4 := by
    refine slice_serialise_field ?_ (length_slice_of_le (by rw [hsource]; omega)) hheader
    simp [headerFields]
  have hchecked := parse_read hcheck
  refine sameHeader_of_accepted (parse_accepted hcheck) (parse_accepted hparse) ?_ ?_ ?_ ?_
  · rw [hchecked.major, hmajorField, leValue_leBytes_of_lt (by omega)]
  · rw [hchecked.minor, hminorField, leValue_leBytes_of_lt (by omega)]
  · rw [hearlyField, hsource]
  · rw [hlateField, hsource]

/-! A second rebuild -/

/-- The streams and storages that a rebuild keeps of a rebuilt package are those that it keeps of the first. -/
theorem kept_of_rebuilt {signature : Option (List UInt8)} (hparse : parse bytes = .ok m)
    (h : writeCfb m signature = .ok out) (hcheck : parse out = .ok check) :
    ∃ kept kept', contentsOf m (keptChildren m) = .ok kept ∧ contentsOf check (keptChildren check) = .ok kept' ∧
      kept'.Perm (kept.map Content.sorted) ∧ labelOf check.root = labelOf m.root ∧ ∀ c ∈ kept, Separate c := by
  obtain ⟨_, kept, hcheck', hkept, hsep, hcontent, -⟩ := writeCfb_content hparse h
  obtain rfl := Except.ok.inj (hcheck.symm.trans hcheck')
  obtain ⟨ds, hds, hroots⟩ := (contentOf_storage (parse_root hcheck).1).1 hcontent
  rw [Content.sorted] at hroots
  injection hroots with hlabel hchildren
  have hfilter := contentsOf_filter (fun name => !isMsiSignatureName name) hds
  rw [← counted_true, ← keptChildren_eq] at hfilter
  refine ⟨kept, _, hkept, hfilter, ?_, hlabel, ?_⟩
  · have hall : ((rootContents (signature.filter fun blob => blob ≠ []) kept).map Content.sorted).filter
        (fun c => !isMsiSignatureName c.name) = kept.map Content.sorted := by
      rw [List.filter_map]
      simp only [Function.comp_def, name_sorted, filter_rootContents (kept_names hkept)]
    rw [← hall, hchildren]
    exact (sortBy_perm _ _).filter _
  · intro c hc
    exact hsep.child (mem_rootContents hc)

theorem rootContents_perm {signature : Option (List UInt8)} {cs ds : List Content} (h : cs.Perm ds) :
    (rootContents signature cs).Perm (rootContents signature ds) := by
  cases signature with
  | none => exact h
  | some blob => exact h.cons _

theorem rootContents_sorted (signature : Option (List UInt8)) (cs : List Content) :
    rootContents signature (cs.map Content.sorted) = (rootContents signature cs).map Content.sorted := by
  cases signature with
  | none => rfl
  | some blob => rw [rootContents, rootContents, List.map_cons, Content.sorted]

/-- Rebuilding a rebuilt package makes what rebuilding the first one makes. -/
theorem rebuild_again {signature signature' : Option (List UInt8)} (hparse : parse bytes = .ok m)
    (hmid : writeCfb m signature = .ok mid) (hcheck : parse mid = .ok check)
    (hout : writeCfb check signature' = .ok out) : writeCfb m signature' = .ok out := by
  obtain ⟨kept, kept', hkept, hkept', hp, hlabel, hsepKept⟩ := kept_of_rebuilt hparse hmid hcheck
  obtain ⟨first, -, hfirst, -⟩ := writeCfb_eq_ok.1 hmid
  obtain ⟨entries', laid, hflatten', hlayout, rfl, final, u, hfinal, hcompare⟩ := writeCfb_eq_ok.1 hout
  generalize hnew : signature'.filter (fun blob => blob ≠ []) = new at *
  obtain ⟨cs, hcs, hsep', -⟩ := flatten_laid (parse_accepted hcheck).geometry (parse_root hcheck).1 hflatten'
    (flatten_bound hcheck hflatten')
  obtain rfl := Except.ok.inj (hkept'.symm.trans hcs)
  have hroot : (rootContents new kept').Perm ((rootContents new kept).map Content.sorted) := by
    rw [← rootContents_sorted]
    exact rootContents_perm hp
  have hd : Distinct (fun c => nameKey c.name) (rootContents new kept) := by
    have hd := hsep'.distinct.perm hroot
    rw [distinct_map] at hd
    simpa only [name_sorted] using hd
  have hsepRoot : ∀ c ∈ rootContents new kept, Separate c := by
    cases new with
    | none => exact hsepKept
    | some blob => exact List.forall_mem_cons.2 ⟨.stream _ _, hsepKept⟩
  have hsep : Separate (.storage (labelOf m.root) (rootContents new kept)) := .storage _ _ hd hsepRoot
  obtain ⟨entries, hflatten⟩ := flatten_ok (parse_accepted hparse).geometry hkept hsep
    (flatten_joint (parse_accepted hparse).geometry hfirst)
  have hsorted : (Content.storage (labelOf m.root) (rootContents new kept)).sorted =
      (Content.storage (labelOf check.root) (rootContents new kept')).sorted := by
    rw [sorted_eq_of_perm hsep'.distinct hroot, sorted_map_sorted hsepRoot, hlabel]
  have hshown := flatten_shown hparse hcheck hkept hkept' hsorted hflatten hflatten'
  have hheader : SameHeader m check := by
    obtain ⟨hheader, hearly, hlate⟩ := writeCfb_header hparse hmid hcheck
    exact ⟨hheader.symm, hearly.symm, hlate.symm⟩
  obtain ⟨others, hothers, hmap, hbytes⟩ := layout_congr hheader hshown hlayout
  refine writeCfb_eq_ok.2 ⟨entries, (laid.1, others), hnew ▸ hflatten, hothers, hbytes, final, u, hfinal, ?_⟩
  rw [← compareEntry_shown, hmap, compareEntry_shown]
  exact hcompare

/-! Runs of calls -/

section Runs

variable (readAuthenticodeDigestField : List UInt8 → AuthenticodeDigestField) (hash : List UInt8 → List UInt8)
  (filePath : String)

/-- A call on a file, which also says which call changed the file last. -/
def trackCall (state : Option SignerCall × List UInt8) : SignerCall → Outcome (Option SignerCall × List UInt8)
  | .embed blob requireMatchingDigest => do
      let file ← embedSignature readAuthenticodeDigestField hash filePath state.2 blob requireMatchingDigest
      return (some (.embed blob requireMatchingDigest), file)
  | .strip => do
      let stripped ← stripSignature filePath state.2
      return (if stripped.1 then some .strip else state.1, stripped.2)

/-- A run of successful calls: the last of them that changed the file, and what it is in the end. -/
def trackCalls (calls : List SignerCall) (file : List UInt8) : Outcome (Option SignerCall × List UInt8) :=
  calls.foldlM (trackCall readAuthenticodeDigestField hash filePath) (none, file)

/-- What the last call that changed a file makes of it on its own. -/
def MadeBy (file : List UInt8) : Option SignerCall → List UInt8 → Prop
  | none, result => result = file
  | some (.embed blob requireMatchingDigest), result =>
      embedSignature readAuthenticodeDigestField hash filePath file blob requireMatchingDigest = .ok result
  | some .strip, result => ∃ m, parse file = .ok m ∧ writeCfb m none = .ok result

end Runs

variable {readAuthenticodeDigestField : List UInt8 → AuthenticodeDigestField} {hash : List UInt8 → List UInt8}
  {filePath : String} {last : Option SignerCall} {result blob : List UInt8} {requireMatchingDigest : Bool}

theorem run_iff_track {first : Option SignerCall} {call : SignerCall} {mid : List UInt8} :
    call.run readAuthenticodeDigestField hash filePath file = .ok mid ↔
      ∃ tracked, trackCall readAuthenticodeDigestField hash filePath (first, file) call = .ok (tracked, mid) := by
  cases call with
  | embed blob requireMatchingDigest =>
      constructor
      · intro he
        exact ⟨_, bind_eq_ok.2 ⟨mid, he, rfl⟩⟩
      · rintro ⟨tracked, h⟩
        obtain ⟨_, he, h⟩ := bind_eq_ok.1 h
        cases h
        exact he
  | strip =>
      constructor
      · intro h
        obtain ⟨stripped, hs, rfl⟩ := map_eq_ok.1 h
        exact ⟨_, bind_eq_ok.2 ⟨stripped, hs, rfl⟩⟩
      · rintro ⟨tracked, h⟩
        obtain ⟨stripped, hs, h⟩ := bind_eq_ok.1 h
        cases h
        exact map_eq_ok.2 ⟨stripped, hs, rfl⟩

/-- A run of successful calls can be followed, and what can be followed is such a run. -/
theorem runCalls_iff_track {calls : List SignerCall} :
    runCalls readAuthenticodeDigestField hash filePath calls file = .ok result ↔
      ∃ last, trackCalls readAuthenticodeDigestField hash filePath calls file = .ok (last, result) := by
  rw [runCalls]
  simp only [trackCalls]
  generalize (none : Option SignerCall) = first
  induction calls generalizing first file with
  | nil =>
      constructor
      · intro h
        cases h
        exact ⟨first, rfl⟩
      · rintro ⟨last, h⟩
        cases h
        rfl
  | cons call calls ih =>
      constructor
      · intro h
        obtain ⟨mid, hmid, hrest⟩ := foldlM_cons_eq_ok.mp h
        obtain ⟨next, hnext⟩ := run_iff_track.1 hmid
        obtain ⟨last, hlast⟩ := (ih next).1 hrest
        exact ⟨last, foldlM_cons_eq_ok.mpr ⟨_, hnext, hlast⟩⟩
      · rintro ⟨last, h⟩
        obtain ⟨⟨next, mid⟩, hmid, hrest⟩ := foldlM_cons_eq_ok.mp h
        exact foldlM_cons_eq_ok.mpr ⟨mid, run_iff_track.2 ⟨next, hmid⟩, (ih next).2 ⟨last, hrest⟩⟩

/-- The last call of a run that ends with an embedding is the one that made the file. -/
theorem last_of_embed (calls : List SignerCall)
    (h : trackCalls readAuthenticodeDigestField hash filePath (calls ++ [.embed blob requireMatchingDigest]) file =
      .ok (last, result)) : last = some (.embed blob requireMatchingDigest) := by
  rw [trackCalls, List.foldlM_append] at h
  obtain ⟨mid, -, h⟩ := bind_eq_ok.1 h
  obtain ⟨made, hmade, h⟩ := foldlM_cons_eq_ok.1 h
  obtain ⟨out, -, hmade⟩ := bind_eq_ok.1 hmade
  cases hmade
  cases h
  rfl

/-- What embedding asks of a file, step by step. -/
theorem embedSignature_eq_ok : embedSignature readAuthenticodeDigestField hash filePath file blob requireMatchingDigest =
      .ok out ↔ blob ≠ [] ∧ ∃ m, parse file = .ok m ∧ checkMsiSignatureSize blob.length m.header.majorVersion = .ok () ∧
        writeCfb m (some blob) = .ok out ∧ (requireMatchingDigest = true →
          ∃ field, readRequiredField readAuthenticodeDigestField filePath blob = .ok field ∧
            checkRequiredDigest hash filePath field out = .ok ()) := by
  rw [embedSignature, guarded_eq_ok]
  by_cases hblob : blob = []
  · rw [if_pos hblob]
    simp [hblob]
  · rw [if_neg hblob]
    constructor
    · intro h
      obtain ⟨m, hparse, h⟩ := bind_eq_ok.1 h
      obtain ⟨⟨⟩, hsize, h⟩ := bind_eq_ok.1 h
      refine ⟨hblob, m, hparse, hsize, ?_⟩
      cases requireMatchingDigest with
      | false =>
          refine ⟨h, fun hrequired => ?_⟩
          cases hrequired
      | true =>
          obtain ⟨field, hfield, h⟩ := bind_eq_ok.1 h
          obtain ⟨rebuilt, hrebuilt, h⟩ := bind_eq_ok.1 h
          obtain ⟨⟨⟩, hdigest, h⟩ := bind_eq_ok.1 h
          cases h
          exact ⟨hrebuilt, fun _ => ⟨field, hfield, hdigest⟩⟩
    · rintro ⟨-, m, hparse, hsize, hrebuilt, hrequired⟩
      refine bind_eq_ok.2 ⟨m, hparse, bind_eq_ok.2 ⟨(), hsize, ?_⟩⟩
      cases requireMatchingDigest with
      | false => exact hrebuilt
      | true =>
          obtain ⟨field, hfield, hdigest⟩ := hrequired rfl
          exact bind_eq_ok.2 ⟨field, hfield, bind_eq_ok.2 ⟨out, hrebuilt, bind_eq_ok.2 ⟨(), hdigest, rfl⟩⟩⟩

/-- A file that calls have changed is the first one rebuilt. -/
theorem MadeBy.rebuilt (h : MadeBy readAuthenticodeDigestField hash filePath file last result) :
    result = file ∧ last = none ∨ ∃ m signature, parse file = .ok m ∧ writeCfb m signature = .ok result := by
  cases last with
  | none => exact .inl ⟨h, rfl⟩
  | some call =>
      cases call with
      | embed blob requireMatchingDigest =>
          obtain ⟨-, m, hparse, -, hw, -⟩ := embedSignature_eq_ok.1 h
          exact .inr ⟨m, some blob, hparse, hw⟩
      | strip =>
          obtain ⟨m, hparse, hw⟩ := h
          exact .inr ⟨m, none, hparse, hw⟩

/-- Each call makes of a file on the way what it makes of the first one. -/
theorem MadeBy.step (h : MadeBy readAuthenticodeDigestField hash filePath file last mid) {call : SignerCall}
    {next : Option SignerCall}
    (hcall : trackCall readAuthenticodeDigestField hash filePath (last, mid) call = .ok (next, result)) :
    MadeBy readAuthenticodeDigestField hash filePath file next result := by
  have hagain : ∀ check signature, parse mid = .ok check → writeCfb check signature = .ok result →
      ∃ m, parse file = .ok m ∧ m.header.majorVersion = check.header.majorVersion ∧ writeCfb m signature = .ok result := by
    intro check signature hcheck hw
    rcases h.rebuilt with ⟨rfl, -⟩ | ⟨m, first, hparse, hfirst⟩
    · exact ⟨check, hcheck, rfl, hw⟩
    · refine ⟨m, hparse, ?_, rebuild_again hparse hfirst hcheck hw⟩
      rw [(writeCfb_header hparse hfirst hcheck).header]
  cases call with
  | embed blob requireMatchingDigest =>
      obtain ⟨out, he, hcall⟩ := bind_eq_ok.1 hcall
      cases hcall
      obtain ⟨hblob, check, hcheck, hsize, hw, hrequired⟩ := embedSignature_eq_ok.1 he
      obtain ⟨m, hparse, hmajor, hw⟩ := hagain check _ hcheck hw
      exact embedSignature_eq_ok.2 ⟨hblob, m, hparse, by rw [hmajor]; exact hsize, hw, hrequired⟩
  | strip =>
      obtain ⟨⟨stripped, out⟩, hs, hcall⟩ := bind_eq_ok.1 hcall
      cases hcall
      rw [stripSignature, guarded_eq_ok] at hs
      obtain ⟨check, hcheck, hs⟩ := bind_eq_ok.1 hs
      split at hs
      · cases hs
        exact h
      · obtain ⟨rebuilt, hw, hs⟩ := bind_eq_ok.1 hs
        cases hs
        obtain ⟨m, hparse, -, hw⟩ := hagain check none hcheck hw
        exact ⟨m, hparse, hw⟩

/-- A run of successful calls leaves what its last call that changed the file makes of the first file alone. -/
theorem embed_strip_history_independent {calls : List SignerCall}
    (hrun : trackCalls readAuthenticodeDigestField hash filePath calls file = .ok (last, result)) :
    MadeBy readAuthenticodeDigestField hash filePath file last result := by
  have hstart : MadeBy readAuthenticodeDigestField hash filePath file none file := rfl
  exact foldlM_invariant (fun state : Option SignerCall × List UInt8 =>
    MadeBy readAuthenticodeDigestField hash filePath file state.1 state.2) (fun _ _ _ h hcall => h.step hcall) hstart hrun

theorem embed_strip_history_independent_sign_strip : ∃ result,
    trackCalls (fun _ => {}) id "a.msi" signAgain minisPackage =
      .ok (some (.embed (sampleSignature (List.replicate 32 8)) false), result) ∧
    MadeBy (fun _ => {}) id "a.msi" minisPackage (some (.embed (sampleSignature (List.replicate 32 8)) false)) result := by
  obtain ⟨result, hrun⟩ := signAgain_runs
  obtain ⟨last, htrack⟩ := runCalls_iff_track.1 hrun
  obtain rfl := last_of_embed [.embed (sampleSignature (List.replicate 32 7)) false, .strip] htrack
  exact ⟨result, htrack, embed_strip_history_independent htrack⟩

end TheSeed.MsiHistory
