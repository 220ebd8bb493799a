import TheSeed.CfbAnyOrder
import TheSeed.DigestEncoding
import TheSeed.MsiSigner

namespace TheSeed.MsiSignerRuns

open Bytes Checked BoundedBytes CfbReader CfbResolve CfbJoint MsiAuthenticode CfbWriter SortedBy CfbNames CfbContent
  Content MsiFingerprint CfbFlatten CfbTree CfbSelfCheck MsiSigner
open CfbAnyOrder (minisPackage)
open DigestEncoding (sampleSignature)

/-! Over any run of calls the bytes that are fed to the hash stay the same. -/

variable {m check : PackageModel} {nodes : List CfbNode} {cs : List Content} {file file' out fed : List UInt8}
  {readAuthenticodeDigestField : List UInt8 → AuthenticodeDigestField} {hash : List UInt8 → List UInt8}
  {filePath : String}

theorem contentsOf_filter (keep : CfbName → Bool) (h : contentsOf m nodes = .ok cs) :
    contentsOf m (nodes.filter fun node => keep node.name) = .ok (cs.filter fun c => keep c.name) := by
  rw [contentsOf_eq_ok] at h ⊢
  induction h with
  | nil => exact .nil
  | cons hc _ ih =>
      rw [List.filter_cons, List.filter_cons, name_of_content hc]
      split
      · exact .cons hc ih
      · exact ih

theorem counted_true : counted true = fun child => !isMsiSignatureName child.name := by
  funext child
  simp [counted]

theorem keptChildren_eq (m : PackageModel) : keptChildren m = m.root.children.filter (counted true) := by
  rw [keptChildren, counted_true]
  congr
  funext child
  cases isMsiSignatureName child.name <;> rfl

/-- Without the signature streams the contents of the root are those that were kept. -/
theorem filter_rootContents {signature : Option (List UInt8)} {kept : List Content}
    (h : ∀ c ∈ kept, isMsiSignatureName c.name = false) :
    (rootContents signature kept).filter (fun c => !isMsiSignatureName c.name) = kept := by
  have hkept : kept.filter (fun c => !isMsiSignatureName c.name) = kept := by
    rw [List.filter_eq_self]
    intro c hc
    rw [h c hc]
    rfl
  cases signature with
  | none => exact hkept
  | some blob =>
      rw [rootContents, List.filter_cons, if_neg, hkept]
      simp [Content.name, Content.label, labelOf, signatureItem, isMsiSignatureName]

theorem mem_rootContents {signature : Option (List UInt8)} {kept : List Content} {c : Content} (h : c ∈ kept) :
    c ∈ rootContents signature kept := by
  cases signature with
  | none => exact h
  | some blob => exact List.mem_cons_of_mem _ h

theorem kept_names {kept : List Content} (h : contentsOf m (keptChildren m) = .ok kept) :
    ∀ c ∈ kept, isMsiSignatureName c.name = false := by
  intro c hc
  have hname : c.name ∈ (keptChildren m).map CfbNode.name := by
    rw [← names_of_contents h]
    exact List.mem_map_of_mem hc
  obtain ⟨child, hchild, heq⟩ := List.mem_map.1 hname
  rw [← heq]
  exact of_decide_eq_true (List.mem_filter.1 hchild).2

/-- The rebuilt package feeds what was kept. -/
theorem fed_sorted_root {signature : Option (List UInt8)} {kept ds : List Content} {label : Label}
    (hnames : ∀ c ∈ kept, isMsiSignatureName c.name = false) (hkept : ∀ c ∈ kept, Separate c)
    (hd : Distinct (fun c => nameKey c.name) ds) (hp : ds.Perm ((rootContents signature kept).map Content.sorted)) :
    (Content.storage label (ds.filter fun c => !isMsiSignatureName c.name)).fed = (Content.storage label kept).fed := by
  refine fed_eq_of_perm (hd.sublist List.filter_sublist) ?_
  have hfilter : ((rootContents signature kept).map Content.sorted).filter (fun c => !isMsiSignatureName c.name) =
      kept.map Content.sorted := by
    rw [List.filter_map]
    simp only [Function.comp_def, name_sorted, filter_rootContents hnames]
  rw [← parts_sorted fun c hc => (hkept c hc).fed_sorted, ← hfilter]
  exact parts_perm (hp.filter _)

/-- The walk of a rebuilt package feeds what was kept of the first one. -/
theorem hash_rebuilt (hparse : parse file = .ok m) {signature : Option (List UInt8)}
    (h : writeCfb m signature = .ok out) : ∃ check kept u, parse out = .ok check ∧
      contentsOf m (keptChildren m) = .ok kept ∧
      hashStorage check true check.root {} = .ok ((Content.storage (labelOf m.root) kept).fed, u) ∧
      After check ((check.root.children.filter (counted true)).flatMap streamNodes) u := by
  obtain ⟨check, kept, hcheck, hkept, hsep, hcontent, hjoint⟩ := writeCfb_content hparse h
  have hroot := (parse_root hcheck).1
  obtain ⟨ds, hds, hroots⟩ := (contentOf_storage hroot).1 hcontent
  have hsorted := hsep.sorted
  rw [← hroots] at hsorted
  rw [sorted] at hroots
  injection hroots with hlabel hchildren
  have hdn : Distinct (fun child => nameKey child.name) check.root.children := by
    have hnames := distinct_map.2 hsorted.distinct
    rw [names_of_contents hds] at hnames
    exact distinct_map.1 hnames
  have hcounted := contentsOf_filter (fun name => !isMsiSignatureName name) hds
  rw [← counted_true] at hcounted
  rw [streamNodes_storage hroot] at hjoint
  obtain ⟨v, hv, hafter⟩ := hashStorage_ok (parse_accepted hcheck).geometry hdn hcounted
    (fun c hc => hsorted.child (List.mem_of_mem_filter hc)) (After.initial check)
    (hjoint.sublist (by rw [List.append_nil]; exact List.filter_sublist.flatMap _))
  have hsepKept : ∀ c ∈ kept, Separate c := fun c hc => hsep.child (mem_rootContents hc)
  rw [hlabel, fed_sorted_root (kept_names hkept) hsepKept hsorted.distinct (hchildren ▸ sortBy_perm _ _)] at hv
  rw [List.append_nil] at hafter
  exact ⟨check, kept, v, hcheck, hkept, hv, hafter⟩

theorem fed_of_rebuilt (hparse : parse file = .ok m) (hfed : fingerprintInput m = .ok fed)
    {signature : Option (List UInt8)} (h : writeCfb m signature = .ok out) : packageFed out = .ok fed := by
  obtain ⟨⟨_, u⟩, hhash, heq⟩ := bind_eq_ok.1 hfed
  cases heq
  obtain ⟨check, kept, v, hcheck, hkept, hv, -⟩ := hash_rebuilt hparse h
  obtain ⟨-, cs, -, hcs, hfed, -, -⟩ := hashStorage_content (parse_accepted hparse).geometry (After.initial m) hhash
  rw [← keptChildren_eq, hkept] at hcs
  cases hcs
  rw [hfed] at hv
  rw [packageFed, hcheck, ok_bind, fingerprintInput, hv]
  rfl

theorem guarded_eq_ok {α : Type} {operation : Outcome α} {a : α} :
    guarded filePath operation = .ok a ↔ operation = .ok a := by
  cases operation with
  | error message =>
      simp only [guarded, reduceCtorEq, iff_false]
      split <;> nofun
  | ok b => rfl

theorem embedSignature_rebuilt {blob : List UInt8} {requireMatchingDigest : Bool}
    (h : embedSignature readAuthenticodeDigestField hash filePath file blob requireMatchingDigest = .ok out) :
    ∃ m, parse file = .ok m ∧ writeCfb m (some blob) = .ok out := by
  rw [embedSignature, guarded_eq_ok] at h
  by_cases hblob : blob = []
  · rw [if_pos hblob] at h
    cases h
  · rw [if_neg hblob] at h
    obtain ⟨m, hparse, h⟩ := bind_eq_ok.1 h
    obtain ⟨-, -, h⟩ := bind_eq_ok.1 h
    refine ⟨m, hparse, ?_⟩
    cases requireMatchingDigest with
    | false => exact h
    | true =>
        obtain ⟨field, -, h⟩ := bind_eq_ok.1 h
        obtain ⟨rebuilt, hrebuilt, h⟩ := bind_eq_ok.1 h
        obtain ⟨-, -, h⟩ := bind_eq_ok.1 h
        cases h
        exact hrebuilt

theorem stripSignature_rebuilt {done : Bool × List UInt8} (h : stripSignature filePath file = .ok done) :
    done.2 = file ∨ ∃ m, parse file = .ok m ∧ writeCfb m none = .ok done.2 := by
  rw [stripSignature, guarded_eq_ok] at h
  obtain ⟨m, hparse, h⟩ := bind_eq_ok.1 h
  split at h
  · cases h
    exact .inl rfl
  · obtain ⟨rebuilt, hrebuilt, h⟩ := bind_eq_ok.1 h
    cases h
    exact .inr ⟨m, hparse, hrebuilt⟩

/-- What a call that returns leaves is the file or a rebuilt one. -/
theorem run_rebuilt {call : SignerCall}
    (h : call.run readAuthenticodeDigestField hash filePath file = .ok file') :
    file' = file ∨ ∃ m signature, parse file = .ok m ∧ writeCfb m signature = .ok file' := by
  cases call with
  | embed blob requireMatchingDigest =>
      obtain ⟨m, hparse, h⟩ := embedSignature_rebuilt h
      exact .inr ⟨m, some blob, hparse, h⟩
  | strip =>
      rw [SignerCall.run] at h
      cases hs : stripSignature filePath file with
      | error message => rw [hs] at h; cases h
      | ok done =>
          rw [hs] at h
          cases h
          obtain hsame | ⟨m, hparse, hw⟩ := stripSignature_rebuilt hs
          · exact .inl hsame
          · exact .inr ⟨m, none, hparse, hw⟩

theorem packageFed_eq_ok : packageFed file = .ok fed ↔ ∃ m, parse file = .ok m ∧ fingerprintInput m = .ok fed :=
  bind_eq_ok

theorem run_fed {call : SignerCall} (h : call.run readAuthenticodeDigestField hash filePath file = .ok file')
    (hfed : packageFed file = .ok fed) : packageFed file' = .ok fed := by
  obtain rfl | ⟨m, signature, hparse, hw⟩ := run_rebuilt h
  · exact hfed
  · obtain ⟨n, hn, hfed⟩ := packageFed_eq_ok.1 hfed
    rw [hparse] at hn
    cases hn
    exact fed_of_rebuilt hparse hfed hw

theorem runCalls_fed {calls : List SignerCall} (hfed : packageFed file = .ok fed)
    (h : runCalls readAuthenticodeDigestField hash filePath calls file = .ok file') : packageFed file' = .ok fed := by
  induction calls generalizing file with
  | nil => cases h; exact hfed
  | cons call calls ih =>
      rw [runCalls, List.foldlM_cons] at h
      obtain ⟨next, hcall, h⟩ := bind_eq_ok.1 h
      exact ih (run_fed hcall hfed) h

/-- The fingerprint is the hash of what is fed to it. -/
theorem computeAuthenticodeDigest_eq_ok {digest : List UInt8} :
    computeAuthenticodeDigest hash filePath file = .ok digest ↔ ∃ fed, packageFed file = .ok fed ∧ hash fed = digest := by
  rw [computeAuthenticodeDigest, guarded_eq_ok]
  constructor
  · intro h
    obtain ⟨m, hparse, h⟩ := bind_eq_ok.1 h
    obtain ⟨fed, hfed, h⟩ := bind_eq_ok.1 h
    cases h
    exact ⟨fed, packageFed_eq_ok.2 ⟨m, hparse, hfed⟩, rfl⟩
  · rintro ⟨fed, hfed, rfl⟩
    obtain ⟨m, hparse, hfed⟩ := packageFed_eq_ok.1 hfed
    rw [hparse, ok_bind, computeMsiFingerprint, hfed]
    rfl

theorem fingerprint_unchanged {calls : List SignerCall} {digest : List UInt8}
    (hdigest : computeAuthenticodeDigest hash filePath file = .ok digest)
    (hrun : runCalls readAuthenticodeDigestField hash filePath calls file = .ok file') :
    ∃ fed, packageFed file = .ok fed ∧ packageFed file' = .ok fed ∧
      computeAuthenticodeDigest hash filePath file' = .ok digest := by
  obtain ⟨fed, hfed, hhash⟩ := computeAuthenticodeDigest_eq_ok.1 hdigest
  have hfed' := runCalls_fed hfed hrun
  exact ⟨fed, hfed, hfed', computeAuthenticodeDigest_eq_ok.2 ⟨fed, hfed', hhash⟩⟩

/-- What is read back has bytes. -/
theorem embedSignature_length_pos {blob out : List UInt8} {requireMatchingDigest : Bool}
    (h : embedSignature readAuthenticodeDigestField hash filePath file blob requireMatchingDigest = .ok out) :
    0 < out.length := by
  obtain ⟨m, hparse, hw⟩ := embedSignature_rebuilt h
  obtain ⟨_, _, _, hcheck, -⟩ := hash_rebuilt hparse hw
  refine List.length_pos_iff.2 ?_
  rintro rfl
  cases hcheck

/-- A package is signed, stripped and signed again. -/
def signAgain : List SignerCall :=
  [.embed (sampleSignature (List.replicate 32 7)) false, .strip, .embed (sampleSignature (List.replicate 32 8)) false]

theorem signAgain_runs : ∃ file', runCalls (fun _ => {}) id "a.msi" signAgain minisPackage = .ok file' :=
  exists_of_isOk (by decide +kernel)

theorem fingerprint_unchanged_sign_strip : ∃ digest file' fed,
    runCalls (fun _ => {}) id "a.msi" signAgain minisPackage = .ok file' ∧
    computeAuthenticodeDigest id "a.msi" minisPackage = .ok digest ∧ packageFed minisPackage = .ok fed ∧
    packageFed file' = .ok fed ∧ computeAuthenticodeDigest id "a.msi" file' = .ok digest := by
  obtain ⟨digest, hdigest⟩ := exists_of_isOk (x := computeAuthenticodeDigest id "a.msi" minisPackage) (by decide +kernel)
  obtain ⟨file', hrun⟩ := signAgain_runs
  obtain ⟨fed, h⟩ := fingerprint_unchanged hdigest hrun
  exact ⟨digest, file', fed, hrun, hdigest, h⟩

end TheSeed.MsiSignerRuns
