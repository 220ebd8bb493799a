import TheSeed.DigestField
import TheSeed.MsiHistory
import TheSeed.PagedFile

namespace TheSeed.MsiQueries

open Bytes Checked BoundedBytes CfbReader CfbResolve CfbJoint MsiAuthenticode CfbWriter SortedBy CfbNames CfbContent
  Content MsiFingerprint CfbFlatten CfbTree CfbStreams CfbSelfCheck CfbCanonical MsiSigner MsiSignerRuns MsiHistory

open CfbAnyOrder (minisPackage)
open DigestEncoding (sampleSignature)
open DigestField (readAuthenticodeDigestField)

/-! What the queries say of a package, and of one that was signed or stripped. -/

inductive SignatureState
  | none
  | matches
  | mismatch
  | unreadable
  deriving DecidableEq

structure SignatureCheck where
  state : SignatureState := .none
  storedDigest : List UInt8 := []
  computedDigest : List UInt8 := []
  detail : String := ""

/-- The signature stream among the root's children, found by enumeration. -/
def findSignatureEntry (m : PackageModel) : Option CfbNode := findByEnumeration m.root msiSignatureName

section Queries

variable (hash : List UInt8 → List UInt8) (filePath : String)

/-- A signature of size zero is no signature. -/
def signatureEntry (m : PackageModel) : Option CfbNode :=
  (findSignatureEntry m).filter fun entry => entry.size ≠ 0

def extractSignature (file : List UInt8) : Outcome (Option (List UInt8)) :=
  guarded filePath do
    let m ← parse file
    match signatureEntry m with
    | none => return none
    | some entry =>
        let blob ← (m.readStream entry {}).1
        return some blob

/-- The file is read in pages, and no byte of the stream is copied. -/
def hasEmbeddedSignature (file : List UInt8) : Outcome Bool :=
  guarded filePath do
    let m ← parse (PagedFile.data file)
    match signatureEntry m with
    | none => return false
    | some entry =>
        let _ ← (m.resolve entry {}).1
        return true

/-- The state of a signature that could be read from its stream. -/
def checkField (computed : List UInt8) (field : AuthenticodeDigestField) : SignatureCheck :=
  if field.readable = false then
    { state := .unreadable, computedDigest := computed, detail := "the signature cannot be read: " ++ field.detail }
  else if field.isSha256 = false then
    { state := .unreadable
      computedDigest := computed
      detail := "the signature uses digest algorithm " ++ field.algorithm ++ ", not SHA-256" }
  else if field.digest = computed then
    { state := .matches, storedDigest := field.digest, computedDigest := computed }
  else
    { state := .mismatch
      storedDigest := field.digest
      computedDigest := computed
      detail := mismatchText field.digest computed }

/-- A signature that cannot be read is a state, not an error. The stream is read after the fingerprint, on the same
model. -/
def checkSignature (file : List UInt8) : Outcome SignatureCheck :=
  guarded filePath do
    let m ← parse file
    let fed ← hashStorage m true m.root {}
    let computed := hash fed.1
    match signatureEntry m with
    | none => return { computedDigest := computed }
    | some entry =>
        match (m.readStream entry fed.2).1 with
        | .error detail => return { state := .unreadable, computedDigest := computed, detail := detail }
        | .ok blob => return checkField computed (readAuthenticodeDigestField blob)

/-- How a call ends and what it leaves: the file is replaced in the last step. -/
def writeBack (file : List UInt8) : Outcome (List UInt8) → Outcome Unit × List UInt8
  | .ok rebuilt => (.ok (), rebuilt)
  | .error reason => (.error reason, file)

end Queries

variable {m check : PackageModel} {node : CfbNode} {nodes : List CfbNode} {cs : List Content} {extents : ByteExtents}
  {u : Usage} {file out blob : List UInt8} {hash : List UInt8 → List UInt8} {filePath : String}
  {requireMatchingDigest : Bool}

/-! Reading a stream -/

theorem readStream_ok (hr : (m.resolve node u).1 = .ok extents)
    (hin : ∀ extent ∈ extents, extent.offset + extent.length ≤ m.source.bytes.length) :
    (m.readStream node u).1 = .ok (extentBytes m.source.bytes extents) := by
  rw [PackageModel.readStream]
  simp only [hr, ok_bind]
  clear hr
  induction extents with
  | nil => rfl
  | cons extent extents ih =>
      have hsub : m.source.sub extent.offset extent.length "stream data" =
          .ok ⟨slice m.source.bytes extent.offset extent.length, m.source.format, "stream data"⟩ :=
        ByteSpan.sub_eq_ok.2 ⟨hin extent List.mem_cons_self, rfl⟩
      obtain ⟨parts, hparts, heq⟩ := bind_eq_ok.1 (ih fun e he => hin e (List.mem_cons_of_mem _ he))
      rw [List.mapM_cons, hsub, ok_bind, hparts]
      simp only [ok_bind, pure_eq_ok, Except.ok.injEq] at heq ⊢
      rw [List.flatMap_cons, heq, extentBytes, extentBytes, List.flatMap_cons]

theorem resolve_inside (hg : Geometry m) (hr : (m.resolve node {}).1 = .ok extents) :
    ∀ extent ∈ extents, extent.offset + extent.length ≤ m.source.bytes.length := by
  cases hs : node.isStorage with
  | false => exact (resolve_full (.initial m) hg hs (Prod.ext hr rfl)).inside
  | true =>
      rw [PackageModel.resolve, if_pos (.inl hs)] at hr
      cases hr
      simp

/-- The quick query ends as the extraction does, and is true when that gives a signature. -/
theorem hasEmbeddedSignature_eq (filePath : String) (file : List UInt8) :
    hasEmbeddedSignature filePath file = (extractSignature filePath file).map Option.isSome := by
  have hguard : ∀ {α : Type} (f : α → Bool) (x : Outcome α), (guarded filePath x).map f = guarded filePath (x.map f) := by
    intro α f x
    cases x with
    | ok a => rfl
    | error message =>
        simp only [guarded, Except.map]
        split_ifs <;> rfl
  rw [extractSignature, hguard, hasEmbeddedSignature, PagedFile.data_eq]
  congr 1
  cases hparse : parse file with
  | error message => rfl
  | ok m =>
      simp only [ok_bind]
      cases signatureEntry m with
      | none => rfl
      | some entry =>
          simp only
          cases hr : (m.resolve entry {}).1 with
          | error message =>
              rw [PackageModel.readStream]
              simp only [hr]
              rfl
          | ok extents =>
              rw [readStream_ok hr (resolve_inside (parse_accepted hparse).geometry hr)]
              rfl

/-! The root of a rebuilt package -/

theorem name_of_child (hcs : contentsOf m nodes = .ok cs) (h : node ∈ nodes) : ∃ c ∈ cs, c.name = node.name ∧
    contentOf m node = .ok c := by
  rw [contentsOf_eq_ok] at hcs
  obtain ⟨i, hi⟩ := List.getElem?_of_mem h
  obtain ⟨c, hc, hcontent⟩ := forall₂_getElem? hcs hi
  exact ⟨c, List.mem_of_getElem? hc, name_of_content hcontent, hcontent⟩

/-- Below the root of a rebuilt package stand the streams and storages that were kept, and the new signature. -/
theorem rebuilt_children {signature : Option (List UInt8)} (hparse : parse file = .ok m)
    (h : writeCfb m signature = .ok out) (hcheck : parse out = .ok check) : ∃ kept ds,
      (∀ c ∈ kept, isMsiSignatureName c.name = false) ∧ contentsOf check check.root.children = .ok ds ∧
      ds.Perm ((rootContents (signature.filter fun blob => blob ≠ []) kept).map Content.sorted) ∧
      Joint check (check.root.children.flatMap streamNodes) := by
  obtain ⟨_, kept, hcheck', hkept, -, hcontent, hjoint⟩ := writeCfb_content hparse h
  obtain rfl := Except.ok.inj (hcheck.symm.trans hcheck')
  have hroot := (parse_root hcheck).1
  obtain ⟨ds, hds, hroots⟩ := (contentOf_storage hroot).1 hcontent
  rw [Content.sorted] at hroots
  injection hroots with hlabel hchildren
  rw [streamNodes_storage hroot] at hjoint
  exact ⟨kept, ds, kept_names hkept, hds, hchildren ▸ sortBy_perm _ _, hjoint⟩

/-- After stripping no entry of the root has one of the two names. -/
theorem stripped_names (hparse : parse file = .ok m) (h : writeCfb m none = .ok out) (hcheck : parse out = .ok check)
    (hnode : node ∈ check.root.children) : isMsiSignatureName node.name = false := by
  obtain ⟨kept, ds, hnames, hds, hp, -⟩ := rebuilt_children hparse h hcheck
  obtain ⟨c, hc, hname, -⟩ := name_of_child hds hnode
  obtain ⟨d, hd, rfl⟩ := List.mem_map.1 (hp.mem_iff.1 hc)
  rw [← hname, name_sorted]
  exact hnames d hd

theorem findByEnumeration_eq_none {name : CfbName} (hname : isMsiSignatureName name = true)
    (h : ∀ child ∈ check.root.children, isMsiSignatureName child.name = false) :
    findByEnumeration check.root name = none := by
  refine List.find?_eq_none.2 fun child hchild heq => ?_
  have hchild := h child hchild
  have heq : child.name = name := of_decide_eq_true heq
  rw [heq, hname] at hchild
  cases hchild

/-- The new signature is the one stream with its name. -/
theorem embedded_entry (hblob : blob ≠ []) (hparse : parse file = .ok m) (h : writeCfb m (some blob) = .ok out)
    (hcheck : parse out = .ok check) : ∃ entry extents, findSignatureEntry check = some entry ∧ entry.size ≠ 0 ∧
      (check.resolve entry {}).1 = .ok extents ∧ extentBytes check.source.bytes extents = blob ∧
      Joint check (entry :: (check.root.children.filter (counted true)).flatMap streamNodes) := by
  obtain ⟨kept, ds, hnames, hds, hp, hjoint⟩ := rebuilt_children hparse h hcheck
  have hsome : (some blob).filter (fun blob => decide (blob ≠ [])) = some blob := by simp [hblob]
  rw [hsome, rootContents, List.map_cons, Content.sorted] at hp
  have hin : msiSignatureName ∈ check.root.children.map CfbNode.name := by
    rw [← names_of_contents hds]
    exact List.mem_map.2 ⟨_, hp.mem_iff.2 List.mem_cons_self, rfl⟩
  obtain ⟨named, hnamed, hname⟩ := List.mem_map.1 hin
  have hsome : (findSignatureEntry check).isSome = true :=
    List.find?_isSome.2 ⟨named, hnamed, decide_eq_true hname⟩
  obtain ⟨entry, hfind⟩ := Option.isSome_iff_exists.1 hsome
  have hentry : entry ∈ check.root.children := List.mem_of_find?_eq_some hfind
  have hname : entry.name = msiSignatureName := by simpa using List.find?_some hfind
  obtain ⟨c, hc, hcname, hcontent⟩ := name_of_child hds hentry
  -- no other content of the root has the name
  have hstream : c = .stream (labelOf (signatureItem blob).node) blob := by
    rcases List.mem_cons.1 (hp.mem_iff.1 hc) with rfl | hc
    · rfl
    · obtain ⟨d, hd, rfl⟩ := List.mem_map.1 hc
      have := hnames d hd
      rw [name_sorted, hname] at hcname
      rw [hcname] at this
      cases this
  have hs : entry.isStorage = false := by
    cases hs : entry.isStorage with
    | false => rfl
    | true =>
        obtain ⟨_, -, hstorage⟩ := (contentOf_storage hs).1 hcontent
        rw [hstream] at hstorage
        cases hstorage
  obtain ⟨extents, hr, hbytes⟩ := (contentOf_stream hs).1 hcontent
  rw [hstream] at hbytes
  injection hbytes with _ hbytes
  refine ⟨entry, extents, hfind, ?_, hr, hbytes, ?_⟩
  · intro hzero
    rw [PackageModel.resolve, if_pos (.inr hzero)] at hr
    cases hr
    exact hblob hbytes.symm
  · have hout : entry ∈ (check.root.children.filter fun child => !counted true child).flatMap streamNodes := by
      refine List.mem_flatMap.2 ⟨entry, List.mem_filter.2 ⟨hentry, ?_⟩, ?_⟩
      · simp only [counted_true, hname]
        rfl
      · rw [streamNodes_stream hs]
        exact List.mem_singleton_self _
    have hsplit := (List.filter_append_perm (counted true) check.root.children).symm.flatMap_right streamNodes
    rw [List.flatMap_append] at hsplit
    exact (hjoint.perm (hsplit.trans List.perm_append_comm)).sublist
      ((List.singleton_sublist.2 hout).append_right _)

/-! The queries of a signed package -/

/-- The state after embedding, when the package has this fingerprint. -/
theorem checkField_state (computed : List UInt8) (field : AuthenticodeDigestField) :
    ((checkField computed field).state = .matches ↔
      field.readable = true ∧ field.isSha256 = true ∧ field.digest = computed) ∧
    ((checkField computed field).state = .mismatch ↔
      field.readable = true ∧ field.isSha256 = true ∧ field.digest ≠ computed) ∧
    ((checkField computed field).state = .unreadable ↔ ¬(field.readable = true ∧ field.isSha256 = true)) := by
  rw [checkField]
  cases field.readable <;> cases field.isSha256 <;> by_cases h : field.digest = computed <;> simp [h]

theorem checkField_computed (computed : List UInt8) (field : AuthenticodeDigestField) :
    (checkField computed field).computedDigest = computed := by
  rw [checkField]
  split_ifs <;> rfl

/-- A signed package gives its signature back, and is checked against what the signature says. -/
theorem queries_of_signed (hblob : blob ≠ []) (hparse : parse file = .ok m) (h : writeCfb m (some blob) = .ok out) :
    extractSignature filePath out = .ok (some blob) ∧ ∃ fed, packageFed out = .ok fed ∧
      checkSignature hash filePath out = .ok (checkField (hash fed) (readAuthenticodeDigestField blob)) := by
  obtain ⟨check, kept, u, hcheck, -, hhash, hafter⟩ := hash_rebuilt hparse h
  obtain ⟨entry, extents, hfind, hsize, hr, hbytes, hjoint⟩ := embedded_entry hblob hparse h hcheck
  have hg := (parse_accepted hcheck).geometry
  have hin := resolve_inside hg hr
  have hentry : signatureEntry check = some entry := by
    rw [signatureEntry, hfind, Option.filter_some, if_pos (decide_eq_true hsize)]
  constructor
  · have hread := readStream_ok hr hin
    rw [hbytes] at hread
    rw [extractSignature, hcheck, ok_bind, hentry]
    simp only [hread, ok_bind]
    rfl
  · refine ⟨_, packageFed_eq_ok.2 ⟨check, hcheck, bind_eq_ok.2 ⟨_, hhash, rfl⟩⟩, ?_⟩
    obtain ⟨extents', u', hr', halone, -⟩ := hafter.resolve_ok hg hjoint
    obtain rfl := Except.ok.inj (hr.symm.trans halone)
    have hread : (check.readStream entry u).1 = .ok (extentBytes check.source.bytes extents) :=
      readStream_ok (by rw [hr']) hin
    rw [hbytes] at hread
    rw [checkSignature, hcheck, ok_bind, hhash, ok_bind, hentry]
    simp only [hread]
    rfl

/-- A reason that names the file is passed on as it is. -/
theorem guarded_refusal {α : Type} (reason : String) :
    guarded filePath (.error (refusal filePath reason) : Outcome α) = .error (refusal filePath reason) := by
  have hnamed : filePath.toList <:+: (refusal filePath reason).toList := by
    rw [refusal]
    simp only [String.toList_append, List.append_assoc]
    exact ⟨kFormat.toList ++ ": ".toList, ": ".toList ++ reason.toList, by simp⟩
  rw [guarded]
  exact if_pos (.inr hnamed)

/-- A stripped package has no signature, and stripping it again changes nothing. -/
theorem queries_of_stripped (hparse : parse file = .ok m) (h : writeCfb m none = .ok out) :
    extractSignature filePath out = .ok none ∧
      (∃ fed, checkSignature hash filePath out = .ok { computedDigest := hash fed }) ∧
      stripSignature filePath out = .ok (false, out) := by
  obtain ⟨check, kept, u, hcheck, -, hhash, -⟩ := hash_rebuilt hparse h
  have hnames : ∀ child ∈ check.root.children, isMsiSignatureName child.name = false :=
    fun child hchild => stripped_names hparse h hcheck hchild
  have hfirst : findByEnumeration check.root msiSignatureName = none := findByEnumeration_eq_none rfl hnames
  have hsecond : findByEnumeration check.root msiSignatureExName = none := findByEnumeration_eq_none rfl hnames
  have hentry : signatureEntry check = none := by
    rw [signatureEntry, findSignatureEntry, hfirst]
    rfl
  refine ⟨?_, ⟨(Content.storage (labelOf m.root) kept).fed, ?_⟩, ?_⟩
  · rw [extractSignature, hcheck, ok_bind, hentry]
    rfl
  · rw [checkSignature, hcheck, ok_bind, hhash, ok_bind, hentry]
    rfl
  · rw [stripSignature, hcheck, ok_bind, if_pos ⟨hfirst, hsecond⟩]
    rfl

/-- What a successful check of a signed package says, for the fingerprint of the package and what the signature holds. -/
structure CheckedAgainst (digest : List UInt8) (field : AuthenticodeDigestField) (state : SignatureState) : Prop where
  matching : state = .matches ↔ field.readable = true ∧ field.isSha256 = true ∧ field.digest = digest
  different : state = .mismatch ↔ field.readable = true ∧ field.isSha256 = true ∧ field.digest ≠ digest
  otherwise : state = .unreadable ↔ ¬(field.readable = true ∧ field.isSha256 = true)

theorem readRequiredField_eq_ok {read : List UInt8 → AuthenticodeDigestField} {field : AuthenticodeDigestField} :
    readRequiredField read filePath blob = .ok field ↔
      read blob = field ∧ (read blob).readable = true ∧ (read blob).isSha256 = true := by
  rw [readRequiredField]
  cases (read blob).readable <;> cases (read blob).isSha256 <;> simp

theorem checkRequiredDigest_of_fed {field : AuthenticodeDigestField} {fed : List UInt8} (h : packageFed out = .ok fed) :
    checkRequiredDigest hash filePath field out =
      if hash fed ≠ field.digest then .error (refusal filePath (mismatchText field.digest (hash fed))) else .ok () := by
  obtain ⟨m, hparse, hfed⟩ := packageFed_eq_ok.1 h
  rw [checkRequiredDigest, hparse, ok_bind, computeMsiFingerprint, hfed]
  rfl

/-- Embedding, extracting, checking and stripping agree on every package. -/
theorem embed_extract_check_agree (hash : List UInt8 → List UInt8) (filePath : String) (file blob : List UInt8) :
    (∀ requireMatchingDigest out,
      embedSignature readAuthenticodeDigestField hash filePath file blob requireMatchingDigest = .ok out →
      extractSignature filePath out = .ok (some blob) ∧ hasEmbeddedSignature filePath out = .ok true ∧
      ∃ digest check, computeAuthenticodeDigest hash filePath out = .ok digest ∧
        (∀ before, computeAuthenticodeDigest hash filePath file = .ok before → before = digest) ∧
        checkSignature hash filePath out = .ok check ∧ check.computedDigest = digest ∧
        CheckedAgainst digest (readAuthenticodeDigestField blob) check.state ∧
        (requireMatchingDigest = true → check.state = .matches)) ∧
    (∀ out digest, embedSignature readAuthenticodeDigestField hash filePath file blob false = .ok out →
      computeAuthenticodeDigest hash filePath out = .ok digest →
      (readAuthenticodeDigestField blob).readable = true → (readAuthenticodeDigestField blob).isSha256 = true →
      (readAuthenticodeDigestField blob).digest ≠ digest →
      writeBack file (embedSignature readAuthenticodeDigestField hash filePath file blob true) =
        (.error (refusal filePath (mismatchText (readAuthenticodeDigestField blob).digest digest)), file)) ∧
    (∀ out, stripSignature filePath file = .ok (true, out) →
      extractSignature filePath out = .ok none ∧
      (∃ check, checkSignature hash filePath out = .ok check ∧ check.state = .none) ∧
      stripSignature filePath out = .ok (false, out)) := by
  refine ⟨?_, ?_, ?_⟩
  · intro requireMatchingDigest out h
    obtain ⟨hblob, m, hparse, -, hw, hrequired⟩ := embedSignature_eq_ok.1 h
    obtain ⟨hextract, fed, hfed, hcheck⟩ := @queries_of_signed _ _ _ _ hash filePath hblob hparse hw
    have hdigest : computeAuthenticodeDigest hash filePath out = .ok (hash fed) :=
      computeAuthenticodeDigest_eq_ok.2 ⟨fed, hfed, rfl⟩
    obtain ⟨hmatches, hmismatch, hunreadable⟩ := checkField_state (hash fed) (readAuthenticodeDigestField blob)
    refine ⟨hextract, ?_, hash fed, _, hdigest, ?_, hcheck, checkField_computed _ _,
      ⟨hmatches, hmismatch, hunreadable⟩, ?_⟩
    · rw [hasEmbeddedSignature_eq, hextract]
      rfl
    · intro before hbefore
      obtain ⟨fed', hfed', rfl⟩ := computeAuthenticodeDigest_eq_ok.1 hbefore
      obtain ⟨n, hn, hfed'⟩ := packageFed_eq_ok.1 hfed'
      obtain rfl := Except.ok.inj (hparse.symm.trans hn)
      have hsame := fed_of_rebuilt hparse hfed' hw
      rw [hfed] at hsame
      rw [Except.ok.inj hsame]
    · intro hm
      obtain ⟨field, hfield, hrequired⟩ := hrequired hm
      obtain ⟨rfl, hreadable, hsha⟩ := readRequiredField_eq_ok.1 hfield
      rw [checkRequiredDigest_of_fed hfed] at hrequired
      refine hmatches.2 ⟨hreadable, hsha, ?_⟩
      by_contra hne
      rw [if_pos (Ne.symm hne)] at hrequired
      cases hrequired
  · intro out digest h hdigest hreadable hsha hne
    obtain ⟨hblob, m, hparse, hsize, hw, -⟩ := embedSignature_eq_ok.1 h
    obtain ⟨fed, hfed, rfl⟩ := computeAuthenticodeDigest_eq_ok.1 hdigest
    have hfield : readRequiredField readAuthenticodeDigestField filePath blob = .ok (readAuthenticodeDigestField blob) :=
      readRequiredField_eq_ok.2 ⟨rfl, hreadable, hsha⟩
    have hrefused : embedSignature readAuthenticodeDigestField hash filePath file blob true =
        .error (refusal filePath (mismatchText (readAuthenticodeDigestField blob).digest (hash fed))) := by
      rw [embedSignature, if_neg hblob]
      simp only [hparse, ok_bind, hsize, if_pos, hfield, hw, checkRequiredDigest_of_fed hfed, if_pos (Ne.symm hne),
        error_bind, guarded_refusal]
    rw [hrefused]
    rfl
  · intro out h
    rw [stripSignature, guarded_eq_ok] at h
    obtain ⟨m, hparse, h⟩ := bind_eq_ok.1 h
    split at h
    · cases h
    · obtain ⟨rebuilt, hw, h⟩ := bind_eq_ok.1 h
      cases h
      obtain ⟨hextract, ⟨fed, hcheck⟩, hstrip⟩ := @queries_of_stripped _ _ _ hash filePath hparse hw
      exact ⟨hextract, ⟨_, hcheck, rfl⟩, hstrip⟩

/-- Stripping a package that has a signature says so. -/
theorem strip_of_extracted {stripped : Bool} (hextract : extractSignature filePath file = .ok (some blob))
    (h : stripSignature filePath file = .ok (stripped, out)) : stripped = true := by
  rw [stripSignature, guarded_eq_ok] at h
  obtain ⟨m, hparse, h⟩ := bind_eq_ok.1 h
  split at h
  · rename_i hnone
    have hentry : signatureEntry m = none := by
      rw [signatureEntry, findSignatureEntry, hnone.1]
      rfl
    rw [extractSignature, hparse, ok_bind, hentry] at hextract
    cases hextract
  · obtain ⟨rebuilt, -, h⟩ := bind_eq_ok.1 h
    cases h
    rfl

/-- A hash of 32 bytes. -/
def firstBytes (fed : List UInt8) : List UInt8 := fed.take 32

theorem sampleSignature_fields (b : UInt8) (hb : b = 7 ∨ b = 8) :
    (readAuthenticodeDigestField (sampleSignature (List.replicate 32 b))).readable = true ∧
      (readAuthenticodeDigestField (sampleSignature (List.replicate 32 b))).isSha256 = true ∧
      (readAuthenticodeDigestField (sampleSignature (List.replicate 32 b))).digest = List.replicate 32 b := by
  rcases hb with rfl | rfl <;> decide +kernel

/-- The signature of the package is embedded, checked and stripped; one that is for another package is refused. -/
theorem embed_extract_check_agree_sign_strip : ∃ signed stripped,
    embedSignature readAuthenticodeDigestField firstBytes "a.msi" minisPackage (sampleSignature (List.replicate 32 7)) true =
      .ok signed ∧
    extractSignature "a.msi" signed = .ok (some (sampleSignature (List.replicate 32 7))) ∧
    hasEmbeddedSignature "a.msi" signed = .ok true ∧
    (∃ check, checkSignature firstBytes "a.msi" signed = .ok check ∧ check.state = .matches) ∧
    stripSignature "a.msi" signed = .ok (true, stripped) ∧ extractSignature "a.msi" stripped = .ok none ∧
    (∃ check, checkSignature firstBytes "a.msi" stripped = .ok check ∧ check.state = .none) ∧
    stripSignature "a.msi" stripped = .ok (false, stripped) ∧
    writeBack stripped (embedSignature readAuthenticodeDigestField firstBytes "a.msi" stripped
      (sampleSignature (List.replicate 32 8)) true) =
        (.error (refusal "a.msi" (mismatchText (List.replicate 32 8) (List.replicate 32 7))), stripped) := by
  obtain ⟨hreadable, hsha, hdigest⟩ := sampleSignature_fields 7 (.inl rfl)
  obtain ⟨hreadable', hsha', hdigest'⟩ := sampleSignature_fields 8 (.inr rfl)
  have hfirst : (packageFed minisPackage).map firstBytes = .ok (List.replicate 32 7) := by decide +kernel
  obtain ⟨fed, hfed, hhash⟩ := except_map_eq_ok.1 hfirst
  obtain ⟨again, hrun⟩ := signAgain_runs
  have hfedAgain := runCalls_fed hfed hrun
  obtain ⟨signed, hsigned, hrun⟩ := foldlM_cons_eq_ok.mp hrun
  obtain ⟨_, hstripped, hrun⟩ := foldlM_cons_eq_ok.mp hrun
  obtain ⟨_, hagain, hrun⟩ := foldlM_cons_eq_ok.mp hrun
  cases hrun
  obtain ⟨⟨done, stripped⟩, hstrip, rfl⟩ := except_map_eq_ok.1 hstripped
  obtain ⟨hblob, m, hparse, hsize, hw, -⟩ := embedSignature_eq_ok.1 hsigned
  obtain ⟨hblob', n, hparse', hsize', hw', -⟩ := embedSignature_eq_ok.1 hagain
  have hmatches : checkRequiredDigest firstBytes "a.msi"
      (readAuthenticodeDigestField (sampleSignature (List.replicate 32 7))) signed = .ok () := by
    rw [checkRequiredDigest_of_fed (run_fed hsigned hfed), hdigest, if_neg (not_not.mpr hhash)]
  have hembed : embedSignature readAuthenticodeDigestField firstBytes "a.msi" minisPackage
      (sampleSignature (List.replicate 32 7)) true = .ok signed :=
    embedSignature_eq_ok.2 ⟨hblob, m, hparse, hsize, hw, fun _ =>
      ⟨_, readRequiredField_eq_ok.2 ⟨rfl, hreadable, hsha⟩, hmatches⟩⟩
  have hembed' : embedSignature readAuthenticodeDigestField firstBytes "a.msi" stripped
      (sampleSignature (List.replicate 32 8)) false = .ok again :=
    embedSignature_eq_ok.2 ⟨hblob', n, hparse', hsize', hw', fun hfalse => absurd hfalse Bool.false_ne_true⟩
  have hcomputed : computeAuthenticodeDigest firstBytes "a.msi" again = .ok (List.replicate 32 7) :=
    computeAuthenticodeDigest_eq_ok.2 ⟨fed, hfedAgain, hhash⟩
  obtain ⟨hextract, hhas, _, check, -, -, hcheck, -, -, hstate⟩ :=
    (embed_extract_check_agree firstBytes "a.msi" minisPackage (sampleSignature (List.replicate 32 7))).1 true signed hembed
  obtain rfl := strip_of_extracted hextract hstrip
  obtain ⟨hnone, hclear, hstill⟩ :=
    (embed_extract_check_agree firstBytes "a.msi" signed (sampleSignature (List.replicate 32 7))).2.2 stripped hstrip
  have hrefused := (embed_extract_check_agree firstBytes "a.msi" stripped (sampleSignature (List.replicate 32 8))).2.1
    again _ hembed' hcomputed hreadable' hsha' (by rw [hdigest']; decide)
  rw [hdigest'] at hrefused
  exact ⟨signed, stripped, hembed, hextract, hhas, ⟨check, hcheck, hstate rfl⟩, hstrip, hnone, hclear, hstill, hrefused⟩

end TheSeed.MsiQueries
