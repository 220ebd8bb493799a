import TheSeed.CfbAnyOrder
import TheSeed.MsiHistory
import TheSeed.PeFingerprint
import TheSeed.SharedFilesRuns

namespace TheSeed.SharedFilesSigners

open TheSeed.Transition SharedFiles SharedFilesRuns Bytes Checked
open BoundedBytes (Outcome)
open FileReplace (Path)
open MsiSigner (AuthenticodeDigestField)
open MsiHistory (MadeBy)
open CfbAnyOrder (minisPackage)
open DigestEncoding (sampleSignature)

/-! Signers that work on one file at a time: what the file holds is always what the calls would make of it one after the
other, and a package holds what one call alone makes of the first. -/

variable {α : Type} {allowed : Job α → Prop} {job : Job α} {content bytes file : List UInt8} {verdict : Verdict α}
  {d₀ : Disk} {s : State α} {p : Path} {value : α} {plan : List UInt8 → Verdict α}

/-- A job that reads the whole file comes to what its plan makes of the content. -/
theorem decides_readFileBytes (hnext : job.next = readFileBytes plan) :
    Decides job content verdict ↔ plan content = verdict := by
  constructor
  · rintro ⟨parts, hagrees, hdecides⟩
    rw [hnext] at hdecides
    cases hagrees with
    | start =>
        rw [readFileBytes] at hdecides
        split at hdecides
        · cases hdecides
        · rename_i hempty
          rw [List.eq_nil_of_length_eq_zero (Nat.eq_zero_of_not_pos hempty)]
          cases hdecides
          rfl
    | @read before offset count hbefore hread =>
        rw [hnext] at hread
        cases before with
        | nil =>
            rw [readFileBytes] at hread
            split at hread
            · cases hread
              rw [List.nil_append, slice_all, readFileBytes] at hdecides
              cases hdecides
              rfl
            · cases hread
        | cons part rest => cases hread
  · rintro rfl
    by_cases hempty : 0 < content.length
    · have hread : job.next content.length [] = .read 0 content.length := by
        rw [hnext, readFileBytes, if_pos hempty]
      refine ⟨_, Agrees.start.read hread, ?_⟩
      rw [hnext, List.nil_append, slice_all]
      rfl
    · refine ⟨[], .start, ?_⟩
      rw [hnext, readFileBytes, if_neg hempty, List.eq_nil_of_length_eq_zero (Nat.eq_zero_of_not_pos hempty)]

/-- What every call makes of a content keeps, every content has that the first has. -/
theorem contents_keep {P : Option CallId → List UInt8 → Prop} (h : Atomic d₀ s p)
    (hfirst : ∀ f, d₀.view p = some (.regular f) → P none f.content)
    (hstep : ∀ i c, s.calls i = some c → c.job.target = p → ∀ writer content bytes value, P writer content →
      Decides c.job content (.replace bytes value) → P (some i) bytes) :
    ∀ v ∈ s.versions p, P v.writer v.content := by
  have hall : ∀ (n : Nat) (v : Version), (s.versions p)[n]? = some v → P v.writer v.content := by
    intro n
    induction n using Nat.strongRecOn with
    | ind n ih =>
        intro v hv
        rcases Nat.eq_zero_or_pos n with rfl | hn
        · obtain ⟨u, f, hu, hwriter, hview, hcontent⟩ := h.first
          obtain rfl := Option.some.inj (hu.symm.trans hv)
          rw [hwriter, hcontent]
          exact hfirst f hview
        · obtain ⟨i, c, k, u, value, hwriter, hc, htarget, -, hk, hseen, hdecides⟩ := h.derived n v hv hn
          rw [hwriter]
          exact hstep i c hc htarget u.writer u.content v.content value (ih k hk u hseen.at_index) hdecides
  intro v hv
  obtain ⟨n, hn⟩ := List.mem_iff_getElem?.mp hv
  exact hall n v hn

/-- A query decides on a result, and on nothing else. -/
def IsQuery (job : Job α) : Prop := ∀ size parts bytes value, job.next size parts ≠ .decide (.replace bytes value)

theorem IsQuery.writes_nothing (h : IsQuery job) : ¬Decides job content (.replace bytes value) := by
  rintro ⟨parts, -, hdecides⟩
  exact h _ _ _ _ hdecides

/-! Packages -/

section packages

variable (readAuthenticodeDigestField : List UInt8 → AuthenticodeDigestField) (hash : List UInt8 → List UInt8)
  (filePath : String)

/-- `MsiSigner::EmbedSignature` behind `ReadFileBytes` -/
def embedPlan (blob : List UInt8) (requireMatchingDigest : Bool) (value : α) (bytes : List UInt8) : Verdict α :=
  match MsiSigner.embedSignature readAuthenticodeDigestField hash filePath bytes blob requireMatchingDigest with
  | .ok out => .replace out value
  | .error text => .finish (.error text)

/-- `MsiSigner::StripSignature` behind `ReadFileBytes`. A file without a signature is not written. -/
def stripPlan (value : Bool → α) (bytes : List UInt8) : Verdict α :=
  match MsiSigner.stripSignature filePath bytes with
  | .ok (true, out) => .replace out (value true)
  | .ok (false, _) => .finish (.ok (value false))
  | .error text => .finish (.error text)

/-- The calls of `MsiSigner` that can write. An empty signature is refused before the file is read. -/
inductive MsiCall (job : Job α) : MsiSigner.SignerCall → Prop
  | embed {blob : List UInt8} {requireMatchingDigest : Bool} {value : α} (hblob : blob ≠ [])
      (hnext : job.next = readFileBytes (embedPlan readAuthenticodeDigestField hash filePath blob requireMatchingDigest value)) :
      MsiCall job (.embed blob requireMatchingDigest)
  | strip {value : Bool → α} (hnext : job.next = readFileBytes (stripPlan filePath value)) : MsiCall job .strip

end packages

variable {readAuthenticodeDigestField : List UInt8 → AuthenticodeDigestField} {hash : List UInt8 → List UInt8}
  {filePath : String} {call : MsiSigner.SignerCall} {last : Option MsiSigner.SignerCall}

/-- A call of the signer makes of a content what it makes of the first file. -/
theorem MsiCall.made (h : MsiCall readAuthenticodeDigestField hash filePath job call)
    (hmade : MadeBy readAuthenticodeDigestField hash filePath file last content)
    (hdecides : Decides job content (.replace bytes value)) :
    MadeBy readAuthenticodeDigestField hash filePath file (some call) bytes := by
  cases h with
  | @embed blob requireMatchingDigest value hblob hnext =>
      rw [decides_readFileBytes hnext, embedPlan] at hdecides
      split at hdecides
      · rename_i out hout
        cases hdecides
        have hcall : MsiHistory.trackCall readAuthenticodeDigestField hash filePath (last, content)
            (.embed blob requireMatchingDigest) = .ok (some (.embed blob requireMatchingDigest), bytes) :=
          bind_eq_ok.2 ⟨bytes, hout, rfl⟩
        exact hmade.step hcall
      · cases hdecides
  | strip hnext =>
      rw [decides_readFileBytes hnext, stripPlan] at hdecides
      split at hdecides
      · rename_i out hout
        cases hdecides
        have hcall : MsiHistory.trackCall readAuthenticodeDigestField hash filePath (last, content) .strip =
            .ok (some .strip, bytes) :=
          bind_eq_ok.2 ⟨(true, bytes), hout, rfl⟩
        exact hmade.step hcall
      · cases hdecides
      · cases hdecides

/-- Whatever calls of the signer and queries run at a time, and whichever of them fail or are killed, the package is as
it was first, or as the one call that wrote it last makes it of the first package alone. -/
theorem packages_as_alone (hsuited : Suited allowed d₀)
    (hcalls : ∀ job, allowed job → job.target = p →
      IsQuery job ∨ ∃ call, MsiCall readAuthenticodeDigestField hash filePath job call)
    (h : (SharedFiles.files allowed d₀).Reachable s) (hjob : allowed job) (hp : job.target = p) :
    ∃ first f v, d₀.view p = some (.regular first) ∧ s.disk.view p = some (.regular f) ∧
      (s.versions p).getLast? = some v ∧ ((v.writer = none ∧ f.content = first.content) ∨
        ∃ i c call, v.writer = some i ∧ s.calls i = some c ∧ c.job.target = p ∧
          MsiCall readAuthenticodeDigestField hash filePath c.job call ∧
          MadeBy readAuthenticodeDigestField hash filePath first.content (some call) f.content) := by
  have hs := (sound hsuited).reachable h
  have hatomic := hs.atomic hsuited hjob
  rw [hp] at hatomic
  obtain ⟨-, first, -, -, hfirst, -⟩ := hatomic.first
  obtain ⟨v, f, hlast, hview, hcontent⟩ := hatomic.present
  refine ⟨first, f, v, hfirst, hview, hlast, ?_⟩
  rw [hcontent]
  refine contents_keep (P := fun writer content => (writer = none ∧ content = first.content) ∨
    ∃ i c call, writer = some i ∧ s.calls i = some c ∧ c.job.target = p ∧
      MsiCall readAuthenticodeDigestField hash filePath c.job call ∧
      MadeBy readAuthenticodeDigestField hash filePath first.content (some call) content) hatomic ?_ ?_ v (List.mem_of_getLast? hlast)
  · intro g hg
    obtain rfl := FileReplace.Entry.regular.inj (Option.some.inj (hfirst.symm.trans hg))
    exact .inl ⟨rfl, rfl⟩
  · intro i c hc htarget writer content bytes value hbefore hdecides
    rcases hcalls c.job (hs.permitted i c hc) htarget with hquery | ⟨call, hcall⟩
    · exact absurd hdecides hquery.writes_nothing
    · have hmade : ∃ last, MadeBy readAuthenticodeDigestField hash filePath first.content last content := by
        rcases hbefore with ⟨-, hsame⟩ | ⟨-, -, before, -, -, -, -, hmade⟩
        · exact ⟨none, hsame⟩
        · exact ⟨some before, hmade⟩
      obtain ⟨last, hmade⟩ := hmade
      exact .inr ⟨i, c, call, rfl, hc, htarget, hcall, hcall.made hmade hdecides⟩

def packageJob (plan : List UInt8 → Verdict Bool) : Job Bool where
  filePath := "a.msi"
  target := ⟨"/", "a.msi"⟩
  processId := "7"
  strerror := fun _ => "error"
  inGroup := fun _ => true
  raise := id
  next := readFileBytes plan
  inside := readFileBytes_inside

def embedJob : Job Bool := packageJob (embedPlan (fun _ => {}) id "a.msi" (sampleSignature (List.replicate 32 7)) false true)

def stripJob : Job Bool := packageJob (stripPlan "a.msi" id)

/-- A package is signed while another call, which has opened it before, finds no signature to remove. -/
theorem packages_as_alone_sample : ∃ (s : State Bool) (out : List UInt8),
    MsiSigner.embedSignature (fun _ => {}) id "a.msi" minisPackage (sampleSignature (List.replicate 32 7)) false = .ok out ∧
      s.calls 0 = some ⟨embedJob, 1, false, .returned 2 (.ok true)⟩ ∧
      s.calls 1 = some ⟨stripJob, 1, false, .returned 2 (.ok false)⟩ ∧
      s.disk.view embedJob.target = some (.regular (sampleFile out)) ∧
      ∃ first f v, (oneFile embedJob.target minisPackage).view embedJob.target = some (.regular first) ∧
        s.disk.view embedJob.target = some (.regular f) ∧ (s.versions embedJob.target).getLast? = some v ∧
        ((v.writer = none ∧ f.content = first.content) ∨ ∃ i c call, v.writer = some i ∧ s.calls i = some c ∧
          c.job.target = embedJob.target ∧ MsiCall (fun _ => {}) id "a.msi" c.job call ∧
          MadeBy (fun _ => {}) id "a.msi" first.content (some call) f.content) := by
  obtain ⟨_, hrun⟩ := MsiSignerRuns.signAgain_runs
  obtain ⟨out, hout, -⟩ := foldlM_cons_eq_ok.1 hrun
  have hstrip : (MsiSigner.stripSignature "a.msi" minisPackage).map Prod.fst = .ok false := by decide +kernel
  obtain ⟨⟨stripped, kept⟩, hkept, rfl⟩ := CfbContent.except_map_eq_ok.1 hstrip
  have hplan : embedPlan (fun _ => {}) id "a.msi" (sampleSignature (List.replicate 32 7)) false true minisPackage =
      .replace out true := by
    rw [MsiSigner.SignerCall.run] at hout
    rw [embedPlan, hout]
  have hanswer : stripPlan "a.msi" id minisPackage = .finish (.ok false) := by
    rw [stripPlan, hkept]
    rfl
  have hsize : 0 < minisPackage.length ∧ minisPackage.length ≤ kChunkLimit := by decide +kernel
  obtain ⟨s, hs, hfirst, hsecond, hdisk, -⟩ :=
    crossed embedJob stripJob _ _ rfl rfl rfl hsize.1 hsize.2 hplan (MsiSignerRuns.embedSignature_length_pos hout) hanswer
  have hview : s.disk.view embedJob.target = some (.regular (sampleFile out)) := by
    rw [hdisk]
    exact crossedDisk_view embedJob minisPackage out
  have hsuited : Suited (Two embedJob stripJob) (oneFile embedJob.target minisPackage) := by
    apply oneFile_suited
    rintro job (rfl | rfl) <;> rfl
  refine ⟨s, out, hout, hfirst, hsecond, hview, packages_as_alone hsuited ?_ hs (.inl rfl) rfl⟩
  rintro job (rfl | rfl) -
  · exact .inr ⟨_, .embed (List.cons_ne_nil _ _) rfl⟩
  · exact .inr ⟨_, .strip rfl⟩

/-! Programs -/

/-- `PeSigner::EmbedSignature` behind `ReadFileBytes` -/
def programEmbedPlan (blob : List UInt8) (value : α) (bytes : List UInt8) : Verdict α :=
  match PeSigner.embedSignature bytes blob with
  | .ok out => .replace out value
  | .error text => .finish (.error text)

/-- `PeSigner::StripSignature` behind `ReadFileBytes`. A program without a signature is not written. -/
def programStripPlan (value : α) (bytes : List UInt8) : Verdict α :=
  match PeSigner.stripSignature bytes, PeSigner.hasEmbeddedSignature bytes with
  | .ok out, .ok true => .replace out value
  | .ok _, _ => .finish (.ok value)
  | .error text, _ => .finish (.error text)

/-- The calls of `PeSigner` that can write -/
inductive PeCall (job : Job α) : PeFingerprint.SignerCall → Prop
  | embed {blob : List UInt8} {value : α} (hnext : job.next = readFileBytes (programEmbedPlan blob value)) :
      PeCall job (.embed blob)
  | strip {value : α} (hnext : job.next = readFileBytes (programStripPlan value)) : PeCall job .strip

theorem PeCall.runs {call : PeFingerprint.SignerCall} (h : PeCall job call)
    (hdecides : Decides job content (.replace bytes value)) : call.run content = .ok bytes := by
  cases h with
  | embed hnext =>
      rw [decides_readFileBytes hnext, programEmbedPlan] at hdecides
      split at hdecides
      · rename_i out hout
        cases hdecides
        exact hout
      · cases hdecides
  | strip hnext =>
      rw [decides_readFileBytes hnext, programStripPlan] at hdecides
      split at hdecides
      · rename_i out hout _
        cases hdecides
        exact hout
      · cases hdecides
      · cases hdecides

/-- Whatever calls of the signer and queries run at a time, and whichever of them fail or are killed, the program is
what some of the calls make of the first one, one after the other; and what is hashed of it stays as it was. -/
theorem programs_serial (hsuited : Suited allowed d₀)
    (hcalls : ∀ job, allowed job → job.target = p → IsQuery job ∨ ∃ call, PeCall job call)
    (h : (SharedFiles.files allowed d₀).Reachable s) (hjob : allowed job) (hp : job.target = p) :
    ∃ first f calls, d₀.view p = some (.regular first) ∧ s.disk.view p = some (.regular f) ∧
      PeFingerprint.runCalls first.content calls = .ok f.content ∧
      (∀ call ∈ calls, ∃ i c, s.calls i = some c ∧ c.job.target = p ∧ PeCall c.job call) ∧
      (PeSigner.hasEmbeddedSignature first.content = .ok false → ∀ input, PeSigner.digestInput first.content = .ok input →
        PeSigner.digestInput f.content = .ok input) := by
  have hs := (sound hsuited).reachable h
  have hatomic := hs.atomic hsuited hjob
  rw [hp] at hatomic
  obtain ⟨-, first, -, -, hfirst, -⟩ := hatomic.first
  obtain ⟨v, f, hlast, hview, hcontent⟩ := hatomic.present
  have hserial := contents_keep (P := fun _ content => ∃ calls, PeFingerprint.runCalls first.content calls = .ok content ∧
    ∀ call ∈ calls, ∃ i c, s.calls i = some c ∧ c.job.target = p ∧ PeCall c.job call) hatomic ?_ ?_ v (List.mem_of_getLast? hlast)
  · obtain ⟨calls, hruns, hall⟩ := hserial
    rw [← hcontent] at hruns
    refine ⟨first, f, calls, hfirst, hview, hruns, hall, ?_⟩
    intro hunsigned input hdigest
    obtain ⟨layout, table, hshape, htable, hnone⟩ := PeFingerprint.hasEmbeddedSignature_eq_ok.mp hunsigned
    have hstart : PeFingerprint.HashesAligned input first.content :=
      ⟨layout, table, hshape, htable, by rw [hnone]; exact nofun, hdigest⟩
    obtain ⟨-, -, -, -, -, hend⟩ :=
      foldlM_invariant (PeFingerprint.HashesAligned input) PeFingerprint.run_keeps_hash hstart hruns
    exact hend
  · intro g hg
    obtain rfl := FileReplace.Entry.regular.inj (Option.some.inj (hfirst.symm.trans hg))
    exact ⟨[], rfl, fun call hcall => absurd hcall List.not_mem_nil⟩
  · rintro i c hc htarget writer content bytes value ⟨calls, hruns, hall⟩ hdecides
    rcases hcalls c.job (hs.permitted i c hc) htarget with hquery | ⟨call, hcall⟩
    · exact absurd hdecides hquery.writes_nothing
    · refine ⟨calls ++ [call], ?_, ?_⟩
      · rw [PeFingerprint.runCalls, List.foldlM_append]
        refine bind_eq_ok.2 ⟨content, hruns, foldlM_cons_eq_ok.mpr ⟨bytes, hcall.runs hdecides, rfl⟩⟩
      · intro other hother
        rcases List.mem_append.mp hother with hother | hother
        · exact hall other hother
        · rw [List.mem_singleton.mp hother]
          exact ⟨i, c, hc, htarget, hcall⟩

def programJob (plan : List UInt8 → Verdict Unit) : Job Unit where
  filePath := "a.exe"
  target := ⟨"/", "a.exe"⟩
  processId := "7"
  strerror := fun _ => "error"
  inGroup := fun _ => true
  raise := id
  next := readFileBytes plan
  inside := readFileBytes_inside

def programEmbedJob : Job Unit := programJob (programEmbedPlan [1, 2, 3] ())

def programStripJob : Job Unit := programJob (programStripPlan ())

def unsignedProgram : List UInt8 := PeFingerprint.smallProgram 0 0 [1]

/-- A program is signed while another call, which has opened it before, finds no signature to remove. -/
theorem programs_serial_sample : ∃ (s : State Unit) (out : List UInt8),
    PeSigner.embedSignature unsignedProgram [1, 2, 3] = .ok out ∧
    s.calls 0 = some ⟨programEmbedJob, 1, false, .returned 2 (.ok ())⟩ ∧
    s.calls 1 = some ⟨programStripJob, 1, false, .returned 2 (.ok ())⟩ ∧
    s.disk.view programEmbedJob.target = some (.regular (sampleFile out)) ∧
    ∃ first f calls, (oneFile programEmbedJob.target unsignedProgram).view programEmbedJob.target = some (.regular first) ∧
      s.disk.view programEmbedJob.target = some (.regular f) ∧
      PeFingerprint.runCalls first.content calls = .ok f.content ∧
      (∀ call ∈ calls, ∃ i c, s.calls i = some c ∧ c.job.target = programEmbedJob.target ∧ PeCall c.job call) ∧
      (PeSigner.hasEmbeddedSignature first.content = .ok false → ∀ input, PeSigner.digestInput first.content = .ok input →
        PeSigner.digestInput f.content = .ok input) := by
  have hembed : (PeSigner.embedSignature unsignedProgram [1, 2, 3]).map (fun out => decide (0 < out.length)) = .ok true := by
    decide +kernel
  have hstrip : (PeSigner.stripSignature unsignedProgram).isOk = true := by decide +kernel
  have hunsigned : PeSigner.hasEmbeddedSignature unsignedProgram = .ok false := by decide +kernel
  obtain ⟨out, hout, hpos⟩ := CfbContent.except_map_eq_ok.1 hembed
  obtain ⟨bare, hbare⟩ := exists_of_isOk hstrip
  have hplan : programEmbedPlan [1, 2, 3] () unsignedProgram = .replace out () := by rw [programEmbedPlan, hout]
  have hanswer : programStripPlan () unsignedProgram = .finish (.ok ()) := by
    rw [programStripPlan, hbare, hunsigned]
  have hsize : 0 < unsignedProgram.length ∧ unsignedProgram.length ≤ kChunkLimit := by decide +kernel
  obtain ⟨s, hs, hfirst, hsecond, hdisk, -⟩ :=
    crossed programEmbedJob programStripJob _ _ rfl rfl rfl hsize.1 hsize.2 hplan (of_decide_eq_true hpos) hanswer
  have hview : s.disk.view programEmbedJob.target = some (.regular (sampleFile out)) := by
    rw [hdisk]
    exact crossedDisk_view programEmbedJob unsignedProgram out
  have hsuited : Suited (Two programEmbedJob programStripJob) (oneFile programEmbedJob.target unsignedProgram) := by
    apply oneFile_suited
    rintro job (rfl | rfl) <;> rfl
  refine ⟨s, out, hout, hfirst, hsecond, hview, programs_serial hsuited ?_ hs (.inl rfl) rfl⟩
  rintro job (rfl | rfl) -
  · exact .inr ⟨_, .embed rfl⟩
  · exact .inr ⟨_, .strip rfl⟩

end TheSeed.SharedFilesSigners
