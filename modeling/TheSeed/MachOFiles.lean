import TheSeed.MachOPreserved

namespace TheSeed.MachOFiles

open Bytes Checked BoundedBytes MachOLayout MachOCommands MachOProgram MachOSigner MachOEdits MachOLinks MachOPlan MachOStrip
open MachOForms MachOContainers MachOTable MachORebuilt MachOConsistent MachOSuperBlob MachODirectory MachOPreserved

/-! What signing and stripping do to a whole file, told of the programs in it. -/

variable {hash : List UInt8 → Digest} {path : String} {universal : Bool} {index capacity cputype dataoff datasize vmsize : Nat}
  {file identity blob cms out tail : List UInt8} {entry : ContainerEntry} {entries : List ContainerEntry}
  {container : MachOContainer} {plan : SlicePlan} {plans : List SlicePlan} {prepared : PreparedSignature}
  {cmsSignatures slices : List (List UInt8)} {p q : Program} {ps : List Program} {c : Command} {i k : Nat}

theorem parseInput_eq_ok : parseInput file = .ok container ↔
    4 ≤ file.length ∧ parseMachOContainer (view file) = .ok container := by
  rw [parseInput]
  simp only [bind_eq_ok, rejectIf_eq_ok, exists_const, Nat.not_lt]
  rfl

theorem requireSupported_eq_ok {u : Unit} : requireSupported path universal i entries = .ok u ↔
    ∀ entry ∈ entries, entry.slice.support = .supported := by
  induction entries generalizing i with
  | nil => exact iff_of_true rfl (by simp)
  | cons entry entries ih =>
      rw [requireSupported]
      simp only [bind_eq_ok, refuseSliceIf_eq_ok, exists_const, ih, not_not, List.forall_mem_cons]

/-- Each entry of a supported file is for a program. -/
theorem exists_programs (h : parseMachOContainer (view file) = .ok container)
    (hsupported : ∀ entry ∈ container.entries, entry.slice.support = .supported) :
    ∃ ps, List.Forall₂ (Holds file) container.entries ps := by
  have hall : ∀ entry ∈ container.entries, ∃ p, Holds file entry p := fun entry hin => by
    obtain ⟨scope, hslice⟩ := slice_parsed h hin
    exact holds_of_parse hslice (hsupported entry hin)
  generalize container.entries = entries at hall
  induction entries with
  | nil => exact ⟨[], .nil⟩
  | cons entry entries ih =>
      obtain ⟨⟨p, hp⟩, hrest⟩ := List.forall_mem_cons.1 hall
      obtain ⟨ps, hps⟩ := ih hrest
      exact ⟨p :: ps, .cons hp hps⟩

/-! Plans -/

/-- A number only shows in what a refusal says. -/
theorem planSlice_index : planSlice hash path universal i file entry identity capacity = .ok plan ↔
    planSlice hash path universal 0 file entry identity capacity = .ok plan := by
  rw [planSlice_eq_ok, planSlice_eq_ok]

theorem planSlices_eq_ok : planSlices hash path universal file identity capacity i entries = .ok plans ↔
    List.Forall₂ (fun entry plan => planSlice hash path universal 0 file entry identity capacity = .ok plan) entries plans := by
  induction entries generalizing i plans with
  | nil =>
      rw [planSlices, List.forall₂_nil_left_iff, pure_eq_ok, Except.ok.injEq, eq_comm]
  | cons entry entries ih =>
      rw [planSlices]
      simp only [bind_eq_ok, ih, pure_eq_ok, Except.ok.injEq, List.forall₂_cons_left_iff, planSlice_index]
      constructor
      · rintro ⟨plan, hplan, rest, hrest, rfl⟩
        exact ⟨plan, rest, hplan, hrest, rfl⟩
      · rintro ⟨plan, rest, hplan, hrest, rfl⟩
        exact ⟨plan, hplan, rest, hrest, rfl⟩

/-- What planning asks of a file. -/
structure PlansAll (hash : List UInt8 → Digest) (path : String) (file : List UInt8) (container : MachOContainer)
    (identity : List UInt8) (capacity : Nat) (plans : List SlicePlan) : Prop where
  bounded : capacity ≤ kMaxCapacity
  supported : ∀ entry ∈ container.entries, entry.slice.support = .supported
  zeros : requireZeroPadding path file container = .ok ()
  slices : List.Forall₂ (fun entry plan =>
    planSlice hash path (isUniversal container) 0 file entry identity capacity = .ok plan) container.entries plans

theorem planAll_eq_ok : planAll hash path file container identity capacity = .ok plans ↔
    PlansAll hash path file container identity capacity plans := by
  rw [planAll]
  simp only [bind_eq_ok, refuseIf_eq_ok, requireSupported_eq_ok, planSlices_eq_ok, exists_const, Nat.not_lt]
  constructor
  · rintro ⟨hbounded, hsupported, ⟨⟩, hzeros, hslices⟩
    exact ⟨hbounded, hsupported, hzeros, hslices⟩
  · exact fun h => ⟨h.bounded, h.supported, (), h.zeros, h.slices⟩

theorem prepareSignature_eq_ok : prepareSignature hash path file identity capacity = .ok prepared ↔
    ∃ container plans, parseInput file = .ok container ∧ PlansAll hash path file container identity capacity plans ∧
      prepared = ⟨identity, capacity, plans.map SlicePlan.prepared⟩ := by
  rw [prepareSignature]
  simp only [bind_eq_ok, planAll_eq_ok, pure_eq_ok, Except.ok.injEq]
  constructor
  · rintro ⟨container, hparse, plans, hplans, rfl⟩
    exact ⟨container, plans, hparse, hplans, rfl⟩
  · rintro ⟨container, plans, hparse, hplans, rfl⟩
    exact ⟨container, hparse, plans, hplans, rfl⟩

/-- What completing asks of the plans. -/
structure Completes (hash : List UInt8 → Digest) (path : String) (file : List UInt8) (container : MachOContainer)
    (prepared : PreparedSignature) (cmsSignatures : List (List UInt8)) (plans : List SlicePlan) (out : List UInt8) :
    Prop where
  planned : PlansAll hash path file container prepared.identity prepared.cmsCapacity plans
  unchanged : plans.map SlicePlan.prepared = prepared.slices
  count : cmsSignatures.length = plans.length
  capacity : ∀ cms ∈ cmsSignatures, cms.length ≤ prepared.cmsCapacity
  bytes : containerBytes path file container (List.zipWith finishSlice plans cmsSignatures) = .ok out

theorem completeSignature_eq_ok : completeSignature hash path file prepared cmsSignatures = .ok out ↔
    ∃ container plans, parseInput file = .ok container ∧
      Completes hash path file container prepared cmsSignatures plans out := by
  rw [completeSignature]
  simp only [bind_eq_ok, planAll_eq_ok, refuseIf_eq_ok, exists_const, not_not]
  constructor
  · rintro ⟨container, hparse, plans, hplans, hunchanged, hcount, h⟩
    split at h
    · cases h
    · rename_i hfind
      refine ⟨container, plans, hparse, hplans, hunchanged, hcount, fun cms hin => ?_, h⟩
      have hnot := List.find?_eq_none.1 hfind cms hin
      exact Nat.not_lt.1 fun hlt => hnot (decide_eq_true hlt)
  · rintro ⟨container, plans, hparse, hplans, hunchanged, hcount, hcapacity, h⟩
    refine ⟨container, hparse, plans, hplans, hunchanged, hcount, ?_⟩
    have hfind : cmsSignatures.find? (fun cms => decide (prepared.cmsCapacity < cms.length)) = none := by
      rw [List.find?_eq_none]
      intro cms hin hlt
      exact absurd (of_decide_eq_true hlt) (Nat.not_lt.2 (hcapacity cms hin))
    rw [hfind]
    exact h

/-! Finished programs -/

/-- A program with other bytes behind its load commands. -/
theorem finish_program (hbehind : q.headerEnd ≤ dataoff) (blob : List UInt8) : ∃ q' : Program,
    overwrite q.bytes dataoff blob = q'.bytes ∧ q'.header = q.header ∧ q'.commands = q.commands ∧
      q'.body = overwrite q.body (dataoff - q.headerEnd) blob := by
  obtain ⟨q', hheader, hcommands, hbody⟩ : ∃ q' : Program, q'.header = q.header ∧ q'.commands = q.commands ∧
      q'.body = overwrite q.body (dataoff - q.headerEnd) blob :=
    exists_program q.headerLength q.magic q.counted q.measured
  have hplace : kHeader64Size + (areaOf q.commands).length + (dataoff - q.headerEnd) = dataoff :=
    Nat.add_sub_of_le hbehind
  have hwhole := @overwrite_body q.commands q.header q.body q.headerLength (dataoff - q.headerEnd) blob
  rw [hplace] at hwhole
  refine ⟨q', ?_, hheader, hcommands, hbody⟩
  rw [Program.bytes, hwhole, Program.bytes, hheader, hcommands, hbody]

theorem SignedInto.finished (h : SignedInto p q k dataoff datasize) (blob : List UInt8) :
    ∃ q', overwrite q.bytes dataoff blob = q'.bytes ∧ SignedInto p q' k dataoff datasize := by
  obtain ⟨q', hbytes, hheader, hcommands, hbody⟩ := finish_program h.behind blob
  have hend : q'.headerEnd = q.headerEnd := by rw [Program.headerEnd, Program.headerEnd, hcommands]
  have hsize : q'.size = q.size := by rw [q'.size_eq, q.size_eq, hend, hbody, length_overwrite]
  refine ⟨q', hbytes, by rw [hsize, h.size], by rw [hend]; exact h.behind, ?_, ?_, ?_, by rw [hheader]; exact h.cpu⟩
  · rw [hcommands]
    exact h.signature
  · rw [hcommands]
    exact h.sound
  · rw [hsize, hcommands]
    exact h.fits

/-- The room for a signature is filled and the form stays. -/
theorem SignedForm.finished (hs : Signable p k c) (hq : SignedForm p k c cputype tail q) (blob : List UInt8) :
    ∃ q', overwrite q.bytes (align16 p.size) blob = q'.bytes ∧ SignedForm p k c cputype (overwrite tail 0 blob) q' := by
  have hlen : (overwrite tail 0 blob).length = tail.length := length_overwrite _ _ _
  obtain ⟨q', hbytes, hheader, hcommands, hbody⟩ := finish_program (hq.behind hs) blob
  refine ⟨q', hbytes, by rw [hlen]; exact hq.small, by rw [hheader, hq.header], by rw [hcommands, hq.commands, hlen], ?_⟩
  have hfront : ((paddedBody p).drop kSignatureCommandSize).length = align16 p.size - q.headerEnd := by
    have hend := hq.headerEnd hs
    have hpadded := length_paddedBody p
    rw [List.length_drop]
    omega
  rw [hbody, hq.body, ← hfront]
  exact overwrite_append_right _ _ _ 0

/-- The room that was reserved is enough for the signature. -/
theorem blob_fits (hplan : planSlice hash path universal i file entry identity capacity = .ok plan)
    (hcms : cms.length ≤ capacity) : (buildSuperBlob plan.codeDirectory cms).length ≤ plan.datasize := by
  obtain ⟨kept, linkedit, -, -, -, rfl⟩ := planSlice_eq_ok.1 hplan
  have hlen : (buildSuperBlob (codeDirectory hash entry.slice identity (planBytes file entry linkedit kept (align16 kept)
      (reserved identity (align16 kept) capacity)) (align16 kept)) cms).length =
      56 + cdSize identity (align16 kept) + cms.length := by
    rw [length_buildSuperBlob, superBlobSize, length_codeDirectory]
  have hfixed : superBlobFixedSize = 56 := rfl
  have halign := le_align16 (superBlobFixedSize + cdSize identity (align16 kept) + capacity)
  simp only [planOf]
  rw [hlen, reserved]
  omega

/-- The finished slices, each with its plan. -/
theorem finished_slices (hplans : List.Forall₂ (fun entry plan =>
      planSlice hash path universal 0 file entry identity capacity = .ok plan) entries plans)
    (hcount : cmsSignatures.length = plans.length) (hcapacity : ∀ cms ∈ cmsSignatures, cms.length ≤ capacity) :
    List.Forall₂ (fun entry s => ∃ plan cms, planSlice hash path universal 0 file entry identity capacity = .ok plan ∧
      cms.length ≤ capacity ∧ s = finishSlice plan cms) entries (List.zipWith finishSlice plans cmsSignatures) := by
  induction hplans generalizing cmsSignatures with
  | nil => exact .nil
  | cons hplan _ ih =>
      cases cmsSignatures with
      | nil => cases hcount
      | cons cms cmsSignatures =>
          obtain ⟨hcms, hcapacity⟩ := List.forall_mem_cons.1 hcapacity
          exact .cons ⟨_, cms, hplan, hcms, rfl⟩ (ih (Nat.succ.inj hcount) hcapacity)

/-! What the parser takes of the forms -/

theorem others_fit (h : p.Accepted) {size : Nat} (hsize : p.size ≤ size) :
    ∀ i d, i ≠ k → p.commands[i]? = some d → d.isSegment = true → d.fileoff + d.filesize ≤ size :=
  fun _ d _ hd hsegment => (h.fits d (List.mem_of_getElem? hd) hsegment).trans hsize

theorem SignedForm.into (hs : Signable p k c) (hq : SignedForm p k c cputype tail q) (h : p.Accepted) :
    SignedInto p q k (align16 p.size) tail.length := by
  have hsmall := hq.small
  have hbefore := hs.before
  have halign := le_align16 p.size
  have hlt := Leads.lt hs.leads
  have hleads := Leads.append hs.leads [signatureCommand (align16 p.size) tail.length]
  have hsize := hq.size hs
  refine ⟨hsize, hq.behind hs, ⟨_, _, hq.signs hs, signatureCommand_dataoff (by omega), signatureCommand_datasize (by omega)⟩,
    ?_, ?_, ?_⟩
  · rw [hq.commands]
    refine sound_relinked hleads.at_ hleads.segment fun d hd => ?_
    rcases List.mem_append.1 hd with hd | hd
    · exact h.admitted.sound d hd
    · obtain rfl := List.mem_singleton.1 hd
      exact (signature_sound signatureCommand_isSignature).2 (by rw [signatureCommand_length]; decide)
  · rw [hsize, hq.commands]
    refine fits_relinked hleads.at_ hleads.segment hs.sound (by omega) fun i d hi hsegment => ?_
    by_cases hin : i < p.commands.length
    · rw [List.getElem?_append_left hin]
    · rw [List.getElem?_append_right (by omega), List.getElem?_eq_none (by omega : p.commands.length ≤ i)]
      refine iff_of_false (fun hd => ?_) (fun hd => by cases hd)
      obtain rfl := List.mem_singleton.1 (List.mem_of_getElem? hd)
      rw [signatureCommand_isSegment] at hsegment
      cases hsegment
  · rw [hq.header]
    exact recount_before (by decide)

theorem SignedForm.accepted (hs : Signable p k c) (hq : SignedForm p k c cputype tail q) (h : p.Accepted) : q.Accepted := by
  have halign := le_align16 p.size
  refine (SignedForm.into hs hq h).accepted.2 (others_fit h ?_)
  rw [hq.size hs]
  omega

theorem StrippedForm.into (hs : Signable p k c) (hq : StrippedForm p k c vmsize q) (h : p.Accepted) :
    StrippedInto p q k (align16 p.size) := by
  have hbefore := hs.before
  have halign := le_align16 p.size
  have hsize := hq.size hs
  refine ⟨hsize, (hq.bare hs).unsigned hs, ?_, ?_, by rw [hq.header]⟩
  · rw [hq.commands]
    exact sound_relinked hs.leads.at_ hs.leads.segment h.admitted.sound
  · rw [hsize, hq.commands]
    exact fits_relinked hs.leads.at_ hs.leads.segment hs.sound (by omega) fun _ _ _ _ => Iff.rfl

theorem StrippedForm.accepted (hs : Signable p k c) (hq : StrippedForm p k c vmsize q) (h : p.Accepted) : q.Accepted := by
  have halign := le_align16 p.size
  refine (StrippedForm.into hs hq h).accepted.2 (others_fit h ?_)
  rw [hq.size hs]
  omega

/-! Stripping -/

theorem exists_stripSlice {sig : CodeSignatureLayout} {linkedit : SegmentLayout} {cut : Nat} (hcut : CutAt entry.slice sig cut)
    (hlinkedit : entry.slice.linkedit = some linkedit) (hbefore : linkedit.fileoff ≤ cut) :
    ∃ out, stripSlice path universal i file entry sig = .ok out := by
  have hnot : refuseSliceIf (cut < linkedit.fileoff) path universal i entry.cputype
      "the program has no __LINKEDIT segment at its end; it cannot be signed" = .ok () :=
    refuseSliceIf_eq_ok.2 (Nat.not_lt.2 hbefore)
  rw [stripSlice, requireSignatureAtEnd_eq_ok.2 hcut, ok_bind, hlinkedit]
  simp only
  rw [hnot, ok_bind]
  exact ⟨_, rfl⟩

/-- What a slice becomes when the file is stripped. -/
def StripsTo (path : String) (universal : Bool) (file : List UInt8) (entry : ContainerEntry) (s : List UInt8) : Prop :=
  match entry.slice.codesig with
  | some sig => ∃ i, stripSlice path universal i file entry sig = .ok s
  | none => slice file entry.offset entry.slice.size = s

theorem stripSlices_ok (h : stripSlices path universal file i entries = .ok slices) :
    List.Forall₂ (StripsTo path universal file) entries slices := by
  induction entries generalizing i slices with
  | nil =>
      cases h
      exact .nil
  | cons entry entries ih =>
      rw [stripSlices] at h
      cases hsig : entry.slice.codesig with
      | some sig =>
          rw [hsig] at h
          obtain ⟨stripped, hstripped, h⟩ := bind_eq_ok.1 h
          obtain ⟨rest, hrest, h⟩ := bind_eq_ok.1 h
          obtain rfl := Except.ok.inj h
          refine .cons ?_ (ih hrest)
          rw [StripsTo, hsig]
          exact ⟨i, hstripped⟩
      | none =>
          rw [hsig] at h
          obtain ⟨_, hstripped, h⟩ := bind_eq_ok.1 h
          obtain ⟨rest, hrest, h⟩ := bind_eq_ok.1 h
          obtain rfl := Except.ok.inj hstripped
          obtain rfl := Except.ok.inj h
          refine .cons ?_ (ih hrest)
          rw [StripsTo, hsig]

/-- What stripping asks of a file. -/
structure StripsAll (path : String) (file : List UInt8) (container : MachOContainer) (slices : List (List UInt8)) : Prop where
  supported : ∀ entry ∈ container.entries, entry.slice.support = .supported
  zeros : requireZeroPadding path file container = .ok ()
  slices : stripSlices path (isUniversal container) file 0 container.entries = .ok slices
  signed : ∃ entry ∈ container.entries, entry.slice.codesig.isSome = true

theorem stripSignature_eq_ok : stripSignature path file = .ok (some out) ↔
    ∃ container slices, parseInput file = .ok container ∧ StripsAll path file container slices ∧
      containerBytes path file container slices = .ok out := by
  have hall : ∀ container : MachOContainer, (container.entries.all fun entry => entry.slice.codesig.isNone) = true ↔
      ¬∃ entry ∈ container.entries, entry.slice.codesig.isSome = true := by
    intro container
    simp
  rw [stripSignature]
  simp only [bind_eq_ok, requireSupported_eq_ok, exists_const]
  constructor
  · rintro ⟨container, hparse, hsupported, ⟨⟩, hzeros, slices, hslices, h⟩
    split at h
    · cases h
    · rename_i hsome
      rw [hall, not_not] at hsome
      obtain ⟨bytes, hbytes, h⟩ := bind_eq_ok.1 h
      cases h
      exact ⟨container, slices, hparse, ⟨hsupported, hzeros, hslices, hsome⟩, hbytes⟩
  · rintro ⟨container, slices, hparse, ⟨hsupported, hzeros, hslices, hsome⟩, hbytes⟩
    refine ⟨container, hparse, hsupported, (), hzeros, slices, hslices, ?_⟩
    rw [if_neg (by rw [hall, not_not]; exact hsome), hbytes]
    rfl

theorem SignedForm.strippable (hs : Signable p k c) (hq : SignedForm p k c cputype tail q) (h : Holds file entry q) :
    ∃ out, stripSlice path universal i file entry
      ((signatureCommand (align16 p.size) tail.length).sig (commandAt q.commands p.commands.length)) = .ok out := by
  have hkeeps := (hq.keeps hs h).2 rfl
  have hbefore := hs.before
  have halign := le_align16 p.size
  rw [Keeps, h.signed (hq.signs hs)] at hkeeps
  refine exists_stripSlice hkeeps (h.linkedit_iff.2 ⟨k, _, hq.leads hs, rfl⟩) ?_
  show (relink c _ _).fileoff ≤ _
  rw [relink_fileoff]
  omega

/-! Files with one program -/

def thinEntry (p : Program) : ContainerEntry where
  cputype := leValue (slice p.header 4 4)
  cpusubtype := leValue (slice p.header 8 4)
  size := p.size
  slice := p.layout 0 "the file"

theorem containerBytes_thin : containerBytes path file ⟨.thin, entries⟩ slices = .ok (slices.getD 0 []) := rfl

theorem parseInput_thin : parseInput p.bytes = .ok container ↔ p.Accepted ∧ container = ⟨.thin, [thinEntry p]⟩ := by
  have hlong := least_size p
  rw [Program.size] at hlong
  rw [parseInput_eq_ok, parse_thin rfl]
  exact and_iff_right (by omega)

theorem holds_thin (h : p.Accepted) : Holds p.bytes (thinEntry p) p := by
  have hinside : (thinEntry p).offset + (thinEntry p).size = p.bytes.length := Nat.zero_add _
  exact ⟨hinside.le, slice_all _, h, _, rfl⟩

/-- A thin file is its program. -/
theorem thin_program (hparse : parseInput file = .ok container) (hform : container.form = .thin)
    (hsupported : ∀ entry ∈ container.entries, entry.slice.support = .supported) :
    ∃ p : Program, file = p.bytes ∧ p.Accepted ∧ container = ⟨.thin, [thinEntry p]⟩ := by
  obtain ⟨-, h⟩ := parseInput_eq_ok.1 hparse
  obtain ⟨ps, hps⟩ := exists_programs h hsupported
  have hwhole := h
  rw [parseMachOContainer, if_pos (thin_of_parse h hform)] at hwhole
  obtain ⟨layout, -, hwhole⟩ := bind_eq_ok.1 hwhole
  obtain rfl := Except.ok.inj hwhole
  cases hps with
  | cons hp _ =>
      have hbytes := hp.bytes
      have hall : slice file 0 file.length = file := slice_all file
      rw [show (view file).size = file.length from rfl, hall] at hbytes
      obtain ⟨haccepted, hcontainer⟩ := (parse_thin hbytes).1 h
      exact ⟨_, hbytes, haccepted, hcontainer⟩

/-! Files that were put together from programs -/

/-- What the parser makes of a file that was put together again. -/
def rebuiltContainer (container : MachOContainer) (qs : List Program) : MachOContainer :=
  if container.form = .thin then ⟨.thin, qs.map thinEntry⟩ else ⟨container.form, newEntries container.entries qs⟩

theorem rebuiltContainer_universal (wide : Bool) (entries : List ContainerEntry) (qs : List Program) :
    rebuiltContainer ⟨formOf wide, entries⟩ qs = ⟨formOf wide, newEntries entries qs⟩ :=
  if_neg (formOf_ne_thin wide)

theorem containerBytes_universal {wide : Bool} : containerBytes path file ⟨formOf wide, entries⟩ slices = .ok out ↔
    Assembles file wide entries slices out := by
  rw [containerBytes, if_neg (formOf_ne_thin wide), assembleUniversal_assembles]

/-- A file is thin, with one entry, or universal. -/
theorem parsed_cases (h : parseMachOContainer (view file) = .ok container) :
    (∃ entry, container = ⟨.thin, [entry]⟩) ∨ ∃ wide entries, container = ⟨formOf wide, entries⟩ ∧ Universal file wide entries := by
  rcases form_cases container with hthin | ⟨wide, entries, rfl⟩
  · rw [parseMachOContainer, if_pos (thin_of_parse h hthin)] at h
    obtain ⟨layout, -, h⟩ := bind_eq_ok.1 h
    exact .inl ⟨_, (Except.ok.inj h).symm⟩
  · exact .inr ⟨wide, entries, rfl, parse_universal.1 h⟩

/-- The parser takes the new file when it takes all of its programs. -/
theorem parse_rebuilt {qs : List Program} (hparse : parseInput file = .ok container) (hlen : qs.length = container.entries.length)
    (hbytes : containerBytes path file container (bytesOfAll qs) = .ok out) {container' : MachOContainer} :
    parseMachOContainer (view out) = .ok container' ↔
      (∀ q ∈ qs, q.Accepted) ∧ container' = rebuiltContainer container qs := by
  obtain ⟨-, h⟩ := parseInput_eq_ok.1 hparse
  rcases parsed_cases h with ⟨entry, rfl⟩ | ⟨wide, entries, rfl, hu⟩
  · obtain ⟨q, rfl⟩ := List.length_eq_one_iff.1 hlen
    rw [containerBytes_thin] at hbytes
    rw [List.forall_mem_singleton]
    exact parse_thin (Except.ok.inj hbytes).symm
  · rw [rebuiltContainer_universal]
    exact parse_assembled hu (containerBytes_universal.1 hbytes) hlen

theorem exists_bytesOfAll (h : ∀ s ∈ slices, ∃ q : Program, s = q.bytes) : ∃ qs, slices = bytesOfAll qs := by
  induction slices with
  | nil => exact ⟨[], rfl⟩
  | cons s slices ih =>
      obtain ⟨⟨q, rfl⟩, hrest⟩ := List.forall_mem_cons.1 h
      obtain ⟨qs, rfl⟩ := ih hrest
      exact ⟨q :: qs, rfl⟩

/-- Slices that are each made of the program of their entry. -/
theorem exists_new_programs {R : ContainerEntry → Program → Program → Prop} (hholds : List.Forall₂ (Holds file) entries ps)
    (hslices : List.Forall₂ (fun entry s => ∀ p, Holds file entry p → ∃ q : Program, s = q.bytes ∧ R entry p q) entries slices) :
    ∃ qs, slices = bytesOfAll qs ∧ qs.length = entries.length ∧
      ∀ (i : Nat) (entry : ContainerEntry) (p q : Program), entries[i]? = some entry → ps[i]? = some p → qs[i]? = some q →
        R entry p q := by
  induction hholds generalizing slices with
  | nil =>
      obtain rfl := List.forall₂_nil_left_iff.1 hslices
      exact ⟨[], rfl, rfl, fun i entry p q hentry => by cases hentry⟩
  | cons h _ ih =>
      obtain ⟨s, rest, hs, hrest, rfl⟩ := List.forall₂_cons_left_iff.1 hslices
      obtain ⟨q, rfl, hr⟩ := hs _ h
      obtain ⟨qs, rfl, hlen, hall⟩ := ih hrest
      refine ⟨q :: qs, rfl, congrArg Nat.succ hlen, fun i entry p q' hentry hp hq => ?_⟩
      cases i with
      | zero =>
          obtain rfl := Option.some.inj hentry
          obtain rfl := Option.some.inj hp
          obtain rfl := Option.some.inj hq
          exact hr
      | succ i => exact hall i entry p q' hentry hp hq

/-- The bytes of a slice where the file has it now. -/
def sliceOf (out : List UInt8) (form : ContainerForm) (i : Nat) : List UInt8 :=
  if form = .thin then out
  else
    let entry := tableEntry out (form = .fat64) i
    slice out entry.offset entry.size

theorem sliceOf_rebuilt {qs : List Program} (hparse : parseInput file = .ok container)
    (hlen : qs.length = container.entries.length) (hbytes : containerBytes path file container (bytesOfAll qs) = .ok out)
    (hq : qs[i]? = some q) : sliceOf out container.form i = q.bytes := by
  obtain ⟨-, h⟩ := parseInput_eq_ok.1 hparse
  have hi := (List.getElem?_eq_some_iff.1 hq).1
  rcases parsed_cases h with ⟨entry, rfl⟩ | ⟨wide, entries, rfl, hu⟩
  · obtain ⟨q', rfl⟩ := List.length_eq_one_iff.1 hlen
    obtain rfl : i = 0 := Nat.lt_one_iff.1 hi
    rw [containerBytes_thin] at hbytes
    obtain rfl := Option.some.inj hq
    exact (Except.ok.inj hbytes).symm
  · have ha := containerBytes_universal.1 hbytes
    have hwide : decide (formOf wide = .fat64) = wide := by cases wide <;> rfl
    have hbound : i < entries.length := hlen ▸ hi
    have htable := ha.tableEntry (Universal.behind hu) hbound
    obtain ⟨-, hslice, -⟩ := slice_new (Universal.behind hu) ha hbound hq
    rw [getD_bytesOfAll hq] at htable
    rw [sliceOf, if_neg (formOf_ne_thin wide)]
    simp only [hwide, htable]
    exact hslice

/-! A small program -/

theorem smallProgram_parsed : parseInput smallProgram = .ok ⟨.thin, [smallThin]⟩ := by
  have hsize : (view smallProgram).size = 125 := by decide +kernel
  have hslice : parseMachOSlice (view smallProgram) 0 125 "the file" = .ok smallLayout := by decide +kernel
  refine parseInput_eq_ok.2 ⟨by decide +kernel, ?_⟩
  rw [parseMachOContainer, if_pos (by decide +kernel), hsize, hslice]
  rfl

theorem smallProgram_signed : ∃ prepared signed, prepareSignature zeroHash "" smallProgram [] 16 = .ok prepared ∧
    completeSignature zeroHash "" smallProgram prepared [[1, 2, 3]] = .ok signed := by
  have hboth : (prepareSignature zeroHash "" smallProgram [] 16 >>= fun prepared =>
      completeSignature zeroHash "" smallProgram prepared [[1, 2, 3]]).isOk = true := by decide +kernel
  obtain ⟨signed, hboth⟩ := exists_of_isOk hboth
  obtain ⟨prepared, hprepare, hcomplete⟩ := bind_eq_ok.1 hboth
  exact ⟨prepared, signed, hprepare, hcomplete⟩

end TheSeed.MachOFiles
