import TheSeed.MachOAccepted
import TheSeed.MachORepeated

namespace TheSeed.MachOHistory

open Bytes Checked BoundedBytes MachOLayout MachOCommands MachOProgram MachOSigner MachOEdits MachOLinks MachOPlan MachOStrip
open MachOForms MachOUniversal MachOContainers MachOTable MachORebuilt MachORepeated MachOConsistent MachODirectory
open MachOPreserved MachOFiles MachOAccepted

/-! Signing leaves no trace of the calls before it. -/

variable {hash : List UInt8 → Digest} {path : String} {universal universal' : Bool} {capacity dataoff datasize i j k : Nat}
  {file mid identity cms out s : List UInt8} {entry entry' : ContainerEntry} {container container' : MachOContainer}
  {layout layout' : SliceLayout} {plan first : SlicePlan} {plans : List SlicePlan} {prepared : PreparedSignature}
  {cmsSignatures slices : List (List UInt8)} {p q : Program} {ps qs : List Program} {c t : Command}

/-- A program after some calls: without a signature or with one. -/
def IsForm (p q : Program) : Prop :=
  ∃ k c, Signable p k c ∧ (BareForm p k c q ∨ ∃ cputype tail, SignedForm p k c cputype tail q)

/-! What a directory says of the program -/

theorem IsForm.text (h : IsForm p q) : Leads textName q.commands i t ↔ Leads textName p.commands i t := by
  obtain ⟨k, c, hs, hbare | ⟨cputype, tail, hsigned⟩⟩ := h
  · obtain ⟨filesize, vmsize, hcommands⟩ := hbare.commands
    rw [hcommands]
    exact leads_text_set hs.leads (by rw [relink_name, hs.leads.named])
  · rw [hsigned.commands, leads_text_set (Leads.append hs.leads _) (by rw [relink_name, hs.leads.named])]
    refine leads_text_append fun e he => ?_
    obtain rfl := List.mem_singleton.1 he
    exact signatureCommand_isSegment

theorem IsForm.header (h : IsForm p q) {at_ width : Nat} (hin : at_ + width ≤ 16) :
    slice q.header at_ width = slice p.header at_ width := by
  obtain ⟨k, c, hs, hbare | ⟨cputype, tail, hsigned⟩⟩ := h
  · rw [hbare.header]
  · rw [hsigned.header]
    exact recount_before hin

theorem textFields_form (h : Holds file entry p) (h' : Holds mid entry' q) (hform : IsForm p q) :
    textFields entry'.slice = textFields entry.slice := by
  rw [textFields, textFields]
  cases htext : entry.slice.text with
  | some text =>
      obtain ⟨i, t, hi, rfl⟩ := h.text_iff.1 htext
      rw [h'.text_iff.2 ⟨i, t, hform.text.2 hi, rfl⟩]
      rfl
  | none =>
      cases htext' : entry'.slice.text with
      | none => rfl
      | some text =>
          obtain ⟨i, t, hi, rfl⟩ := h'.text_iff.1 htext'
          have hsome := h.text_iff.2 ⟨i, t, hform.text.1 hi, rfl⟩
          rw [htext] at hsome
          cases hsome

theorem filetype_form (h : Holds file entry p) (h' : Holds mid entry' q) (hform : IsForm p q) :
    entry'.slice.filetype = entry.slice.filetype := by
  obtain ⟨_, hlayout⟩ := h.layout
  obtain ⟨_, hlayout'⟩ := h'.layout
  rw [← hlayout, ← hlayout', layout_filetype, layout_filetype, hform.header (by decide)]

theorem planOf_form (h : Holds file entry p) (h' : Holds mid entry' q) (hform : IsForm p q)
    (hcputype : entry'.cputype = entry.cputype) (hcpusubtype : entry'.cpusubtype = entry.cpusubtype) (out : List UInt8) :
    planOf hash entry' identity out dataoff datasize = planOf hash entry identity out dataoff datasize := by
  have hdirectory : codeDirectory hash entry'.slice identity out dataoff = codeDirectory hash entry.slice identity out dataoff := by
    rw [codeDirectory, codeDirectory, codeDirectoryFields_eq, codeDirectoryFields_eq, textFields_form h h' hform, middleFields,
      middleFields, filetype_form h h' hform]
  simp only [planOf, hdirectory, hcputype, hcpusubtype]

/-! Slices -/

theorem IsForm.aligned (hform : IsForm p q) (h' : Holds mid entry' q) {kept : Nat} (hkeeps : Keeps entry'.slice kept) :
    align16 kept = align16 p.size := by
  obtain ⟨k, c, hs, hbare | ⟨cputype, tail, hsigned⟩⟩ := hform
  · rw [(keeps_unsigned h' (hbare.unsigned hs)).1 hkeeps, hbare.aligned]
  · rw [(hsigned.keeps hs h').1 hkeeps, align16_align16]

/-- Planning a form plans the program, when that could be signed at all. -/
theorem plan_form (h : Holds file entry p) (h' : Holds mid entry' q) (hform : IsForm p q)
    (hcputype : entry'.cputype = entry.cputype) (hcpusubtype : entry'.cpusubtype = entry.cpusubtype)
    {identity₀ : List UInt8} {capacity₀ : Nat}
    (hfirst : planSlice hash path universal 0 file entry identity₀ capacity₀ = .ok first)
    (hplan : planSlice hash path universal' 0 mid entry' identity capacity = .ok plan) :
    planSlice hash path universal 0 file entry identity capacity = .ok plan := by
  obtain ⟨kept₀, linkedit, hkeeps₀, hlinkedit, hcan₀, -⟩ := planSlice_eq_ok.1 hfirst
  obtain ⟨kept, _, hkeeps, -, hcan, -⟩ := planSlice_eq_ok.1 hplan
  have haligned := hform.aligned h' hkeeps
  obtain ⟨k, c, hs, hcases⟩ := hform
  have hkept₀ : kept₀ = p.size := (keeps_unsigned h hs.unsigned).1 hkeeps₀
  subst hkept₀
  have hcan' : CanSign entry linkedit p.size identity capacity := by
    refine ⟨hcan₀.before, hcan₀.atEnd, hcan₀.room, hcan₀.countable, hcan.identified, ?_, ?_⟩
    · rw [← haligned]
      exact hcan.dataFits
    · rw [← haligned]
      exact hcan.directoryFits
  obtain ⟨plan', hplan'⟩ : ∃ plan', planSlice hash path universal 0 file entry identity capacity = .ok plan' :=
    ⟨_, planSlice_eq_ok.2 ⟨_, _, hkeeps₀, hlinkedit, hcan', rfl⟩⟩
  obtain ⟨q', hq', hqplan'⟩ := plan_bare hs hs.bare h hplan'
  obtain ⟨q'', hq'', hqplan⟩ : ∃ q'', SignedForm p k c entry'.cputype
      (noSignature (reserved identity (align16 p.size) capacity)) q'' ∧ planOf hash entry' identity q''.bytes (align16 p.size)
        (reserved identity (align16 p.size) capacity) = plan := by
    rcases hcases with hbare | ⟨cputype, tail, hsigned⟩
    · exact plan_bare hs hbare h' hplan
    · exact plan_signed hs hsigned h' hplan
  rw [hcputype] at hq''
  obtain rfl := SignedForm.unique hq' hq''
  rw [hplan', ← hqplan', ← hqplan, planOf_form h h' ⟨k, c, hs, hcases⟩ hcputype hcpusubtype]

/-- A finished slice of an unsigned program is a form of it. -/
theorem finished_form (h : Holds file entry p) (hnone : ∀ c ∈ p.commands, c.isSignature = false)
    (hplan : planSlice hash path universal 0 file entry identity capacity = .ok plan) :
    ∃ q : Program, finishSlice plan cms = q.bytes ∧ IsForm p q ∧ q.Accepted := by
  obtain ⟨k, c, hs⟩ := Signable.of_plan h hnone hplan
  obtain ⟨q, hq, rfl⟩ := plan_bare hs hs.bare h hplan
  obtain ⟨q', hbytes, hq'⟩ := SignedForm.finished hs hq
    (buildSuperBlob (codeDirectory hash entry.slice identity q.bytes (align16 p.size)) cms)
  refine ⟨q', ?_, ⟨k, c, hs, .inr ⟨_, _, hq'⟩⟩, SignedForm.accepted hs hq' h.accepted⟩
  rw [← hbytes, finishSlice]
  simp only [planOf]

theorem stripped_form (hp : p.Accepted) (h : Holds mid entry q) (hform : IsForm p q)
    (hstrip : StripsTo path universal mid entry s) : ∃ q' : Program, s = q'.bytes ∧ IsForm p q' ∧ q'.Accepted := by
  rw [StripsTo] at hstrip
  obtain ⟨k, c, hs, hbare | ⟨cputype, tail, hsigned⟩⟩ := hform
  · rw [h.unsigned (hbare.unsigned hs)] at hstrip
    refine ⟨q, ?_, ⟨k, c, hs, .inl hbare⟩, h.accepted⟩
    rw [← hstrip, h.slice_size, ← h.size, h.bytes]
  · rw [h.signed (hsigned.signs hs)] at hstrip
    obtain ⟨i, hstrip⟩ := hstrip
    obtain ⟨q', hq', hstripped⟩ := strip_signed hs hsigned h hstrip
    exact ⟨q', hq', ⟨k, c, hs, .inl (hstripped.bare hs)⟩, StrippedForm.accepted hs hstripped hp⟩

/-- Any stripped slice is a program, and that of a form is a form. -/
theorem stripped_again (h : Holds mid entry q) (hstrip : StripsTo path universal mid entry s) :
    ∃ q' : Program, s = q'.bytes ∧ ∀ p : Program, p.Accepted → IsForm p q → IsForm p q' ∧ q'.Accepted := by
  obtain ⟨q', rfl, -⟩ := stripped_slice h hstrip
  refine ⟨q', rfl, fun p hp hform => ?_⟩
  obtain ⟨q'', hbytes, hstripped⟩ := stripped_form hp h hform hstrip
  obtain rfl := program_injective hbytes
  exact hstripped

theorem finished_unsigned (h : Holds file entry p)
    (hplan : planSlice hash path universal 0 file entry prepared.identity prepared.cmsCapacity = .ok plan) :
    ∃ q : Program, finishSlice plan cms = q.bytes ∧ (entry.slice.codesig = none → IsForm p q ∧ q.Accepted) := by
  obtain ⟨q, hbytes, -⟩ := @completed_slice hash path universal 0 file cms entry plan prepared [] p h hplan
  refine ⟨q, hbytes, fun hnone => ?_⟩
  obtain ⟨q', hbytes', hformed⟩ := @finished_form hash path universal _ file _ cms entry plan p h (unsigned_of_codesig h hnone) hplan
  obtain rfl := program_injective (hbytes.symm.trans hbytes')
  exact hformed

/-! Files -/

/-- What a file is after calls that changed it: put together from forms of the programs of the first file, which could be
signed. -/
structure MadeOf (hash : List UInt8 → Digest) (path : String) (file : List UInt8) (container : MachOContainer)
    (ps qs : List Program) (mid : List UInt8) : Prop where
  holds : List.Forall₂ (Holds file) container.entries ps
  forms : List.Forall₂ (fun p q => IsForm p q ∧ q.Accepted) ps qs
  bytes : containerBytes path file container (bytesOfAll qs) = .ok mid
  planned : ∃ identity capacity plans, PlansAll hash path file container identity capacity plans

theorem MadeOf.length (hmade : MadeOf hash path file container ps qs mid) : qs.length = container.entries.length :=
  hmade.forms.length_eq.symm.trans hmade.holds.length_eq.symm

theorem MadeOf.accepted (hmade : MadeOf hash path file container ps qs mid) : ∀ q ∈ qs, q.Accepted := by
  intro q hq
  obtain ⟨i, hi⟩ := List.mem_iff_getElem?.1 hq
  have hlt := (List.getElem?_eq_some_iff.1 hi).1
  have hlen := hmade.forms.length_eq
  obtain ⟨q', hq', -, haccepted⟩ := forall₂_getElem? hmade.forms (List.getElem?_eq_getElem (by omega : i < ps.length))
  obtain rfl := Option.some.inj (hi.symm.trans hq')
  exact haccepted

section MadeOf

variable (hparse : parseInput file = .ok container) (hmade : MadeOf hash path file container ps qs mid)
include hparse hmade

/-- The parser takes it for what was put in. -/
theorem MadeOf.parsed (hparse' : parseInput mid = .ok container') : container' = rebuiltContainer container qs :=
  ((parse_rebuilt hparse hmade.length hmade.bytes).1 (parseInput_eq_ok.1 hparse').2).2

theorem MadeOf.holds_mid : List.Forall₂ (Holds mid) (rebuiltContainer container qs).entries qs := by
  have hlen := hmade.length
  have haccepted := hmade.accepted
  have hbytes := hmade.bytes
  rcases parsed_cases (parseInput_eq_ok.1 hparse).2 with ⟨entry, rfl⟩ | ⟨wide, entries, rfl, hu⟩
  · obtain ⟨q, rfl⟩ := List.length_eq_one_iff.1 hlen
    rw [containerBytes_thin] at hbytes
    obtain rfl := Except.ok.inj hbytes
    rw [rebuiltContainer, if_pos rfl]
    exact .cons (holds_thin (haccepted q List.mem_cons_self)) .nil
  · rw [rebuiltContainer_universal]
    exact holds_new hu (containerBytes_universal.1 hbytes) hlen haccepted

/-- New slices give what they give in the first file. -/
theorem MadeOf.again (h : containerBytes path mid (rebuiltContainer container qs) slices = .ok out) :
    containerBytes path file container slices = .ok out := by
  rcases parsed_cases (parseInput_eq_ok.1 hparse).2 with ⟨entry, rfl⟩ | ⟨wide, entries, rfl, hu⟩
  · rw [rebuiltContainer, if_pos rfl] at h
    exact h
  · rw [rebuiltContainer_universal] at h
    exact containerBytes_universal.2 (assembles_again hu (containerBytes_universal.1 hmade.bytes) hmade.length
      (containerBytes_universal.1 h))

theorem MadeOf.kinds : (rebuiltContainer container qs).entries.map (fun entry => (entry.cputype, entry.cpusubtype, entry.align)) =
    container.entries.map (fun entry => (entry.cputype, entry.cpusubtype, entry.align)) := by
  refine rebuilt_kinds hparse hmade.holds hmade.length fun i p q hp hq => ?_
  obtain ⟨q', hq', hform, -⟩ := forall₂_getElem? hmade.forms hp
  obtain rfl := Option.some.inj (hq.symm.trans hq')
  exact hform.header (by decide)

/-- What is planned for the file is what would be planned for the first one. -/
theorem MadeOf.plansAll {capacity : Nat} (h : PlansAll hash path mid (rebuiltContainer container qs) identity capacity plans) :
    PlansAll hash path file container identity capacity plans := by
  obtain ⟨identity₀, capacity₀, plans₀, hfirst⟩ := hmade.planned
  have hkinds := hmade.kinds hparse
  have hcount := congrArg List.length hkinds
  rw [List.length_map, List.length_map] at hcount
  have hlength := h.slices.length_eq
  refine ⟨h.bounded, hfirst.supported, hfirst.zeros, List.forall₂_iff_get.2 ⟨by omega, fun i hi hplan => ?_⟩⟩
  have hentry := List.getElem?_eq_getElem hi
  have hlt : i < (rebuiltContainer container qs).entries.length := by omega
  have hentry' := List.getElem?_eq_getElem hlt
  obtain ⟨p, hp, hholds⟩ := forall₂_getElem? hmade.holds hentry
  obtain ⟨q, hq, hform, -⟩ := forall₂_getElem? hmade.forms hp
  obtain ⟨q', hq', hholds'⟩ := forall₂_getElem? (hmade.holds_mid hparse) hentry'
  obtain rfl := Option.some.inj (hq.symm.trans hq')
  obtain ⟨first, -, hplan₀⟩ := forall₂_getElem? hfirst.slices hentry
  obtain ⟨plan, hat, hplanned⟩ := forall₂_getElem? h.slices hentry'
  have hkind := congrArg (fun kinds => kinds[i]?) hkinds
  simp only [List.getElem?_map, hentry, hentry', Option.map_some, Option.some.injEq, Prod.mk.injEq] at hkind
  have hget : plans.get ⟨i, hplan⟩ = plan := Option.some.inj ((List.getElem?_eq_getElem hplan).symm.trans hat)
  rw [hget]
  exact plan_form hholds hholds' hform hkind.1 hkind.2.1 hplan₀ hplanned

theorem MadeOf.completes (h : Completes hash path mid (rebuiltContainer container qs) prepared cmsSignatures plans out) :
    Completes hash path file container prepared cmsSignatures plans out :=
  ⟨hmade.plansAll hparse h.planned, h.unchanged, h.count, h.capacity, hmade.again hparse h.bytes⟩

theorem MadeOf.strips (h : StripsAll path mid (rebuiltContainer container qs) slices)
    (hbytes : containerBytes path mid (rebuiltContainer container qs) slices = .ok out) :
    ∃ qs', MadeOf hash path file container ps qs' out := by
  have hslices : List.Forall₂ (fun entry s => ∀ q, Holds mid entry q → ∃ q' : Program, s = q'.bytes ∧
      ∀ p : Program, p.Accepted → IsForm p q → IsForm p q' ∧ q'.Accepted) (rebuiltContainer container qs).entries slices :=
    (stripSlices_ok h.slices).imp fun entry s hs q hq => stripped_again hq hs
  obtain ⟨qs', rfl, hlength, hall⟩ := exists_new_programs (hmade.holds_mid hparse) hslices
  have hlen := hmade.holds_mid hparse |>.length_eq
  have hqlen := hmade.forms.length_eq
  refine ⟨qs', hmade.holds, List.forall₂_iff_get.2 ⟨by omega, fun i hi hq => ?_⟩, hmade.again hparse hbytes, hmade.planned⟩
  have hp := List.getElem?_eq_getElem hi
  obtain ⟨q, hqi, hform, -⟩ := forall₂_getElem? hmade.forms hp
  have hplen := hmade.holds.length_eq
  have hlt : i < container.entries.length := by omega
  have hentry := List.getElem?_eq_getElem hlt
  obtain ⟨p', hp', hholds⟩ := forall₂_getElem? hmade.holds hentry
  obtain rfl := Option.some.inj (hp.symm.trans hp')
  exact hall i _ q _ (List.getElem?_eq_getElem (by omega)) hqi (List.getElem?_eq_getElem hq) _ hholds.accepted hform

end MadeOf

/-- Signing an unsigned file makes it of signed forms. -/
theorem MadeOf.of_completes (hholds : List.Forall₂ (Holds file) container.entries ps)
    (hunsigned : ∀ entry ∈ container.entries, entry.slice.codesig = none)
    (h : Completes hash path file container prepared cmsSignatures plans out) :
    ∃ qs, MadeOf hash path file container ps qs out := by
  have hslices : List.Forall₂ (fun entry s => ∀ p, Holds file entry p → ∃ q : Program, s = q.bytes ∧
      (entry.slice.codesig = none → IsForm p q ∧ q.Accepted)) container.entries
      (List.zipWith finishSlice plans cmsSignatures) :=
    (finished_slices h.planned.slices h.count h.capacity).imp fun entry s hs p hp => by
      obtain ⟨plan, cms, hplan, -, rfl⟩ := hs
      exact finished_unsigned hp hplan
  obtain ⟨qs, hbytes, hlength, hall⟩ := exists_new_programs hholds hslices
  have hlen := hholds.length_eq
  have hassembled := h.bytes
  rw [hbytes] at hassembled
  refine ⟨qs, hholds, List.forall₂_iff_get.2 ⟨by omega, fun i hi hq => ?_⟩, hassembled, _, _, _, h.planned⟩
  have hlt : i < container.entries.length := by omega
  have hentry := List.getElem?_eq_getElem hlt
  exact hall i _ _ _ hentry (List.getElem?_eq_getElem hi) (List.getElem?_eq_getElem hq)
    (hunsigned _ (List.mem_of_getElem? hentry))

/-! Runs -/

/-- A call of the signer. -/
inductive SignerCall where
  | sign (identity : List UInt8) (capacity : Nat) (cmsSignatures : List (List UInt8))
  | strip

/-- What a successful call leaves of the file. -/
def SignerCall.run (hash : List UInt8 → Digest) (path : String) (file : List UInt8) : SignerCall → Outcome (List UInt8)
  | .sign identity capacity cmsSignatures => do
      let prepared ← prepareSignature hash path file identity capacity
      completeSignature hash path file prepared cmsSignatures
  | .strip => do
      let written ← stripSignature path file
      return written.getD file

def runCalls (hash : List UInt8 → Digest) (path : String) (file : List UInt8) (calls : List SignerCall) : Outcome (List UInt8) :=
  calls.foldlM (SignerCall.run hash path) file

/-- A file on the way. -/
def Descends (hash : List UInt8 → Digest) (path : String) (file : List UInt8) (container : MachOContainer) (mid : List UInt8) :
    Prop :=
  mid = file ∨ ∃ ps qs, MadeOf hash path file container ps qs mid

theorem sign_eq_ok {identity : List UInt8} {capacity : Nat} : (SignerCall.sign identity capacity cmsSignatures).run hash path file = .ok out ↔
    ∃ container plans, parseInput file = .ok container ∧
      Completes hash path file container ⟨identity, capacity, plans.map SlicePlan.prepared⟩ cmsSignatures plans out := by
  rw [SignerCall.run, bind_eq_ok]
  constructor
  · rintro ⟨prepared, hprepare, hcomplete⟩
    obtain ⟨container, plans, hparse, hplans, rfl⟩ := prepareSignature_eq_ok.1 hprepare
    obtain ⟨_, plans', hparse', hcompletes⟩ := completeSignature_eq_ok.1 hcomplete
    obtain rfl := Except.ok.inj (hparse.symm.trans hparse')
    obtain rfl : plans = plans' := by
      have hfirst := planAll_eq_ok.2 hplans
      have hsecond := planAll_eq_ok.2 hcompletes.planned
      exact Except.ok.inj (hfirst.symm.trans hsecond)
    exact ⟨container, plans, hparse, hcompletes⟩
  · rintro ⟨container, plans, hparse, hcompletes⟩
    exact ⟨_, prepareSignature_eq_ok.2 ⟨container, plans, hparse, hcompletes.planned, rfl⟩,
      completeSignature_eq_ok.2 ⟨container, plans, hparse, hcompletes⟩⟩

/-- Signing a file on the way is signing the first one. -/
theorem Descends.sign {identity : List UInt8} {capacity : Nat} (hparse : parseInput file = .ok container)
    (h : Descends hash path file container mid)
    (hsign : (SignerCall.sign identity capacity cmsSignatures).run hash path mid = .ok out) :
    (SignerCall.sign identity capacity cmsSignatures).run hash path file = .ok out := by
  rcases h with rfl | ⟨ps, qs, hmade⟩
  · exact hsign
  · obtain ⟨container', plans, hparse', hcompletes⟩ := sign_eq_ok.1 hsign
    obtain rfl := hmade.parsed hparse hparse'
    exact sign_eq_ok.2 ⟨container, plans, hparse, hmade.completes hparse hcompletes⟩

theorem Descends.step (hparse : parseInput file = .ok container)
    (hunsigned : ∀ entry ∈ container.entries, entry.slice.codesig = none) {call : SignerCall}
    (h : Descends hash path file container mid) (hcall : call.run hash path mid = .ok out) :
    Descends hash path file container out := by
  cases call with
  | sign identity capacity cmsSignatures =>
      obtain ⟨_, plans, hparse', hcompletes⟩ := sign_eq_ok.1 (h.sign hparse hcall)
      obtain rfl := Except.ok.inj (hparse.symm.trans hparse')
      obtain ⟨ps, hholds⟩ := exists_programs (parseInput_eq_ok.1 hparse).2 hcompletes.planned.supported
      exact .inr ⟨ps, MadeOf.of_completes hholds hunsigned hcompletes⟩
  | strip =>
      obtain ⟨written, hstrip, hout⟩ := bind_eq_ok.1 hcall
      obtain rfl := Except.ok.inj hout
      cases written with
      | none => exact h
      | some written =>
          obtain ⟨container', slices, hparse', hstrips, hbytes⟩ := stripSignature_eq_ok.1 hstrip
          rcases h with rfl | ⟨ps, qs, hmade⟩
          · obtain rfl := Except.ok.inj (hparse.symm.trans hparse')
            obtain ⟨entry, hin, hsome⟩ := hstrips.signed
            rw [hunsigned entry hin] at hsome
            cases hsome
          · obtain rfl := hmade.parsed hparse hparse'
            exact .inr ⟨ps, hmade.strips hparse hstrips hbytes⟩

/-- A run of successful calls that ends with a signing leaves what that signing makes of the first file alone. -/
theorem sign_history_independent {calls : List SignerCall} {identity : List UInt8} {capacity : Nat}
    (hparse : parseInput file = .ok container) (hunsigned : ∀ entry ∈ container.entries, entry.slice.codesig = none)
    (hrun : runCalls hash path file (calls ++ [.sign identity capacity cmsSignatures]) = .ok out) :
    (SignerCall.sign identity capacity cmsSignatures).run hash path file = .ok out := by
  rw [runCalls, List.foldlM_append] at hrun
  obtain ⟨mid, hcalls, hsign⟩ := bind_eq_ok.1 hrun
  have hmid : Descends hash path file container mid :=
    foldlM_invariant (Descends hash path file container) (fun _ _ _ h hcall => h.step hparse hunsigned hcall) (.inl rfl) hcalls
  obtain ⟨last, hlast, hend⟩ := foldlM_cons_eq_ok.1 hsign
  obtain rfl := Except.ok.inj hend
  exact hmid.sign hparse hlast

theorem smallProgram_history : ∃ out,
    runCalls zeroHash "" smallProgram ([.sign [] 16 [[1, 2, 3]], .strip] ++ [.sign [97] 8 [[4]]]) = .ok out ∧
      (SignerCall.sign [97] 8 [[4]]).run zeroHash "" smallProgram = .ok out := by
  have hok : (runCalls zeroHash "" smallProgram ([.sign [] 16 [[1, 2, 3]], .strip] ++ [.sign [97] 8 [[4]]])).isOk = true := by
    decide +kernel
  obtain ⟨out, hrun⟩ := exists_of_isOk hok
  have hunsigned : ∀ entry ∈ [smallThin], entry.slice.codesig = none := by decide +kernel
  exact ⟨out, hrun, sign_history_independent smallProgram_parsed hunsigned hrun⟩

end TheSeed.MachOHistory
