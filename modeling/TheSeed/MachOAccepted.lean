import TheSeed.MachOFiles

namespace TheSeed.MachOAccepted

open Bytes Checked BoundedBytes MachOLayout MachOCommands MachOProgram MachOSigner MachOEdits MachOLinks MachOPlan MachOStrip
open MachOForms MachOUniversal MachOContainers MachOTable MachORebuilt MachOConsistent MachOPreserved MachOFiles

/-! When the parser takes what the signer writes. -/

variable {hash : List UInt8 → Digest} {path scope : String} {universal : Bool} {base capacity i k kept size : Nat}
  {file identity cms out s : List UInt8} {entry : ContainerEntry} {entries : List ContainerEntry} {container : MachOContainer}
  {layout : SliceLayout} {plan : SlicePlan} {prepared : PreparedSignature} {cmsSignatures : List (List UInt8)} {p q : Program}
  {ps qs : List Program} {c : Command}

/-- A call that writes when it succeeds. -/
inductive WritingCall where
  | complete (prepared : PreparedSignature) (cmsSignatures : List (List UInt8))
  | strip

def WritingCall.run (hash : List UInt8 → Digest) (path : String) (file : List UInt8) : WritingCall → Outcome (Option (List UInt8))
  | .complete prepared cmsSignatures => some <$> completeSignature hash path file prepared cmsSignatures
  | .strip => stripSignature path file

/-- How many signature commands a slice has after the call. -/
def WritingCall.signatures : WritingCall → Nat
  | .complete _ _ => 1
  | .strip => 0

/-- Where the data of an old signature begins, or the end of the slice. -/
def cutOf (layout : SliceLayout) : Nat :=
  match layout.codesig with
  | some sig => if sig.dataoff = 0 ∧ sig.datasize = 0 then layout.size else sig.dataoff
  | none => layout.size

/-- The length that a slice gets. -/
def WritingCall.newSize (layout : SliceLayout) : WritingCall → Nat
  | .complete prepared _ => align16 (cutOf layout) + reserved prepared.identity (align16 (cutOf layout)) prepared.cmsCapacity
  | .strip => cutOf layout

/-- Every segment but the link-edit segment ends before `size`. -/
def OthersEnd (layout : SliceLayout) (size : Nat) : Prop :=
  ∀ segment ∈ layout.segments, (∀ linkedit, layout.linkedit = some linkedit → segment.commandOffset ≠ linkedit.commandOffset) →
    segment.fileoff + segment.filesize ≤ size

/-- The parser takes the bytes as a file of the same form, with the same slices in the same order, and with so many signature
commands in each. -/
def TakenAs (container : MachOContainer) (signatures : Nat) (out : List UInt8) : Prop :=
  ∃ container', parseMachOContainer (view out) = .ok container' ∧ container'.form = container.form ∧
    container'.entries.map (fun entry => (entry.cputype, entry.cpusubtype, entry.align)) =
      container.entries.map (fun entry => (entry.cputype, entry.cpusubtype, entry.align)) ∧
    (byOffset container'.entries).map Prod.snd = (byOffset container.entries).map Prod.snd ∧
    ∀ entry ∈ container'.entries, entry.slice.support = .supported ∧
      entry.slice.commands.countP (fun command => command.cmd = kLcCodeSignature) = signatures

theorem Keeps.cutOf (h : Keeps layout kept) : kept = cutOf layout := by
  rw [Keeps] at h
  rw [MachOAccepted.cutOf]
  cases hsig : layout.codesig with
  | none =>
      rw [hsig] at h
      exact h
  | some sig =>
      rw [hsig] at h
      simp only [CutAt] at h ⊢
      split at h
      · rename_i hzero
        rw [if_pos hzero, h]
      · rename_i hzero
        rw [if_neg hzero, h.2]

/-! Slices -/

theorem commandAt_injective {cs : List Command} {d : Command} {j : Nat} (hj : cs[j]? = some d) (hk : cs[k]? = some c)
    (h : commandAt cs j = commandAt cs k) : j = k := by
  rcases Nat.lt_trichotomy j k with hlt | heq | hgt
  · exact absurd h (Nat.ne_of_lt ((commandAt_lt_iff hj hk hlt.ne').2 hlt))
  · exact heq
  · exact absurd h.symm (Nat.ne_of_lt ((commandAt_lt_iff hk hj hgt.ne').2 hgt))

theorem othersEnd_iff (h : Holds file entry p) (hk : Leads linkeditName p.commands k c) : OthersEnd entry.slice size ↔
    ∀ i d, i ≠ k → p.commands[i]? = some d → d.isSegment = true → d.fileoff + d.filesize ≤ size := by
  have hlinkedit := h.linkedit_iff.2 ⟨k, c, hk, rfl⟩
  obtain ⟨scope, hlayout⟩ := h.layout
  constructor
  · intro hothers i d hi hd hsegment
    refine hothers (d.segment (commandAt p.commands i)) ?_ fun linkedit hlead => ?_
    · rw [← hlayout]
      exact mem_segments.2 ⟨i, d, hd, hsegment, rfl⟩
    · obtain rfl := Option.some.inj (hlinkedit.symm.trans hlead)
      exact fun heq => hi (commandAt_injective hd hk.at_ heq)
  · intro hothers segment hin hne
    rw [← hlayout] at hin
    obtain ⟨i, d, hd, hsegment, rfl⟩ := mem_segments.1 hin
    refine hothers i d ?_ hd hsegment
    rintro rfl
    obtain rfl := Option.some.inj (hd.symm.trans hk.at_)
    exact hne _ hlinkedit rfl

/-- What a written slice has of the program that was there. -/
structure Written (call : WritingCall) (entry : ContainerEntry) (p q : Program) : Prop where
  accepted : q.Accepted ↔ OthersEnd entry.slice (call.newSize entry.slice)
  count : q.commands.countP Command.isSignature = call.signatures
  cpu : slice q.header 4 8 = slice p.header 4 8

theorem completed_slice (h : Holds file entry p)
    (hplan : planSlice hash path universal i file entry prepared.identity prepared.cmsCapacity = .ok plan) :
    ∃ q : Program, finishSlice plan cms = q.bytes ∧ Written (.complete prepared cmsSignatures) entry p q := by
  obtain ⟨k, q, hplans⟩ := planSlice_plans h hplan
  obtain ⟨c, hk⟩ := hplans.leads
  obtain ⟨q', hbytes, hsigned⟩ := SignedInto.finished hplans.signed (buildSuperBlob plan.codeDirectory cms)
  rw [← hplans.bytes] at hbytes
  refine ⟨q', hbytes, ?_, ?_, hsigned.cpu⟩
  · rw [hsigned.accepted, ← othersEnd_iff h hk, hsigned.size]
    obtain ⟨kept, linkedit, hkeeps, -, -, rfl⟩ := planSlice_eq_ok.1 hplan
    obtain rfl := Keeps.cutOf hkeeps
    simp only [planOf]
    exact Iff.rfl
  · obtain ⟨j, s, hj, -⟩ := hsigned.signature
    exact hj.count

theorem stripped_slice (h : Holds file entry p) (hstrip : StripsTo path universal file entry s) :
    ∃ q : Program, s = q.bytes ∧ Written .strip entry p q := by
  rw [StripsTo] at hstrip
  rcases accepted_signs_or_unsigned h.accepted with hnone | ⟨j, sig, hj⟩
  · have hsig := h.unsigned hnone
    rw [hsig] at hstrip
    have hwhole : slice file entry.offset entry.slice.size = p.bytes := by rw [h.slice_size, ← h.size, h.bytes]
    refine ⟨p, hstrip.symm.trans hwhole, ⟨fun _ => ?_, fun _ => h.accepted⟩, ?_, rfl⟩
    · intro segment hin _
      obtain ⟨scope, hlayout⟩ := h.layout
      have hsize : WritingCall.strip.newSize entry.slice = p.size := by
        rw [WritingCall.newSize, cutOf, hsig]
        exact h.slice_size
      rw [← hlayout] at hin
      obtain ⟨i, d, hd, hsegment, rfl⟩ := mem_segments.1 hin
      rw [hsize]
      exact h.accepted.fits d (List.mem_of_getElem? hd) hsegment
    · exact List.countP_eq_zero.2 fun d hd => Bool.eq_false_iff.1 (hnone d hd)
  · rw [h.signed hj] at hstrip
    obtain ⟨i, hstrip⟩ := hstrip
    obtain ⟨cut, k, c, hstrips⟩ := stripSlice_strips h hj hstrip
    obtain ⟨q, hq, hstripped⟩ := hstrips.stripped h hj
    have hkeeps : Keeps entry.slice cut := by
      rw [Keeps, h.signed hj]
      exact hstrips.kept
    refine ⟨q, hq, ?_, ?_, hstripped.cpu⟩
    · rw [hstripped.accepted, ← othersEnd_iff h hstrips.leads, hstripped.size, Keeps.cutOf hkeeps]
      exact Iff.rfl
    · exact List.countP_eq_zero.2 fun d hd => Bool.eq_false_iff.1 (hstripped.unsigned d hd)

/-! Files -/

theorem written_programs {call : WritingCall} (hparse : parseInput file = .ok container)
    (hrun : call.run hash path file = .ok (some out)) :
    ∃ ps qs, List.Forall₂ (Holds file) container.entries ps ∧ qs.length = container.entries.length ∧
      containerBytes path file container (bytesOfAll qs) = .ok out ∧
      ∀ (i : Nat) (entry : ContainerEntry) (p q : Program), container.entries[i]? = some entry → ps[i]? = some p →
        qs[i]? = some q → Written call entry p q := by
  have hmade : ∃ slices, (∀ entry ∈ container.entries, entry.slice.support = .supported) ∧
      containerBytes path file container slices = .ok out ∧
      List.Forall₂ (fun entry s => ∀ p, Holds file entry p → ∃ q : Program, s = q.bytes ∧ Written call entry p q)
        container.entries slices := by
    cases call with
    | complete prepared cmsSignatures =>
        obtain ⟨out', hcomplete, heq⟩ := map_eq_ok.1 hrun
        cases heq
        obtain ⟨_, plans, hparse', hcompletes⟩ := completeSignature_eq_ok.1 hcomplete
        obtain rfl := Except.ok.inj (hparse.symm.trans hparse')
        refine ⟨_, hcompletes.planned.supported, hcompletes.bytes,
          (finished_slices hcompletes.planned.slices hcompletes.count hcompletes.capacity).imp fun entry s hs p h => ?_⟩
        obtain ⟨plan, cms, hplan, -, rfl⟩ := hs
        exact completed_slice h hplan
    | strip =>
        obtain ⟨_, slices, hparse', hstrips, hbytes⟩ := stripSignature_eq_ok.1 hrun
        obtain rfl := Except.ok.inj (hparse.symm.trans hparse')
        exact ⟨slices, hstrips.supported, hbytes, (stripSlices_ok hstrips.slices).imp fun entry s hs p h => stripped_slice h hs⟩
  obtain ⟨slices, hsupported, hbytes, hslices⟩ := hmade
  obtain ⟨ps, hholds⟩ := exists_programs (parseInput_eq_ok.1 hparse).2 hsupported
  obtain ⟨qs, rfl, hlen, hall⟩ := exists_new_programs hholds hslices
  exact ⟨ps, qs, hholds, hlen, hbytes, hall⟩

theorem header_numbers (h : slice q.header 4 8 = slice p.header 4 8) :
    slice q.header 4 4 = slice p.header 4 4 ∧ slice q.header 8 4 = slice p.header 8 4 := by
  have hfirst : ∀ r : Program, slice (slice r.header 4 8) 0 4 = slice r.header 4 4 := fun r => slice_slice (by decide)
  have hsecond : ∀ r : Program, slice (slice r.header 4 8) 4 4 = slice r.header 8 4 := fun r => slice_slice (by decide)
  exact ⟨by rw [← hfirst q, h, hfirst p], by rw [← hsecond q, h, hsecond p]⟩

/-- What the parser makes of the new file has the processors and alignments of the old one. -/
theorem rebuilt_kinds (hparse : parseInput file = .ok container) (hholds : List.Forall₂ (Holds file) container.entries ps)
    (hlen : qs.length = container.entries.length)
    (hcpu : ∀ (i : Nat) (p q : Program), ps[i]? = some p → qs[i]? = some q → slice q.header 4 8 = slice p.header 4 8) :
    (rebuiltContainer container qs).entries.map (fun entry => (entry.cputype, entry.cpusubtype, entry.align)) =
      container.entries.map (fun entry => (entry.cputype, entry.cpusubtype, entry.align)) := by
  rcases parsed_cases (parseInput_eq_ok.1 hparse).2 with ⟨entry, rfl⟩ | ⟨wide, entries, rfl, hu⟩
  · obtain ⟨q, rfl⟩ := List.length_eq_one_iff.1 hlen
    obtain ⟨p, _, h, hrest, rfl⟩ := List.forall₂_cons_left_iff.1 hholds
    obtain rfl := List.forall₂_nil_left_iff.1 hrest
    have hsupported : ∀ other ∈ [entry], other.slice.support = .supported := by
      intro other hin
      obtain rfl := List.mem_singleton.1 hin
      obtain ⟨scope, hlayout⟩ := h.layout
      rw [← hlayout]
      exact layout_support
    obtain ⟨p', rfl, -, hcontainer⟩ := thin_program hparse rfl hsupported
    obtain rfl : entry = thinEntry p' := List.singleton_inj.1 (congrArg MachOContainer.entries hcontainer)
    obtain rfl : p' = p := program_injective ((slice_all _).symm.trans h.bytes)
    obtain ⟨hcputype, hcpusubtype⟩ := header_numbers (hcpu 0 p' q rfl rfl)
    have hfirst : (thinEntry q).cputype = (thinEntry p').cputype := congrArg leValue hcputype
    have hsecond : (thinEntry q).cpusubtype = (thinEntry p').cpusubtype := congrArg leValue hcpusubtype
    have halign : (thinEntry q).align = (thinEntry p').align := rfl
    rw [rebuiltContainer, if_pos rfl, List.map_singleton, List.map_singleton, List.map_singleton, hfirst, hsecond, halign]
  · rw [rebuiltContainer_universal]
    apply List.ext_getElem?
    intro i
    rw [List.getElem?_map, List.getElem?_map]
    by_cases hi : i < entries.length
    · obtain ⟨entry, q, hentry, hq⟩ := exists_entry_program hlen hi
      rw [getElem?_newEntries.2 ⟨entry, q, hentry, hq, rfl⟩, hentry]
      rfl
    · have hcount := length_newEntries hlen
      simp only at hcount
      rw [List.getElem?_eq_none (by simp only; omega), List.getElem?_eq_none (Nat.not_lt.1 hi)]

/-- The slices keep their order in the file. -/
theorem rebuilt_order (hparse : parseInput file = .ok container) (hlen : qs.length = container.entries.length) :
    (byOffset (rebuiltContainer container qs).entries).map Prod.snd = (byOffset container.entries).map Prod.snd := by
  rcases parsed_cases (parseInput_eq_ok.1 hparse).2 with ⟨entry, rfl⟩ | ⟨wide, entries, rfl, hu⟩
  · obtain ⟨q, rfl⟩ := List.length_eq_one_iff.1 hlen
    rw [rebuiltContainer, if_pos rfl]
    rfl
  · rw [rebuiltContainer_universal, byOffset_new (Universal.behind hu) hlen, List.map_map]
    exact place_index _ _ _

theorem rebuilt_entry (hparse : parseInput file = .ok container) (hin : entry ∈ (rebuiltContainer container qs).entries) :
    ∃ (i : Nat) (q : Program) (base : Nat) (scope : String), qs[i]? = some q ∧ q.layout base scope = entry.slice := by
  rcases parsed_cases (parseInput_eq_ok.1 hparse).2 with ⟨first, rfl⟩ | ⟨wide, entries, rfl, hu⟩
  · rw [rebuiltContainer, if_pos rfl] at hin
    obtain ⟨q, hq, rfl⟩ := List.mem_map.1 hin
    obtain ⟨i, hi⟩ := List.mem_iff_getElem?.1 hq
    exact ⟨i, q, _, _, hi, rfl⟩
  · rw [rebuiltContainer_universal] at hin
    obtain ⟨i, hi⟩ := List.mem_iff_getElem?.1 hin
    obtain ⟨old, q, -, hq, rfl⟩ := getElem?_newEntries.1 hi
    exact ⟨i, q, _, _, hq, rfl⟩

theorem rebuilt_form (container : MachOContainer) (qs : List Program) : (rebuiltContainer container qs).form = container.form := by
  rw [rebuiltContainer]
  split
  · rename_i hthin
    exact hthin.symm
  · rfl

/-- The parser takes what was written exactly when every segment but the link-edit segment ends inside its new slice. -/
theorem written_taken_iff {call : WritingCall} (hparse : parseInput file = .ok container)
    (hrun : call.run hash path file = .ok (some out)) : TakenAs container call.signatures out ↔
      ∀ entry ∈ container.entries, OthersEnd entry.slice (call.newSize entry.slice) := by
  obtain ⟨ps, qs, hholds, hlen, hbytes, hall⟩ := written_programs hparse hrun
  have hplen := hholds.length_eq
  have hprograms : ∀ i, i < container.entries.length → ∃ entry p q, container.entries[i]? = some entry ∧ ps[i]? = some p ∧
      qs[i]? = some q := fun i hi =>
    ⟨_, _, _, List.getElem?_eq_getElem hi, List.getElem?_eq_getElem (by omega), List.getElem?_eq_getElem (by omega)⟩
  constructor
  · rintro ⟨container', hparse', -⟩ entry hin
    obtain ⟨haccepted, -⟩ := (parse_rebuilt hparse hlen hbytes).1 hparse'
    obtain ⟨i, hi⟩ := List.mem_iff_getElem?.1 hin
    obtain ⟨entry', p, q, hentry, hp, hq⟩ := hprograms i (List.getElem?_eq_some_iff.1 hi).1
    obtain rfl := Option.some.inj (hi.symm.trans hentry)
    exact (hall i entry p q hentry hp hq).accepted.1 (haccepted q (List.mem_of_getElem? hq))
  · intro hothers
    have haccepted : ∀ q ∈ qs, q.Accepted := by
      intro q hin
      obtain ⟨i, hi⟩ := List.mem_iff_getElem?.1 hin
      have hlt := (List.getElem?_eq_some_iff.1 hi).1
      obtain ⟨entry, p, q', hentry, hp, hq⟩ := hprograms i (by omega)
      obtain rfl := Option.some.inj (hi.symm.trans hq)
      exact (hall i entry p q hentry hp hq).accepted.2 (hothers entry (List.mem_of_getElem? hentry))
    have hcpu : ∀ (i : Nat) (p q : Program), ps[i]? = some p → qs[i]? = some q → slice q.header 4 8 = slice p.header 4 8 := by
      intro i p q hp hq
      have hlt := (List.getElem?_eq_some_iff.1 hq).1
      exact (hall i _ p q (List.getElem?_eq_getElem (by omega)) hp hq).cpu
    refine ⟨_, (parse_rebuilt hparse hlen hbytes).2 ⟨haccepted, rfl⟩, rebuilt_form container qs,
      rebuilt_kinds hparse hholds hlen hcpu, rebuilt_order hparse hlen, fun entry hin => ?_⟩
    obtain ⟨i, q, base, scope, hq, hlayout⟩ := rebuilt_entry hparse hin
    have hlt := (List.getElem?_eq_some_iff.1 hq).1
    obtain ⟨old, p, q', hentry, hp, hq'⟩ := hprograms i (by omega)
    obtain rfl := Option.some.inj (hq.symm.trans hq')
    rw [← hlayout, layout_commands, countP_placed]
    exact ⟨layout_support, (hall i old p q hentry hp hq).count⟩

theorem smallProgram_taken : ∃ prepared signed, prepareSignature zeroHash "" smallProgram [] 16 = .ok prepared ∧
    completeSignature zeroHash "" smallProgram prepared [[1, 2, 3]] = .ok signed ∧
    TakenAs ⟨.thin, [smallThin]⟩ 1 signed := by
  obtain ⟨prepared, signed, hprepare, hcomplete⟩ := smallProgram_signed
  have hrun : (WritingCall.complete prepared [[1, 2, 3]]).run zeroHash "" smallProgram = .ok (some signed) := by
    rw [WritingCall.run, hcomplete]
    rfl
  refine ⟨prepared, signed, hprepare, hcomplete, (written_taken_iff smallProgram_parsed hrun).2 fun entry hin => ?_⟩
  obtain rfl := List.mem_singleton.1 hin
  intro segment hsegment hne
  obtain rfl : segment = smallLinkedit := List.mem_singleton.1 hsegment
  exact absurd rfl (hne smallLinkedit rfl)

/-- A segment command of 72 bytes. -/
def segmentCommand (name : List UInt8) (fileoff filesize : Nat) : List UInt8 :=
  leBytes 4 kLcSegment64 ++ leBytes 4 72 ++ (name ++ List.replicate (16 - name.length) 0) ++ leBytes 8 0 ++ leBytes 8 4096 ++
    leBytes 8 fileoff ++ leBytes 8 filesize ++ leBytes 16 0

/-- A program with eight bytes of data, a signature of eight bytes, and two segments over both. -/
def overlappingProgram : List UInt8 :=
  beBytes 4 kBytesThin64Little ++ leBytes 4 7 ++ leBytes 4 3 ++ leBytes 4 mhExecute ++ leBytes 4 3 ++ leBytes 4 160 ++
    leBytes 8 0 ++ segmentCommand linkeditName 192 16 ++ segmentCommand (bytesOf "__DATA") 192 16 ++
    leBytes 4 kLcCodeSignature ++ leBytes 4 16 ++ leBytes 4 200 ++ leBytes 4 8 ++ leBytes 8 1 ++ List.replicate 8 2

/-- The program without its signature: one of the segments still ends where the signature ended. -/
def strippedProgram : List UInt8 :=
  beBytes 4 kBytesThin64Little ++ leBytes 4 7 ++ leBytes 4 3 ++ leBytes 4 mhExecute ++ leBytes 4 2 ++ leBytes 4 144 ++
    leBytes 8 0 ++ segmentCommand linkeditName 192 8 ++ segmentCommand (bytesOf "__DATA") 192 16 ++ List.replicate 16 0 ++
    leBytes 8 1

theorem overlappingProgram_not_taken : ∃ container, parseInput overlappingProgram = .ok container ∧
    WritingCall.strip.run zeroHash "" overlappingProgram = .ok (some strippedProgram) ∧
    ¬TakenAs container WritingCall.strip.signatures strippedProgram := by
  have hparse : (parseInput overlappingProgram).isOk = true := by decide +kernel
  have hrefused : (parseMachOContainer (view strippedProgram)).isOk = false := by decide +kernel
  obtain ⟨container, hparse⟩ := exists_of_isOk hparse
  refine ⟨container, hparse, by decide +kernel, ?_⟩
  rintro ⟨container', hparse', -⟩
  rw [hparse'] at hrefused
  cases hrefused

end TheSeed.MachOAccepted
