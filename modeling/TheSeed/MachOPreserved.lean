import TheSeed.MachOConsistent
import TheSeed.MachODirectory
import TheSeed.MachOForms

namespace TheSeed.MachOPreserved

open Bytes Checked BoundedBytes MachOLayout MachOCommands MachOProgram MachOSigner MachOEdits MachOLinks MachOPlan MachOForms
open MachOContainers MachOReassembly MachOConsistent MachODirectory

/-! Signing a program that has no signature writes over nothing that it contains. -/

variable {hash : List UInt8 → Digest} {path scope : String} {universal : Bool} {index capacity kept dataoff datasize n : Nat}
  {entry : ContainerEntry} {linkedit : SegmentLayout} {file identity : List UInt8} {plan : SlicePlan} {p : Program}

/-- A position that signing does not write to. -/
structure Untouched (layout : SliceLayout) (linkedit : SegmentLayout) (n : Nat) : Prop where
  counts : n < 16 ∨ 24 ≤ n
  command : n < layout.headerEnd ∨ layout.headerEnd + kSignatureCommandSize ≤ n
  vmsize : n < linkedit.commandOffset + kSegmentVmsizeField ∨ linkedit.commandOffset + kSegmentVmsizeField + 8 ≤ n
  filesize : n < linkedit.commandOffset + kSegmentFilesizeField ∨ linkedit.commandOffset + kSegmentFilesizeField + 8 ≤ n

theorem getElem?_overwrite_outside {bs data : List UInt8} {offset : Nat} (h : n < offset ∨ offset + data.length ≤ n) :
    (overwrite bs offset data)[n]? = bs[n]? := by
  rw [getElem?_overwrite, if_neg (by omega)]

theorem getElem?_planBytes (hnone : entry.slice.codesig = none) (h : Untouched entry.slice linkedit n) :
    (planBytes file entry linkedit kept dataoff datasize)[n]? =
      (resized (slice file entry.offset kept) (dataoff + datasize))[n]? := by
  obtain ⟨hcounts, hcommand, hvmsize, hfilesize⟩ := h
  rw [kSignatureCommandSize] at hcommand
  have hle : ∀ {out : List UInt8} {offset value : Nat}, n < offset ∨ offset + 4 ≤ n →
      (writeLE32 out offset value)[n]? = out[n]? := fun h =>
    getElem?_overwrite_outside (by rw [length_leBytes]; exact h)
  have hlong : ∀ {out : List UInt8} {offset value : Nat}, n < offset ∨ offset + 8 ≤ n →
      (writeLE64 out offset value)[n]? = out[n]? := fun h =>
    getElem?_overwrite_outside (by rw [length_leBytes]; exact h)
  rw [planBytes]
  simp only [writeSignatureCommand, hnone]
  rw [hlong hvmsize, hlong hfilesize, hle (by omega), hle (by omega), hle (by omega), hle (by omega), hle (by omega),
    hle (by omega)]

theorem getElem?_resized {bs : List UInt8} {size : Nat} (hlen : bs.length ≤ size) (hn : n < size) :
    (resized bs size)[n]? = if n < bs.length then bs[n]? else some 0 := by
  rw [resized, List.take_of_length_le hlen]
  split
  · rename_i hlt
    rw [List.getElem?_append_left hlt]
  · rename_i hge
    rw [List.getElem?_append_right (Nat.not_lt.1 hge), List.getElem?_replicate_of_lt (by omega)]

/-- The command is the first segment with the name of the link-edit segment. -/
structure FirstLinkedit (bytes : List UInt8) (layout : SliceLayout) (linkedit : SegmentLayout) : Prop where
  command : ∃ command ∈ layout.commands, command.offset = linkedit.commandOffset ∧ command.cmd = kLcSegment64 ∧
    commandName bytes command = linkeditName
  first : ∀ command ∈ layout.commands, command.cmd = kLcSegment64 → commandName bytes command = linkeditName →
    linkedit.commandOffset ≤ command.offset

/-- The content that the parser counts begins behind the new command. -/
structure ContentBehind (bytes : List UInt8) (layout : SliceLayout) (place : Nat) : Prop where
  sections : ∀ command ∈ layout.commands, command.cmd = kLcSegment64 → ∀ s < commandField bytes command 64 4,
    sectionField bytes command s 48 ≠ 0 → isZeroFill (sectionField bytes command s 64) = false →
      place ≤ sectionField bytes command s 48
  segments : ∀ command ∈ layout.commands, command.cmd = kLcSegment64 → commandName bytes command ≠ textName →
    0 < commandField bytes command 48 8 → 0 < commandField bytes command 40 8 → place ≤ commandField bytes command 40 8

/-- The numbers of four bytes are there as they were meant. -/
structure Untruncated (entry : ContainerEntry) (identity : List UInt8) (plan : SlicePlan) : Prop where
  ncmds : leValue (slice plan.bytes 16 4) = entry.slice.ncmds + 1
  sizeofcmds : leValue (slice plan.bytes 20 4) = entry.slice.sizeofcmds + kSignatureCommandSize
  command : leValue (slice plan.bytes entry.slice.headerEnd 4) = kLcCodeSignature ∧
    leValue (slice plan.bytes (entry.slice.headerEnd + 4) 4) = kSignatureCommandSize
  data : leValue (slice plan.bytes (entry.slice.headerEnd + 8) 4) = plan.dataoff ∧
    leValue (slice plan.bytes (entry.slice.headerEnd + 12) 4) = plan.datasize
  directory : beValue (slice plan.codeDirectory 4 4) = plan.codeDirectory.length ∧
    beValue (slice plan.codeDirectory 16 4) = hashOffset identity + kSpecialSlots * csHashSizeSha256 ∧
    beValue (slice plan.codeDirectory 20 4) = kCodeDirectoryFixedSize ∧
    beValue (slice plan.codeDirectory 24 4) = kSpecialSlots ∧
    beValue (slice plan.codeDirectory 28 4) = codeSlots plan.dataoff ∧
    beValue (slice plan.codeDirectory 32 4) = plan.dataoff

/-- What a plan keeps of a program. -/
structure Preserved (file : List UInt8) (entry : ContainerEntry) (identity : List UInt8) (plan : SlicePlan) : Prop where
  size : entry.size ≤ plan.dataoff ∧ plan.bytes.length = plan.dataoff + plan.datasize
  kept : ∃ linkedit, entry.slice.linkedit = some linkedit ∧
    FirstLinkedit (slice file entry.offset entry.size) entry.slice linkedit ∧
    ∀ n < entry.size, Untouched entry.slice linkedit n → plan.bytes[n]? = file[entry.offset + n]?
  content : ContentBehind (slice file entry.offset entry.size) entry.slice (entry.slice.headerEnd + kSignatureCommandSize)
  zeros : ∀ n, entry.size ≤ n → n < plan.dataoff → plan.bytes[n]? = some 0
  untruncated : Untruncated entry identity plan

theorem holds_of_parse (h : parseMachOSlice (view file) entry.offset entry.size scope = .ok entry.slice)
    (hsupport : entry.slice.support = .supported) : ∃ p, Holds file entry p := by
  obtain ⟨hfits, p, hp, haccepted, hlayout⟩ := parseMachOSlice_eq_ok.1 ⟨h, hsupport⟩
  exact ⟨p, hfits, hp, haccepted, scope, hlayout⟩

theorem unsigned_of_codesig (h : Holds file entry p) (hnone : entry.slice.codesig = none) :
    ∀ c ∈ p.commands, c.isSignature = false := by
  rcases accepted_signs_or_unsigned h.accepted with hunsigned | ⟨j, s, hj⟩
  · exact hunsigned
  · rw [h.signed hj] at hnone
    cases hnone

theorem commandAt_end {cs : List Command} {c : Command} {k : Nat} (hk : cs[k]? = some c) :
    commandAt cs k + c.bytes.length ≤ kHeader64Size + (areaOf cs).length := by
  rw [commandAt, areaOf_split hk, List.length_append, List.length_append]
  omega

theorem first_linkedit (h : Holds file entry p) {k : Nat} {c : Command} (hk : Leads linkeditName p.commands k c) :
    FirstLinkedit (slice file entry.offset entry.size) entry.slice (c.segment (commandAt p.commands k)) := by
  obtain ⟨scope, hlayout⟩ := h.layout
  have hname : ∀ {j : Nat} {d : Command}, p.commands[j]? = some d → d.cmd = kLcSegment64 →
      commandName p.bytes (entryAt (commandAt p.commands j, d)) = d.name := by
    intro j d hj hcmd
    have hroom := segment_length (decide_eq_true hcmd) (h.accepted.admitted.sound d (List.mem_of_getElem? hj))
    have hfixed : kSegment64CommandSize = 72 := rfl
    have hslice : slice p.bytes (commandAt p.commands j + 8) 16 = slice d.bytes 8 16 := slice_command hj (by omega)
    exact congrArg (List.takeWhile fun b => b ≠ 0) hslice
  have hcmd : c.cmd = kLcSegment64 := of_decide_eq_true hk.segment
  rw [h.bytes]
  constructor
  · refine ⟨entryAt (commandAt p.commands k, c), ?_, rfl, hcmd, ?_⟩
    · rw [← hlayout, layout_commands]
      exact List.mem_map_of_mem (mem_placed.2 ⟨k, hk.at_, rfl⟩)
    · rw [hname hk.at_ hcmd, hk.named]
  · intro command hin hcommand hnamed
    rw [← hlayout] at hin
    obtain ⟨j, d, hj, rfl⟩ := mem_commands hin
    rw [hname hj hcommand] at hnamed
    rcases Nat.lt_trichotomy j k with hlt | rfl | hgt
    · exact absurd ⟨decide_eq_true hcommand, hnamed⟩ (hk.first j d hlt hj)
    · exact Nat.le_refl _
    · exact (Nat.le_add_right _ _).trans (MachOStrip.commandAt_step hk.at_ hgt)

theorem content_behind (hslice : Consistent (slice file entry.offset entry.size) entry.slice) {place : Nat}
    (hplace : place ≤ entry.slice.firstContent) : ContentBehind (slice file entry.offset entry.size) entry.slice place :=
  ⟨fun command hin hcmd s hs hoffset hfill => hplace.trans (hslice.sectionContent command hin hcmd s hs hoffset hfill),
    fun command hin hcmd hname hfilesize hfileoff =>
      hplace.trans (hslice.segmentContent command hin hcmd hname hfilesize hfileoff)⟩

/-- The numbers of four bytes at the start of a directory. -/
def directoryNumbers (identity : List UInt8) (dataoff : Nat) : List (Nat × Nat) :=
  [(4, cdSize identity dataoff), (16, hashOffset identity + kSpecialSlots * csHashSizeSha256), (20, kCodeDirectoryFixedSize),
    (24, kSpecialSlots), (28, codeSlots dataoff), (32, dataoff)]

theorem directory_numbers (hdirectory : cdSize identity dataoff ≤ kUint32Max) (hdataoff : dataoff < 2 ^ 32)
    (layout : SliceLayout) (out : List UInt8) {offset value : Nat}
    (h : (offset, value) ∈ directoryNumbers identity dataoff) :
    beValue (slice (codeDirectory hash layout identity out dataoff) offset 4) = value := by
  have hoffset : hashOffset identity = 89 + identity.length := by
    rw [hashOffset, kCodeDirectoryFixedSize]
    omega
  have hconstants : kSpecialSlots * csHashSizeSha256 = 64 ∧ kSpecialSlots = 2 ∧ kCodeDirectoryFixedSize = 88 :=
    ⟨rfl, rfl, rfl⟩
  have hsize := cdSize_eq identity dataoff
  rw [kUint32Max] at hdirectory
  simp only [directoryNumbers, List.mem_cons, List.not_mem_nil, or_false, Prod.mk.injEq] at h
  rcases h with ⟨rfl, rfl⟩ | ⟨rfl, rfl⟩ | ⟨rfl, rfl⟩ | ⟨rfl, rfl⟩ | ⟨rfl, rfl⟩ | ⟨rfl, rfl⟩ <;>
    exact beValue_start (by simp only [startFields, List.mem_cons, true_or, or_true]) (by omega)

theorem untruncated_plan (h : Holds file entry p) {k : Nat} {c : Command} (hs : Signable p k c) {q : Program}
    (hq : SignedForm p k c entry.cputype (noSignature datasize) q) (hdirectory : cdSize identity (align16 p.size) ≤ kUint32Max) :
    Untruncated entry identity (planOf hash entry identity q.bytes (align16 p.size) datasize) := by
  obtain ⟨scope, hlayout⟩ := h.layout
  have hlen : (noSignature datasize).length = datasize := List.length_replicate
  have hsmall := hq.small
  have hsigns := hq.signs hs
  have hat : commandAt q.commands p.commands.length = entry.slice.headerEnd := by
    have hsplit := areaOf_split hsigns.at_
    have harea := hq.area hs
    have hafter : q.commands.drop (p.commands.length + 1) = [] := by
      rw [List.drop_eq_nil_iff, hq.commands, List.length_set, List.length_append, List.length_singleton]
    rw [hsplit, hafter, areaOf_nil, List.append_nil, List.length_append, signatureCommand_length] at harea
    rw [commandAt, h.slice_headerEnd, Program.headerEnd]
    omega
  have hfield : ∀ {offset : Nat}, offset + 4 ≤ 16 → leValue (slice q.bytes (entry.slice.headerEnd + offset) 4) =
      (signatureCommand (align16 p.size) datasize).field offset 4 := by
    intro offset hin
    rw [← hat, ← hlen]
    exact congrArg leValue (slice_command hsigns.at_ (by rw [signatureCommand_length]; exact hin))
  rw [hlen] at hsmall
  have hcmd : (signatureCommand (align16 p.size) datasize).field 0 4 = kLcCodeSignature := signatureCommand_cmd
  have hsize : (signatureCommand (align16 p.size) datasize).field 4 4 = kSignatureCommandSize :=
    (signatureCommand (align16 p.size) datasize).recorded.trans signatureCommand_length
  have hdataoff : (signatureCommand (align16 p.size) datasize).field 8 4 = align16 p.size :=
    @signatureCommand_dataoff (align16 p.size) datasize (by omega)
  have hdatasize : (signatureCommand (align16 p.size) datasize).field 12 4 = datasize :=
    @signatureCommand_datasize (align16 p.size) datasize (by omega)
  have hfirst := @hfield 0 (by decide)
  rw [Nat.add_zero, hcmd] at hfirst
  have hsecond := @hfield 4 (by decide)
  rw [hsize] at hsecond
  have hthird := @hfield 8 (by decide)
  rw [hdataoff] at hthird
  have hfourth := @hfield 12 (by decide)
  rw [hdatasize] at hfourth
  have hbound : align16 p.size < 2 ^ 32 := by omega
  have hnumbers : ∀ {offset value : Nat}, (offset, value) ∈ directoryNumbers identity (align16 p.size) →
      beValue (slice (codeDirectory hash entry.slice identity q.bytes (align16 p.size)) offset 4) = value :=
    directory_numbers hdirectory hbound _ _
  refine ⟨?_, ?_, ⟨?_, ?_⟩, ⟨?_, ?_⟩, ?_, ?_, ?_, ?_, ?_, ?_⟩
  · simp only [planOf]
    rw [q.header_eq (by decide), q.counted, hq.commands, List.length_set, List.length_append, List.length_singleton,
      ← hlayout, layout_ncmds]
  · simp only [planOf]
    rw [q.header_eq (by decide), q.measured, hq.area hs, ← hlayout, layout_sizeofcmds]
  · simp only [planOf]
    exact hfirst
  · simp only [planOf]
    exact hsecond
  · simp only [planOf]
    exact hthird
  · simp only [planOf]
    exact hfourth
  · simp only [planOf]
    rw [length_codeDirectory]
    exact @hnumbers 4 _ (by simp only [directoryNumbers, List.mem_cons, true_or])
  · simp only [planOf]
    exact @hnumbers 16 _ (by simp only [directoryNumbers, List.mem_cons, true_or, or_true])
  · simp only [planOf]
    exact @hnumbers 20 _ (by simp only [directoryNumbers, List.mem_cons, true_or, or_true])
  · simp only [planOf]
    exact @hnumbers 24 _ (by simp only [directoryNumbers, List.mem_cons, true_or, or_true])
  · simp only [planOf]
    exact @hnumbers 28 _ (by simp only [directoryNumbers, List.mem_cons, true_or, or_true])
  · simp only [planOf]
    exact @hnumbers 32 _ (by simp only [directoryNumbers, List.mem_cons, true_or, or_true])

theorem signing_overwrites_no_content (hslice : parseMachOSlice (view file) entry.offset entry.size scope = .ok entry.slice)
    (hsupport : entry.slice.support = .supported) (hunsigned : entry.slice.codesig = none)
    (hplan : planSlice hash path universal index file entry identity capacity = .ok plan) :
    Preserved file entry identity plan := by
  obtain ⟨p, h⟩ := holds_of_parse hslice hsupport
  have hnone := unsigned_of_codesig h hunsigned
  obtain ⟨k, c, hs⟩ := Signable.of_plan h hnone hplan
  obtain ⟨q, hq, hqplan⟩ := plan_bare hs hs.bare h hplan
  obtain ⟨kept, linkedit, hkeeps, hlinkedit, hcan, rfl⟩ := planSlice_eq_ok.1 hplan
  obtain ⟨k', c', hk', rfl⟩ := h.linkedit_iff.1 hlinkedit
  obtain ⟨rfl, rfl⟩ := Leads.unique hs.leads hk'
  obtain rfl := (keeps_unsigned h hnone).1 hkeeps
  have hconsistent : Consistent (slice file entry.offset entry.size) entry.slice := by
    obtain ⟨scope', hlayout⟩ := h.layout
    rw [h.bytes, ← hlayout]
    exact consistent_program h.accepted _ _
  have hroom := hcan.room (by rw [hunsigned]; rfl)
  have hfirst := hconsistent.firstContent
  have hend := commandAt_end hs.leads.at_
  have hlong := segment_length hs.leads.segment hs.sound
  have halign := le_align16 p.size
  have hsize := h.size
  have hslicesize := h.slice_size
  have hheaderEnd : entry.slice.headerEnd = kHeader64Size + (areaOf p.commands).length := h.slice_headerEnd
  have hfixed : kSignatureCommandSize = 16 ∧ kSegment64CommandSize = 72 ∧ kHeader64Size = 32 := ⟨rfl, rfl, rfl⟩
  have hlen : (slice file entry.offset p.size).length = p.size := by
    rw [← hsize]
    exact length_slice_of_le h.inside
  rw [SliceLayout.freeHeaderSpace] at hroom
  refine ⟨⟨by rw [hsize]; exact halign, ?_⟩, ⟨_, hlinkedit, first_linkedit h hs.leads, fun n hn huntouched => ?_⟩,
    content_behind hconsistent (by omega), fun n hn hlt => ?_, ?_⟩
  · rw [← hqplan]
    have hqsize := hq.size hs
    rw [noSignature, List.length_replicate] at hqsize
    exact hqsize
  · rw [planOf]
    simp only
    rw [getElem?_planBytes hunsigned huntouched, getElem?_resized (by omega) (by omega), if_pos (by omega), getElem?_slice,
      if_pos (by omega)]
  · have huntouched : Untouched entry.slice (c.segment (commandAt p.commands k)) n := by
      have hplace : (c.segment (commandAt p.commands k)).commandOffset = commandAt p.commands k := rfl
      have hfields : kSegmentVmsizeField = 32 ∧ kSegmentFilesizeField = 48 := ⟨rfl, rfl⟩
      exact ⟨by omega, by omega, by omega, by omega⟩
    rw [planOf] at hlt ⊢
    simp only at hlt ⊢
    rw [getElem?_planBytes hunsigned huntouched, getElem?_resized (by omega) (by omega), if_neg (by omega)]
  · rw [← hqplan]
    exact untruncated_plan h hs hq hcan.directoryFits

/-- A hash that says nothing. -/
def zeroHash (_ : List UInt8) : Digest := ⟨List.replicate csHashSizeSha256 0, List.length_replicate⟩

/-- A program with a link-edit segment of five bytes, and with room for one command. -/
def smallProgram : List UInt8 :=
  beBytes 4 kBytesThin64Little ++ leBytes 4 7 ++ leBytes 4 3 ++ leBytes 4 mhExecute ++ leBytes 4 1 ++ leBytes 4 72 ++
    leBytes 8 0 ++ leBytes 4 kLcSegment64 ++ leBytes 4 72 ++ (linkeditName ++ List.replicate 6 0) ++ leBytes 8 0 ++
    leBytes 8 4096 ++ leBytes 8 120 ++ leBytes 8 5 ++ leBytes 16 0 ++ leBytes 16 0 ++ [1, 2, 3, 4, 5]

def smallLinkedit : SegmentLayout := ⟨32, linkeditName, 0, 4096, 120, 5⟩

def smallLayout : SliceLayout where
  size := 125
  cputype := 7
  cpusubtype := 3
  filetype := mhExecute
  ncmds := 1
  sizeofcmds := 72
  headerEnd := 104
  commands := [⟨32, kLcSegment64, 72⟩]
  segments := [smallLinkedit]
  linkedit := some smallLinkedit
  firstContent := 120

def smallThin : ContainerEntry := { cputype := 7, cpusubtype := 3, size := 125, slice := smallLayout }

theorem smallProgram_preserved : ∃ plan, planSlice zeroHash "" false 0 smallProgram smallThin [] 16 = .ok plan ∧
    Preserved smallProgram smallThin [] plan := by
  have hok : (planSlice zeroHash "" false 0 smallProgram smallThin [] 16).isOk = true := by decide +kernel
  have hparse : parseMachOSlice (view smallProgram) 0 125 "the file" = .ok smallLayout := by decide +kernel
  obtain ⟨plan, hplan⟩ := exists_of_isOk hok
  exact ⟨plan, hplan, signing_overwrites_no_content hparse rfl rfl hplan⟩

end TheSeed.MachOPreserved
