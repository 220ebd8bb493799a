import TheSeed.MachOCommands

namespace TheSeed.MachOProgram

open Bytes Checked BoundedBytes MachOLayout MachOCommands

/-! A supported program taken apart: the header, the load commands and all that is behind them. -/

/-! What the walk records -/

section Walk

variable {c : Command} {cs : List Command} {offset i size : Nat} {scope : String}

/-- The commands with the offsets at which they stand. -/
def placed : Nat → List Command → List (Nat × Command)
  | _, [] => []
  | offset, c :: cs => (offset, c) :: placed (offset + c.bytes.length) cs

def segmentAt (placed : Nat × Command) : Option SegmentLayout :=
  if placed.2.isSegment then some (placed.2.segment placed.1) else none

def signatureAt (placed : Nat × Command) : Option CodeSignatureLayout :=
  if placed.2.isSignature then some (placed.2.sig placed.1) else none

/-- The segments of a program with a name. -/
def named (name : List UInt8) (placed : Nat × Command) : Option SegmentLayout :=
  (segmentAt placed).filter fun segment => segment.name = name

def contentsAt (placed : Nat × Command) : List Nat := if placed.2.isSegment then placed.2.contents else []

def entryAt (placed : Nat × Command) : LoadCommandEntry := ⟨placed.1, placed.2.cmd, placed.2.bytes.length⟩

/-- What the walk leaves as it was. -/
def fixed (layout : SliceLayout) : SliceLayout :=
  { layout with
    commands := []
    segments := []
    text := none
    linkedit := none
    firstContent := 0
    codesig := none
    dylibs := [] }

theorem signature_not_segment (h : c.isSignature = true) : c.isSegment = false := by
  rw [Command.isSignature, decide_eq_true_eq] at h
  rw [Command.isSegment, h]
  rfl

/-- The three kinds of commands that the walk tells apart. -/
theorem info_cases : (c.isSegment = true ∧ c.isSignature = false ∧
      ∃ problem, c.info offset i size scope = .segment (c.segment offset) c.contents problem) ∨
    (c.isSegment = false ∧ c.isSignature = true ∧ c.info offset i size scope = .signature (c.sig offset)) ∨
    (c.isSegment = false ∧ c.isSignature = false ∧
      (c.info offset i size scope = .reference c.library ∨ c.info offset i size scope = .other)) := by
  rw [Command.isSegment, Command.isSignature, Command.info]
  by_cases hseg : c.cmd = kLcSegment64
  · have hnot : ¬c.cmd = kLcCodeSignature := by rw [hseg]; decide
    rw [if_pos hseg]
    exact .inl ⟨decide_eq_true hseg, decide_eq_false hnot, _, rfl⟩
  · rw [if_neg hseg]
    by_cases hsig : c.cmd = kLcCodeSignature
    · rw [if_pos hsig]
      exact .inr (.inl ⟨decide_eq_false hseg, decide_eq_true hsig, rfl⟩)
    · rw [if_neg hsig]
      refine .inr (.inr ⟨decide_eq_false hseg, decide_eq_false hsig, ?_⟩)
      split
      · exact .inl rfl
      · exact .inr rfl

/-- What recording a command does to each part of the layout. -/
structure Recorded (layout next : SliceLayout) (entry : LoadCommandEntry) (place : Nat × Command) : Prop where
  fixed : fixed next = fixed layout
  commands : next.commands = layout.commands ++ [entry]
  segments : next.segments = layout.segments ++ (segmentAt place).toList
  text : next.text = layout.text.or (named textName place)
  linkedit : next.linkedit = layout.linkedit.or (named linkeditName place)
  codesig : next.codesig = (signatureAt place).or layout.codesig
  firstContent : next.firstContent = (contentsAt place).foldl min layout.firstContent

theorem textName_ne_linkeditName : textName ≠ linkeditName := by decide

theorem record_recorded (layout : SliceLayout) (entry : LoadCommandEntry) (c : Command) (offset i size : Nat)
    (scope : String) :
    Recorded layout (layout.record entry (c.info offset i size scope)) entry (offset, c) := by
  rcases @info_cases c offset i size scope with ⟨hseg, hsig, problem, h⟩ | ⟨hseg, hsig, h⟩ | ⟨hseg, hsig, h | h⟩
  · rw [h, SliceLayout.record]
    have hat : segmentAt (offset, c) = some (c.segment offset) := if_pos hseg
    have hnone : signatureAt (offset, c) = none := if_neg (by simp [hsig])
    have hcontents : contentsAt (offset, c) = c.contents := if_pos hseg
    have hnamed : ∀ name, named name (offset, c) = if c.name = name then some (c.segment offset) else none := by
      intro name
      rw [named, hat, Option.filter_some]
      by_cases hn : c.name = name <;> simp [Command.segment, hn]
    have hname : (c.segment offset).name = c.name := rfl
    have hne := textName_ne_linkeditName
    simp only [hname]
    split_ifs with htext hlink
    · refine ⟨rfl, rfl, ?_, ?_, ?_, ?_, ?_⟩ <;> simp [hat, hnone, hcontents, hnamed, htext.1, htext.2, hne]
    · have hnottext : ¬c.name = textName := by rw [hlink.1]; exact hne.symm
      refine ⟨rfl, rfl, ?_, ?_, ?_, ?_, ?_⟩ <;> simp [hat, hnone, hcontents, hnamed, hlink.1, hlink.2, hne.symm]
    · refine ⟨rfl, rfl, ?_, ?_, ?_, ?_, ?_⟩
      · simp [hat]
      · rw [hnamed]
        by_cases hn : c.name = textName
        · cases ht : layout.text with
          | none => exact absurd ⟨hn, ht⟩ htext
          | some _ => rfl
        · rw [if_neg hn, Option.or_none]
      · rw [hnamed]
        by_cases hn : c.name = linkeditName
        · cases ht : layout.linkedit with
          | none => exact absurd ⟨hn, ht⟩ hlink
          | some _ => rfl
        · rw [if_neg hn, Option.or_none]
      · simp [hnone]
      · simp [hcontents]
  · have hat : segmentAt (offset, c) = none := if_neg (by simp [hseg])
    have hsome : signatureAt (offset, c) = some (c.sig offset) := if_pos hsig
    have hcontents : contentsAt (offset, c) = [] := if_neg (by simp [hseg])
    rw [h, SliceLayout.record]
    refine ⟨rfl, rfl, ?_, ?_, ?_, ?_, ?_⟩ <;> simp [hat, hsome, hcontents, named]
  all_goals
    have hat : segmentAt (offset, c) = none := if_neg (by simp [hseg])
    have hnone : signatureAt (offset, c) = none := if_neg (by simp [hsig])
    have hcontents : contentsAt (offset, c) = [] := if_neg (by simp [hseg])
    rw [h, SliceLayout.record]
  · simp only
    split_ifs
    · refine ⟨rfl, rfl, ?_, ?_, ?_, ?_, ?_⟩ <;> simp [hat, hnone, hcontents, named]
    · refine ⟨rfl, rfl, ?_, ?_, ?_, ?_, ?_⟩ <;> simp [hat, hnone, hcontents, named]
  · refine ⟨rfl, rfl, ?_, ?_, ?_, ?_, ?_⟩ <;> simp [hat, hnone, hcontents, named]

/-- What recording commands one after the other does to each part of the layout. -/
structure RecordedAll (layout next : SliceLayout) (places : List (Nat × Command)) : Prop where
  fixed : fixed next = fixed layout
  commands : next.commands = layout.commands ++ places.map entryAt
  segments : next.segments = layout.segments ++ places.filterMap segmentAt
  text : next.text = layout.text.or (places.findSome? (named textName))
  linkedit : next.linkedit = layout.linkedit.or (places.findSome? (named linkeditName))
  codesig : next.codesig = places.foldl (fun sig place => (signatureAt place).or sig) layout.codesig
  firstContent : next.firstContent = (places.flatMap contentsAt).foldl min layout.firstContent

theorem recordAll_recorded (i : Nat) (walk : Walk) (cs : List Command) :
    RecordedAll walk.layout (recordAll size scope i walk cs).layout (placed (kHeader64Size + walk.cursor) cs) := by
  induction cs generalizing i walk with
  | nil => exact ⟨rfl, by simp [recordAll, placed], by simp [recordAll, placed], by simp [recordAll, placed],
      by simp [recordAll, placed], rfl, rfl⟩
  | cons c cs ih =>
      have hc := record_recorded walk.layout ⟨kHeader64Size + walk.cursor, c.cmd, c.bytes.length⟩ c
        (kHeader64Size + walk.cursor) i size scope
      have hcs := ih (i + 1) {
        cursor := walk.cursor + c.bytes.length
        layout := walk.layout.record ⟨kHeader64Size + walk.cursor, c.cmd, c.bytes.length⟩
          (c.info (kHeader64Size + walk.cursor) i size scope)
        problem := walk.problem <|> (c.info (kHeader64Size + walk.cursor) i size scope).problem }
      rw [← Nat.add_assoc] at hcs
      have hfind : ∀ name, (placed (kHeader64Size + walk.cursor) (c :: cs)).findSome? (named name) =
          (named name (kHeader64Size + walk.cursor, c)).or
            ((placed (kHeader64Size + walk.cursor + c.bytes.length) cs).findSome? (named name)) := by
        intro name
        rw [placed, List.findSome?_cons]
        cases named name (kHeader64Size + walk.cursor, c) <;> rfl
      rw [recordAll]
      refine ⟨hcs.fixed.trans hc.fixed, ?_, ?_, ?_, ?_, ?_, ?_⟩
      · rw [hcs.commands, hc.commands, placed, List.map_cons, List.append_assoc]
        rfl
      · rw [hcs.segments, hc.segments, placed, List.filterMap_cons, List.append_assoc]
        cases segmentAt (kHeader64Size + walk.cursor, c) <;> rfl
      · rw [hcs.text, hc.text, hfind, Option.or_assoc]
      · rw [hcs.linkedit, hc.linkedit, hfind, Option.or_assoc]
      · rw [hcs.codesig, hc.codesig]
        rfl
      · rw [hcs.firstContent, hc.firstContent, placed, List.flatMap_cons, List.foldl_append]

theorem recordAll_cursor (i : Nat) (walk : Walk) (cs : List Command) :
    (recordAll size scope i walk cs).cursor = walk.cursor + (areaOf cs).length := by
  induction cs generalizing i walk with
  | nil => rfl
  | cons c cs ih => rw [recordAll, ih, areaOf_cons, List.length_append, Nat.add_assoc]

/-- Every segment has its data inside the program. -/
def Fits (size : Nat) (cs : List Command) : Prop :=
  ∀ c ∈ cs, c.isSegment = true → c.fileoff + c.filesize ≤ size

theorem recordAll_problem (i : Nat) (walk : Walk) (cs : List Command) :
    (recordAll size scope i walk cs).problem = none ↔ walk.problem = none ∧ Fits size cs := by
  induction cs generalizing i walk with
  | nil => simp [recordAll, Fits]
  | cons c cs ih =>
      have hc : (c.info (kHeader64Size + walk.cursor) i size scope).problem = none ↔
          (c.isSegment = true → c.fileoff + c.filesize ≤ size) := by
        rw [Command.isSegment, Command.info]
        by_cases hseg : c.cmd = kLcSegment64
        · rw [if_pos hseg, CommandInfo.problem]
          by_cases hfits : rangeFits c.fileoff c.filesize size = true
          · simp [hfits, rangeFits_iff.1 hfits]
          · have hpast := mt rangeFits_iff.2 hfits
            simp only [hfits, hseg, decide_true, true_imp_iff]
            simpa using hpast
        · rw [if_neg hseg]
          split_ifs <;> simp [CommandInfo.problem, hseg]
      rw [recordAll, ih]
      simp only
      have hfits : Fits size (c :: cs) ↔ (c.isSegment = true → c.fileoff + c.filesize ≤ size) ∧ Fits size cs :=
        List.forall_mem_cons
      rw [hfits, ← hc, ← and_assoc]
      cases walk.problem <;> simp

end Walk

/-! Programs -/

/-- A supported program. -/
structure Program where
  header : List UInt8
  commands : List Command
  body : List UInt8
  headerLength : header.length = kHeader64Size
  magic : beValue (slice header 0 4) = kBytesThin64Little
  counted : leValue (slice header 16 4) = commands.length
  measured : leValue (slice header 20 4) = (areaOf commands).length

namespace Program

def bytes (p : Program) : List UInt8 := p.header ++ areaOf p.commands ++ p.body

def size (p : Program) : Nat := p.bytes.length

def headerEnd (p : Program) : Nat := kHeader64Size + (areaOf p.commands).length

/-- The layout before the load commands are read. -/
def start (p : Program) (base : Nat) : SliceLayout where
  base := base
  size := p.size
  cputype := leValue (slice p.header 4 4)
  cpusubtype := leValue (slice p.header 8 4)
  filetype := leValue (slice p.header 12 4)
  ncmds := p.commands.length
  sizeofcmds := (areaOf p.commands).length
  headerEnd := p.headerEnd
  firstContent := p.size

def layout (p : Program) (base : Nat) (scope : String) : SliceLayout :=
  (recordAll p.size scope 0 { layout := p.start base } p.commands).layout

/-- What the parser takes. -/
structure Accepted (p : Program) : Prop where
  admitted : Admitted p.size p.headerEnd false p.commands
  fits : Fits p.size p.commands

theorem header_eq (p : Program) {offset width : Nat} (h : offset + width ≤ kHeader64Size) :
    slice p.bytes offset width = slice p.header offset width := by
  rw [bytes, List.append_assoc, slice_append_left (by rw [p.headerLength]; exact h)]

theorem area_eq (p : Program) : slice p.bytes kHeader64Size (areaOf p.commands).length = areaOf p.commands := by
  rw [bytes, List.append_assoc, slice_append_right (by rw [p.headerLength]), p.headerLength, Nat.sub_self,
    slice_append_left (by omega), slice_all]

theorem size_eq (p : Program) : p.size = p.headerEnd + p.body.length := by
  rw [size, bytes, List.length_append, List.length_append, p.headerLength, headerEnd]

theorem layout_recorded (p : Program) (base : Nat) (scope : String) :
    RecordedAll (p.start base) (p.layout base scope) (placed kHeader64Size p.commands) :=
  recordAll_recorded 0 { layout := p.start base } p.commands

end Program

/-! The parser takes programs apart -/

theorem kindOfMagic_supported {magic : Nat} : supportFor (kindOfMagic magic) = .supported ∧ isThin (kindOfMagic magic) = true ↔
    magic = kBytesThin64Little := by
  rw [kindOfMagic]
  split_ifs with h <;> simp [supportFor, isThin, h]

theorem sliceView_eq_ok {file view : ByteSpan} {base size : Nat} {scope : String}
    (h : sliceView file base size scope = .ok view) :
    base + size ≤ file.bytes.length ∧ view.bytes = slice file.bytes base size := by
  rw [sliceView] at h
  split at h
  · rename_i hwhole
    cases h
    obtain ⟨rfl, rfl⟩ := hwhole
    rw [ByteSpan.size, slice_all, Nat.zero_add]
    exact ⟨Nat.le_refl _, rfl⟩
  · obtain ⟨hfits, rfl⟩ := ByteSpan.sub_eq_ok.1 h
    exact ⟨hfits, rfl⟩

theorem exists_sliceView {file : ByteSpan} {base size : Nat} (scope : String) (h : base + size ≤ file.bytes.length) :
    ∃ view, sliceView file base size scope = .ok view ∧ view.bytes = slice file.bytes base size := by
  rw [sliceView]
  by_cases hwhole : base = 0 ∧ size = file.size
  · rw [if_pos hwhole]
    refine ⟨file, rfl, ?_⟩
    obtain ⟨rfl, rfl⟩ := hwhole
    exact (slice_all _).symm
  · rw [if_neg hwhole]
    exact ⟨_, ByteSpan.sub_eq_ok.2 ⟨h, rfl⟩, rfl⟩

theorem layout_support {p : Program} {base : Nat} {scope : String} : (p.layout base scope).support = .supported := by
  have h := congrArg SliceLayout.support (p.layout_recorded base scope).fixed
  exact h

/-- The layout that the parser has after the first twelve bytes. -/
def beginning (view : ByteSpan) (base : Nat) : SliceLayout where
  base := base
  size := view.bytes.length
  cputype := leValue (slice view.bytes 4 4)
  cpusubtype := leValue (slice view.bytes 8 4)
  firstContent := view.bytes.length

/-- A program is taken when its commands are. -/
theorem parseSupported_program {view : ByteSpan} {base : Nat} {scope : String} {layout : SliceLayout} {p : Program}
    (hview : view.bytes = p.bytes) : parseSupported view (beginning view base) scope = .ok layout ↔
      p.Accepted ∧ p.layout base scope = layout := by
  have hsize : view.bytes.length = p.size := congrArg List.length hview
  have hend := p.size_eq
  have hleast : kHeader64Size ≤ p.headerEnd := Nat.le_add_right _ _
  have hfixed : kHeader64Size = 32 := rfl
  have hfield : ∀ {offset width : Nat} {what : String}, offset + width ≤ kHeader64Size →
      view.read width offset .little what = .ok (leValue (slice p.header offset width)) := by
    intro offset width what h
    rw [ByteSpan.read_eq_ok, hview, p.header_eq h]
    exact ⟨by rw [← hview]; omega, rfl⟩
  have hsub : view.sub 0 kHeader64Size "Mach-O header" =
      .ok ⟨slice view.bytes 0 kHeader64Size, view.format, "Mach-O header"⟩ := ByteSpan.sub_eq_ok.2 ⟨by omega, rfl⟩
  have harea : view.sub kHeader64Size (areaOf p.commands).length "load commands" =
      .ok ⟨areaOf p.commands, view.format, "load commands"⟩ := by
    rw [ByteSpan.sub_eq_ok, hview, p.area_eq]
    exact ⟨by rw [← hview, hsize, hend, Program.headerEnd]; omega, rfl⟩
  have hstart : { beginning view base with
      filetype := leValue (slice p.header 12 4)
      ncmds := p.commands.length
      sizeofcmds := (areaOf p.commands).length
      headerEnd := kHeader64Size + (areaOf p.commands).length } = p.start base := by
    rw [beginning, hsize, hview, p.header_eq (by decide), p.header_eq (by decide)]
    rfl
  rw [parseSupported, hsub, ok_bind, hfield (by decide), ok_bind, hfield (by decide), ok_bind, hfield (by decide),
    ok_bind, p.counted, p.measured, harea, ok_bind, hstart]
  have hwalk : ∀ {walk : Walk}, parseCommands ⟨areaOf p.commands, view.format, "load commands"⟩
      (beginning view base).size (kHeader64Size + (areaOf p.commands).length) scope p.commands.length 0
        { layout := p.start base } = .ok walk ∧ walk.cursor = (areaOf p.commands).length ↔
      Admitted p.size p.headerEnd false p.commands ∧
        recordAll p.size scope 0 { layout := p.start base } p.commands = walk := by
    intro walk
    rw [parseCommands_eq_ok (Nat.zero_le _), show (beginning view base).size = p.size from hsize]
    constructor
    · rintro ⟨⟨cs, hlen, -, hbytes, hadmitted, rfl⟩, hcursor⟩
      rw [recordAll_cursor, Nat.zero_add] at hcursor
      simp only [hcursor, slice_all] at hbytes
      obtain rfl := areaOf_injective hbytes
      exact ⟨hadmitted, rfl⟩
    · rintro ⟨hadmitted, rfl⟩
      refine ⟨⟨p.commands, rfl, by simp, slice_all _, hadmitted, rfl⟩, ?_⟩
      rw [recordAll_cursor, Nat.zero_add]
  constructor
  · intro h
    obtain ⟨walk, hparse, h⟩ := bind_eq_ok.1 h
    obtain ⟨⟨⟩, hcursor, h⟩ := bind_eq_ok.1 h
    obtain ⟨hadmitted, rfl⟩ := hwalk.1 ⟨hparse, not_not.1 (rejectIf_eq_ok.1 hcursor)⟩
    cases hproblem : (recordAll p.size scope 0 { layout := p.start base } p.commands).problem with
    | some problem =>
        rw [hproblem] at h
        cases h
    | none =>
        rw [hproblem] at h
        exact ⟨⟨hadmitted, ((recordAll_problem _ _ _).1 hproblem).2⟩, Except.ok.inj h⟩
  · rintro ⟨⟨hadmitted, hfits⟩, rfl⟩
    obtain ⟨hparse, hcursor⟩ := hwalk.2 ⟨hadmitted, rfl⟩
    have hproblem : (recordAll p.size scope 0 { layout := p.start base } p.commands).problem = none :=
      (recordAll_problem _ _ _).2 ⟨rfl, hfits⟩
    refine bind_eq_ok.2 ⟨_, hparse, bind_eq_ok.2 ⟨(), rejectIf_of_not (not_not.2 hcursor) _ _, ?_⟩⟩
    rw [hproblem]
    rfl

/-- What is taken is a program. -/
theorem program_of_parseSupported {view : ByteSpan} {base : Nat} {scope : String} {layout : SliceLayout}
    (hmagic : beValue (slice view.bytes 0 4) = kBytesThin64Little)
    (h : parseSupported view (beginning view base) scope = .ok layout) : ∃ p : Program, view.bytes = p.bytes := by
  obtain ⟨_, hleast, h⟩ := bind_eq_ok.1 h
  obtain ⟨filetype, -, h⟩ := bind_eq_ok.1 h
  obtain ⟨ncmds, hncmds, h⟩ := bind_eq_ok.1 h
  obtain ⟨sizeofcmds, hsizeofcmds, h⟩ := bind_eq_ok.1 h
  obtain ⟨area, harea, h⟩ := bind_eq_ok.1 h
  obtain ⟨walk, hwalk, h⟩ := bind_eq_ok.1 h
  obtain ⟨⟨⟩, hcursor, -⟩ := bind_eq_ok.1 h
  have hleast := (ByteSpan.sub_eq_ok.1 hleast).1
  obtain ⟨-, hncmds⟩ := ByteSpan.read_eq_ok.1 hncmds
  obtain ⟨-, hsizeofcmds⟩ := ByteSpan.read_eq_ok.1 hsizeofcmds
  obtain ⟨hfits, rfl⟩ := ByteSpan.sub_eq_ok.1 harea
  obtain ⟨cs, hlen, hroom, hbytes, -, rfl⟩ := (parseCommands_eq_ok (Nat.zero_le _)).1 hwalk
  rw [rejectIf_eq_ok, not_not, recordAll_cursor, Nat.zero_add] at hcursor
  rw [slice_slice (by simp only at hcursor ⊢; omega)] at hbytes
  have hheader : ∀ {offset width : Nat}, offset + width ≤ kHeader64Size →
      slice (view.bytes.take kHeader64Size) offset width = slice view.bytes offset width := fun h => slice_take h
  refine ⟨⟨view.bytes.take kHeader64Size, cs, view.bytes.drop (kHeader64Size + sizeofcmds), ?_, ?_, ?_, ?_⟩, ?_⟩
  · rw [List.length_take]
    omega
  · rw [hheader (by decide)]
    exact hmagic
  · rw [hheader (by decide), hlen]
    exact hncmds
  · rw [hheader (by decide), hcursor]
    exact hsizeofcmds
  · rw [Program.bytes]
    simp only
    have hjoin := slice_append_slice view.bytes 0 kHeader64Size sizeofcmds
    rw [Nat.zero_add] at hjoin
    rw [← hbytes, hcursor, Nat.add_zero, ← slice_zero, hjoin, slice_zero, List.take_append_drop]

/-- The parser takes what is a program with commands that it admits, and its layout is that of the program. -/
theorem parseMachOSlice_eq_ok {file : ByteSpan} {base size : Nat} {scope : String} {layout : SliceLayout} :
    parseMachOSlice file base size scope = .ok layout ∧ layout.support = .supported ↔
      base + size ≤ file.bytes.length ∧ ∃ p : Program, slice file.bytes base size = p.bytes ∧ p.Accepted ∧
        p.layout base scope = layout := by
  constructor
  · rintro ⟨h, hsupport⟩
    obtain ⟨view, hview, h⟩ := bind_eq_ok.1 h
    obtain ⟨hfits, hbytes⟩ := sliceView_eq_ok hview
    obtain ⟨⟨⟩, hthin, h⟩ := bind_eq_ok.1 h
    obtain ⟨_, hleast, h⟩ := bind_eq_ok.1 h
    obtain ⟨cputype, hcputype, h⟩ := bind_eq_ok.1 h
    obtain ⟨cpusubtype, hcpusubtype, h⟩ := bind_eq_ok.1 h
    have hleast := (ByteSpan.sub_eq_ok.1 hleast).1
    have hsize : view.bytes.length = size := by rw [hbytes, length_slice_of_le hfits]
    have hclass : classifyMachOMagic view = kindOfMagic (beValue (slice view.bytes 0 4)) :=
      if_neg (by rw [ByteSpan.size]; omega)
    rw [hclass] at hthin hcputype hcpusubtype h
    rw [rejectIf_eq_ok, Bool.not_eq_false] at hthin
    simp only at h
    split at h
    · rename_i hkind
      have hmagic := kindOfMagic_supported.1 ⟨hkind, hthin⟩
      rw [hmagic] at hcputype hcpusubtype h
      obtain ⟨-, rfl⟩ := ByteSpan.read_eq_ok.1 hcputype
      obtain ⟨-, rfl⟩ := ByteSpan.read_eq_ok.1 hcpusubtype
      have hparse : parseSupported view (beginning view base) scope = .ok layout := by
        rw [← h, beginning, hsize]
        rfl
      obtain ⟨p, hp⟩ := program_of_parseSupported hmagic hparse
      exact ⟨hfits, p, hbytes ▸ hp, (parseSupported_program hp).1 hparse⟩
    · rename_i hnot
      cases h
      exact absurd hsupport hnot
  · rintro ⟨hfits, p, hp, haccepted, rfl⟩
    obtain ⟨view, hview, hbytes⟩ := exists_sliceView scope hfits
    have hsize : view.bytes.length = size := by rw [hbytes, length_slice_of_le hfits]
    have hleast : 32 ≤ view.bytes.length := by
      have hend := p.size_eq
      rw [Program.size, ← hp, ← hbytes, Program.headerEnd, kHeader64Size] at hend
      omega
    have hmagic : beValue (slice view.bytes 0 4) = kBytesThin64Little := by
      rw [hbytes, hp, p.header_eq (by decide)]
      exact p.magic
    have hkind : classifyMachOMagic view = .thin64Little := by
      rw [classifyMachOMagic, if_neg (by rw [ByteSpan.size]; omega), hmagic]
      rfl
    refine ⟨?_, layout_support⟩
    rw [parseMachOSlice, hview, ok_bind]
    simp only [hkind]
    rw [rejectIf_of_not (by decide), ok_bind, ByteSpan.sub_eq_ok.2 ⟨by omega, rfl⟩, ok_bind,
      ByteSpan.read_eq_ok.2 ⟨by omega, rfl⟩, ok_bind, ByteSpan.read_eq_ok.2 ⟨by omega, rfl⟩, ok_bind]
    have hparse : parseSupported view (beginning view base) scope = .ok (p.layout base scope) :=
      (parseSupported_program (hbytes.trans hp)).2 ⟨haccepted, rfl⟩
    rw [beginning, hsize] at hparse
    exact hparse

end TheSeed.MachOProgram
