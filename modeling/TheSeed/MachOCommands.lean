import TheSeed.MachOLayout

namespace TheSeed.MachOCommands

open Bytes Checked BoundedBytes MachOLayout

/-! The load commands of a program on their own: what each of them says, and when the parser takes them. -/

/-- A load command as it stands in a program, with its own length in it. -/
structure Command where
  bytes : List UInt8
  least : kLoadCommandHeaderSize ≤ bytes.length
  aligned : bytes.length % 4 = 0
  recorded : leValue (slice bytes 4 4) = bytes.length

namespace Command

/-- The number in a field. -/
def field (c : Command) (offset width : Nat) : Nat := leValue (slice c.bytes offset width)

def cmd (c : Command) : Nat := c.field 0 4
def name (c : Command) : List UInt8 := (slice c.bytes 8 16).takeWhile fun b => b ≠ 0
def vmaddr (c : Command) : Nat := c.field 24 8
def vmsize (c : Command) : Nat := c.field 32 8
def fileoff (c : Command) : Nat := c.field 40 8
def filesize (c : Command) : Nat := c.field 48 8
def nsects (c : Command) : Nat := c.field 64 4
def dataoff (c : Command) : Nat := c.field 8 4
def datasize (c : Command) : Nat := c.field 12 4
def nameOffset (c : Command) : Nat := c.field 8 4

def isSegment (c : Command) : Bool := c.cmd = kLcSegment64
def isSignature (c : Command) : Bool := c.cmd = kLcCodeSignature

/-- The file offsets that the sections count as content, from the section `s` on. -/
def sections (c : Command) : Nat → Nat → List Nat
  | 0, _ => []
  | remaining + 1, s =>
      let sectionOffset := c.field (kSegment64CommandSize + s * kSection64Size + 48) 4
      let sectionFlags := c.field (kSegment64CommandSize + s * kSection64Size + 64) 4
      let rest := c.sections remaining (s + 1)
      if sectionOffset ≠ 0 ∧ isZeroFill sectionFlags = false then sectionOffset :: rest else rest

def contents (c : Command) : List Nat :=
  if c.name ≠ textName ∧ 0 < c.filesize ∧ 0 < c.fileoff then c.fileoff :: c.sections c.nsects 0
  else c.sections c.nsects 0

def library (c : Command) : List UInt8 :=
  (slice c.bytes c.nameOffset (c.bytes.length - c.nameOffset)).takeWhile fun b => b != 0

def segment (c : Command) (offset : Nat) : SegmentLayout := ⟨offset, c.name, c.vmaddr, c.vmsize, c.fileoff, c.filesize⟩

def sig (c : Command) (offset : Nat) : CodeSignatureLayout := ⟨offset, c.dataoff, c.datasize⟩

/-- What the parser makes of the command at an offset. -/
def info (c : Command) (offset i size : Nat) (scope : String) : CommandInfo :=
  if c.cmd = kLcSegment64 then
    .segment (c.segment offset) c.contents
      (if rangeFits c.fileoff c.filesize size then none
      else some ("LC_SEGMENT_64 command " ++ toString i ++ " (" ++ shownName c.name ++
        ") file range extends past the end of " ++ scope))
  else if c.cmd = kLcCodeSignature then .signature (c.sig offset)
  else if isReferenceCommand c.cmd then .reference c.library
  else .other

/-- What has to hold of a command wherever it stands. -/
def Sound (c : Command) : Prop :=
  if c.cmd = kLcSegment64 then kSegment64CommandSize + c.nsects * kSection64Size ≤ c.bytes.length
  else if c.cmd = kLcCodeSignature then kCodeSignatureCommandSize ≤ c.bytes.length
  else if isReferenceCommand c.cmd then
    kDylibCommandMinSize ≤ c.bytes.length ∧ c.nameOffset < c.bytes.length ∧
      0 ∈ slice c.bytes c.nameOffset (c.bytes.length - c.nameOffset)
  else True

/-- What has to hold of a signature command in a program of this size. -/
structure Points (c : Command) (size headerEnd : Nat) : Prop where
  inside : c.dataoff + c.datasize ≤ size
  behind : c.datasize ≠ 0 → headerEnd ≤ c.dataoff

end Command

variable {command area : ByteSpan} {c : Command} {cs : List Command} {offset i size headerEnd : Nat} {scope : String}
  {signed : Bool} {info : CommandInfo} {walk walk' : Walk}

/-! One command -/

theorem read_field (hb : command.bytes = c.bytes) {width offset : Nat} {what : String}
    (h : offset + width ≤ c.bytes.length) : command.read width offset .little what = .ok (c.field offset width) := by
  rw [ByteSpan.read_eq_ok, hb]
  exact ⟨h, rfl⟩

theorem sectionContents_eq (hb : command.bytes = c.bytes) {remaining s : Nat}
    (h : kSegment64CommandSize + (s + remaining) * kSection64Size ≤ c.bytes.length) :
    sectionContents command remaining s = .ok (c.sections remaining s) := by
  induction remaining generalizing s with
  | zero => rfl
  | succ remaining ih =>
      have hroom : kSegment64CommandSize + s * kSection64Size + 80 ≤ c.bytes.length := by
        have hle : (s + 1) * kSection64Size ≤ (s + (remaining + 1)) * kSection64Size :=
          Nat.mul_le_mul_right _ (by omega)
        rw [Nat.succ_mul] at hle
        simp only [kSegment64CommandSize, kSection64Size] at *
        omega
      rw [sectionContents, read_field hb (by omega), ok_bind, read_field hb (by omega), ok_bind,
        ih (by rw [Nat.add_right_comm, Nat.add_assoc]; exact h), ok_bind, Command.sections]
      rfl

theorem readSegment_eq_ok (hb : command.bytes = c.bytes) (hcmd : c.cmd = kLcSegment64) :
    readSegment command offset i size scope = .ok info ↔ c.Sound ∧ c.info offset i size scope = info := by
  have hsize : command.size = c.bytes.length := congrArg List.length hb
  rw [readSegment, Command.Sound, if_pos hcmd, Command.info, if_pos hcmd]
  simp only [hsize]
  by_cases hroom : kSegment64CommandSize + c.nsects * kSection64Size ≤ c.bytes.length
  · have hleast : kSegment64CommandSize ≤ c.bytes.length := (Nat.le_add_right _ _).trans hroom
    have hfixed : 72 ≤ c.bytes.length := hleast
    rw [rejectIf_of_not (Nat.not_lt.2 hleast), ok_bind, read_field hb (by omega), ok_bind, read_field hb (by omega),
      ok_bind, read_field hb (by omega), ok_bind, read_field hb (by omega), ok_bind, read_field hb (by omega), ok_bind]
    have hname : segmentName command = c.name := by rw [segmentName, hb, Command.name]
    have hsections : sectionContents command c.nsects 0 = .ok (c.sections c.nsects 0) :=
      sectionContents_eq hb (by rw [Nat.zero_add]; exact hroom)
    rw [show c.field 64 4 = c.nsects from rfl, rejectIf_of_not (Nat.not_lt.2 hroom), ok_bind, hsections, ok_bind, hname]
    simp only [pure_eq_ok, Except.ok.injEq, hroom, true_and]
    rfl
  · constructor
    · intro h
      simp only [bind_eq_ok, rejectIf_eq_ok, exists_const] at h
      obtain ⟨hleast, vmaddr, -, vmsize, -, fileoff, -, filesize, -, nsects, hnsects, hfit, -⟩ := h
      have hfixed : 72 ≤ c.bytes.length := Nat.not_lt.1 hleast
      rw [read_field hb (by omega)] at hnsects
      cases hnsects
      exact absurd (Nat.not_lt.1 hfit) hroom
    · rintro ⟨h, -⟩
      exact absurd h hroom

theorem readSignature_eq_ok (hb : command.bytes = c.bytes) (hcmd : c.cmd = kLcCodeSignature) :
    readSignature command offset i size headerEnd scope signed = .ok info ↔
      c.Sound ∧ (signed = false ∧ c.Points size headerEnd) ∧ c.info offset i size scope = info := by
  have hsize : command.size = c.bytes.length := congrArg List.length hb
  have hne : ¬c.cmd = kLcSegment64 := by rw [hcmd]; decide
  rw [readSignature, Command.Sound, if_neg hne, if_pos hcmd, Command.info, if_neg hne, if_pos hcmd]
  simp only [hsize, bind_eq_ok, rejectIf_eq_ok, exists_const, pure_eq_ok, Except.ok.injEq, Nat.not_lt, Bool.not_eq_true,
    Bool.not_eq_false, rangeFits_iff]
  constructor
  · rintro ⟨hleast, hsigned, dataoff, hdataoff, datasize, hdatasize, hfits, hbehind, rfl⟩
    have hfixed : 16 ≤ c.bytes.length := hleast
    rw [read_field hb (by omega)] at hdataoff hdatasize
    cases hdataoff
    cases hdatasize
    exact ⟨hleast, ⟨hsigned, ⟨hfits, fun h => Nat.not_lt.1 fun hlt => hbehind ⟨h, hlt⟩⟩⟩, rfl⟩
  · rintro ⟨hleast, ⟨hsigned, hpoints⟩, rfl⟩
    have hfixed : 16 ≤ c.bytes.length := hleast
    exact ⟨hleast, hsigned, _, read_field hb (by omega), _, read_field hb (by omega), hpoints.inside,
      fun h => Nat.not_lt.2 (hpoints.behind h.1) h.2, rfl⟩

theorem readReference_eq_ok (hb : command.bytes = c.bytes) (hcmd : isReferenceCommand c.cmd = true)
    (hseg : ¬c.cmd = kLcSegment64) (hsig : ¬c.cmd = kLcCodeSignature) (offset size : Nat) (scope : String) :
    readReference command c.cmd i = .ok info ↔ c.Sound ∧ c.info offset i size scope = info := by
  have hsize : command.size = c.bytes.length := congrArg List.length hb
  rw [readReference, Command.Sound, if_neg hseg, if_neg hsig, if_pos hcmd, Command.info, if_neg hseg, if_neg hsig,
    if_pos hcmd]
  simp only [hsize, bind_eq_ok, rejectIf_eq_ok, exists_const, pure_eq_ok, Except.ok.injEq, Nat.not_lt, Nat.not_le]
  have hlibrary : ∀ what, c.nameOffset < c.bytes.length →
      ∀ library, command.cString c.nameOffset c.bytes.length what = .ok library ↔
        0 ∈ slice c.bytes c.nameOffset (c.bytes.length - c.nameOffset) ∧ c.library = library := by
    intro what hname library
    rw [ByteSpan.cString]
    simp only [hsize, hb, rejectIf_of_not (Nat.not_le.2 hname), ok_bind]
    have hlimit : (if c.bytes.length < c.bytes.length - c.nameOffset then c.bytes.length
        else c.bytes.length - c.nameOffset) = c.bytes.length - c.nameOffset := if_neg (by omega)
    rw [hlimit]
    by_cases hzero : 0 ∈ slice c.bytes c.nameOffset (c.bytes.length - c.nameOffset)
    · rw [if_pos hzero]
      simp [hzero, Command.library]
    · rw [if_neg hzero]
      simp only [hzero, false_and, iff_false]
      intro h
      obtain ⟨-, -, h⟩ := bind_eq_ok.1 h
      cases h
  constructor
  · rintro ⟨hleast, nameOffset, hname, hin, library, hread, rfl⟩
    have hfixed : 24 ≤ c.bytes.length := hleast
    rw [read_field hb (by omega)] at hname
    cases hname
    obtain ⟨hzero, rfl⟩ := (hlibrary _ hin _).1 hread
    exact ⟨⟨hleast, hin, hzero⟩, rfl⟩
  · rintro ⟨⟨hleast, hin, hzero⟩, rfl⟩
    have hfixed : 24 ≤ c.bytes.length := hleast
    exact ⟨hleast, _, read_field hb (by omega), hin, _, (hlibrary _ hin _).2 ⟨hzero, rfl⟩, rfl⟩

/-- What the parser asks of a command, and what it makes of it. -/
theorem readCommand_eq_ok (hb : command.bytes = c.bytes) :
    readCommand command c.cmd offset i size headerEnd scope signed = .ok info ↔
      c.Sound ∧ (c.isSignature = true → signed = false ∧ c.Points size headerEnd) ∧
        c.info offset i size scope = info := by
  rw [readCommand, Command.isSignature]
  by_cases hseg : c.cmd = kLcSegment64
  · have hnot : ¬c.cmd = kLcCodeSignature := by rw [hseg]; decide
    rw [if_pos hseg, readSegment_eq_ok hb hseg]
    simp [hnot]
  · rw [if_neg hseg]
    by_cases hsig : c.cmd = kLcCodeSignature
    · rw [if_pos hsig, readSignature_eq_ok hb hsig]
      simp [hsig]
    · rw [if_neg hsig]
      by_cases href : isReferenceCommand c.cmd = true
      · rw [if_pos href, readReference_eq_ok hb href hseg hsig offset size scope]
        simp [hsig]
      · rw [if_neg href, Command.Sound, if_neg hseg, if_neg hsig, if_neg href, Command.info, if_neg hseg, if_neg hsig,
          if_neg href]
        simp [hsig]

/-! All commands -/

/-- The commands one after the other. -/
def areaOf (cs : List Command) : List UInt8 := cs.flatMap Command.bytes

@[simp] theorem areaOf_nil : areaOf [] = [] := rfl

@[simp] theorem areaOf_cons (c : Command) (cs : List Command) : areaOf (c :: cs) = c.bytes ++ areaOf cs := rfl

@[simp] theorem areaOf_append (cs ds : List Command) : areaOf (cs ++ ds) = areaOf cs ++ areaOf ds := List.flatMap_append

/-- The bytes of the commands say where each of them ends. -/
theorem areaOf_injective {cs ds : List Command} (h : areaOf cs = areaOf ds) : cs = ds := by
  have hpositive : ∀ (c : Command) (es : List Command), areaOf (c :: es) ≠ [] := by
    intro c es hnil
    have hlen := congrArg List.length hnil
    have hleast : 8 ≤ c.bytes.length := c.least
    rw [areaOf_cons, List.length_append, List.length_nil] at hlen
    omega
  have hrecorded : ∀ (c : Command) (es : List Command), leValue (slice (areaOf (c :: es)) 4 4) = c.bytes.length := by
    intro c es
    have hleast : 8 ≤ c.bytes.length := c.least
    rw [areaOf_cons, slice_append_left (by omega)]
    exact c.recorded
  induction cs generalizing ds with
  | nil =>
      cases ds with
      | nil => rfl
      | cons d ds => exact absurd h.symm (hpositive d ds)
  | cons c cs ih =>
      cases ds with
      | nil => exact absurd h (hpositive c cs)
      | cons d ds =>
          have hlen : c.bytes.length = d.bytes.length := by rw [← hrecorded c cs, h, hrecorded]
          obtain ⟨hbytes, hrest⟩ := List.append_inj h hlen
          have hsame : c = d := by
            cases c
            cases d
            cases hbytes
            rfl
          rw [hsame, ih hrest]

/-- What the walk makes of commands, from the one with the number `i` on. -/
def recordAll (size : Nat) (scope : String) : Nat → Walk → List Command → Walk
  | _, walk, [] => walk
  | i, walk, c :: cs =>
      let info := c.info (kHeader64Size + walk.cursor) i size scope
      recordAll size scope (i + 1) {
        cursor := walk.cursor + c.bytes.length
        layout := walk.layout.record ⟨kHeader64Size + walk.cursor, c.cmd, c.bytes.length⟩ info
        problem := walk.problem <|> info.problem } cs

/-- The commands that the walk takes, after a signature command or not. -/
structure Admitted (size headerEnd : Nat) (signed : Bool) (cs : List Command) : Prop where
  sound : ∀ c ∈ cs, c.Sound
  points : ∀ c ∈ cs, c.isSignature = true → c.Points size headerEnd
  single : cs.countP Command.isSignature + signed.toNat ≤ 1

theorem Admitted.nil (size headerEnd : Nat) (signed : Bool) : Admitted size headerEnd signed [] :=
  ⟨by simp, by simp, by cases signed <;> simp⟩

theorem admitted_cons : Admitted size headerEnd signed (c :: cs) ↔
    c.Sound ∧ (c.isSignature = true → signed = false ∧ c.Points size headerEnd) ∧
      Admitted size headerEnd (signed || c.isSignature) cs := by
  constructor
  · rintro ⟨hsound, hpoints, hsingle⟩
    obtain ⟨hc, hcs⟩ := List.forall_mem_cons.1 hsound
    obtain ⟨hp, hps⟩ := List.forall_mem_cons.1 hpoints
    rw [List.countP_cons] at hsingle
    refine ⟨hc, fun h => ⟨?_, hp h⟩, hcs, hps, ?_⟩
    · cases signed with
      | false => rfl
      | true =>
          rw [if_pos h] at hsingle
          simp at hsingle
    · cases signed <;> cases h : c.isSignature <;> simp_all
  · rintro ⟨hc, hp, hcs, hps, hsingle⟩
    refine ⟨List.forall_mem_cons.2 ⟨hc, hcs⟩, List.forall_mem_cons.2 ⟨fun h => (hp h).2, hps⟩, ?_⟩
    rw [List.countP_cons]
    cases signed <;> cases h : c.isSignature <;> simp_all

theorem info_signature_isSome (entry : LoadCommandEntry) (layout : SliceLayout) :
    (layout.record entry (c.info offset i size scope)).codesig.isSome = (layout.codesig.isSome || c.isSignature) := by
  rw [Command.isSignature, Command.info]
  by_cases hseg : c.cmd = kLcSegment64
  · have hnot : ¬c.cmd = kLcCodeSignature := by rw [hseg]; decide
    rw [if_pos hseg]
    simp only [SliceLayout.record]
    split_ifs <;> simp [hnot]
  · rw [if_neg hseg]
    by_cases hsig : c.cmd = kLcCodeSignature
    · rw [if_pos hsig]
      simp [SliceLayout.record, hsig]
    · rw [if_neg hsig]
      by_cases href : isReferenceCommand c.cmd = true
      · rw [if_pos href]
        simp only [SliceLayout.record]
        split_ifs <;> simp [hsig]
      · rw [if_neg href]
        simp [SliceLayout.record, hsig]

/-- The command at a place of the area, when there is one that may stand there. -/
theorem parseCommand_eq_ok {cursor : Nat} {entry : LoadCommandEntry} :
    parseCommand area i cursor size headerEnd scope signed = .ok (entry, info) ↔
      ∃ c : Command, cursor + c.bytes.length ≤ area.bytes.length ∧ slice area.bytes cursor c.bytes.length = c.bytes ∧
        c.Sound ∧ (c.isSignature = true → signed = false ∧ c.Points size headerEnd) ∧
        ⟨kHeader64Size + cursor, c.cmd, c.bytes.length⟩ = entry ∧
        c.info (kHeader64Size + cursor) i size scope = info := by
  simp only [parseCommand, bind_eq_ok, rejectIf_eq_ok, exists_const, pure_eq_ok, Except.ok.injEq, Prod.mk.injEq,
    Bool.not_eq_false, rangeFits_iff, ByteSpan.read_eq_ok, ByteOrder.value, ByteSpan.sub_eq_ok, Nat.not_lt, not_not,
    ne_eq]
  have hwhole : area.size = area.bytes.length := rfl
  rw [hwhole]
  constructor
  · rintro ⟨-, cmd, ⟨-, hcmd⟩, cmdsize, ⟨-, hsize⟩, hleast, hmod, hfits, command, ⟨-, rfl⟩, info, hinfo, rfl, rfl⟩
    have hfixed : 8 ≤ cmdsize := hleast
    have hlen : (slice area.bytes cursor cmdsize).length = cmdsize := length_slice_of_le hfits
    have hrecorded : leValue (slice (slice area.bytes cursor cmdsize) 4 4) = (slice area.bytes cursor cmdsize).length := by
      rw [hlen, slice_slice (by omega), hsize]
    let c : Command := ⟨slice area.bytes cursor cmdsize, by rw [hlen]; exact hleast, by rw [hlen]; exact hmod, hrecorded⟩
    have hc : c.cmd = cmd := by
      rw [← hcmd]
      exact congrArg leValue (slice_slice (by omega))
    rw [← hc] at hinfo
    obtain ⟨hsound, hsignature, hinfo⟩ := (readCommand_eq_ok (c := c) rfl).1 hinfo
    refine ⟨c, ?_, ?_, hsound, hsignature, ?_, hinfo⟩
    · rw [hlen]
      exact hfits
    · rw [hlen]
    · rw [hc, hlen]
  · rintro ⟨c, hfits, hbytes, hsound, hsignature, rfl, hinfo⟩
    have hfixed : 8 ≤ c.bytes.length := c.least
    have hcmd : leValue (slice area.bytes cursor 4) = c.cmd := by
      rw [Command.cmd, Command.field, ← hbytes, slice_slice (by omega), Nat.add_zero]
    have hsize : leValue (slice area.bytes (cursor + 4) 4) = c.bytes.length := by
      have hwithin : slice (slice area.bytes cursor c.bytes.length) 4 4 = slice area.bytes (cursor + 4) 4 :=
        slice_slice (by omega)
      rw [← hwithin, hbytes]
      exact c.recorded
    refine ⟨(Nat.add_le_add_left c.least _).trans hfits, c.cmd, ⟨by omega, hcmd⟩, c.bytes.length, ⟨by omega, hsize⟩, c.least, c.aligned, hfits, _,
      ⟨hfits, rfl⟩, info, ?_, rfl, rfl⟩
    exact (readCommand_eq_ok hbytes).2 ⟨hsound, hsignature, hinfo⟩

/-- The walk over so many commands. -/
theorem parseCommands_eq_ok {remaining : Nat} (hcursor : walk.cursor ≤ area.bytes.length) :
    parseCommands area size headerEnd scope remaining i walk = .ok walk' ↔ ∃ cs, cs.length = remaining ∧
      walk.cursor + (areaOf cs).length ≤ area.bytes.length ∧
      slice area.bytes walk.cursor (areaOf cs).length = areaOf cs ∧
      Admitted size headerEnd walk.layout.codesig.isSome cs ∧ recordAll size scope i walk cs = walk' := by
  induction remaining generalizing i walk with
  | zero =>
      rw [parseCommands]
      constructor
      · intro h
        cases h
        exact ⟨[], rfl, hcursor, slice_zero_length _ _, Admitted.nil _ _ _, rfl⟩
      · rintro ⟨cs, hlen, -, -, -, rfl⟩
        rw [List.length_eq_zero_iff.1 hlen]
        rfl
  | succ remaining ih =>
      rw [parseCommands, bind_eq_ok]
      constructor
      · rintro ⟨⟨entry, info⟩, hcommand, hrest⟩
        obtain ⟨c, hfits, hbytes, hsound, hsignature, rfl, rfl⟩ := parseCommand_eq_ok.1 hcommand
        obtain ⟨cs, rfl, hfits', hbytes', hadmitted, hwalk⟩ := (ih hfits).1 hrest
        simp only [info_signature_isSome] at hfits' hbytes' hadmitted
        refine ⟨c :: cs, rfl, ?_, ?_, admitted_cons.2 ⟨hsound, hsignature, hadmitted⟩, hwalk⟩
        · rw [areaOf_cons, List.length_append]
          omega
        · rw [areaOf_cons, List.length_append, ← slice_append_slice, hbytes, hbytes']
      · rintro ⟨cs, hlen, hfits, hbytes, hadmitted, hwalk⟩
        cases cs with
        | nil => cases hlen
        | cons c cs =>
            rw [areaOf_cons, List.length_append] at hfits hbytes
            rw [← slice_append_slice] at hbytes
            obtain ⟨hc, hcs⟩ := List.append_inj hbytes (length_slice_of_le (by omega))
            obtain ⟨hsound, hsignature, hadmitted⟩ := admitted_cons.1 hadmitted
            refine ⟨(⟨kHeader64Size + walk.cursor, c.cmd, c.bytes.length⟩, c.info (kHeader64Size + walk.cursor) i size scope),
              parseCommand_eq_ok.2 ⟨c, by omega, hc, hsound, hsignature, rfl, rfl⟩, ?_⟩
            refine (ih (by simp only; omega)).2 ⟨cs, Nat.succ.inj hlen, ?_, hcs, ?_, hwalk⟩
            · simp only
              omega
            · simp only [info_signature_isSome]
              exact hadmitted

end TheSeed.MachOCommands
