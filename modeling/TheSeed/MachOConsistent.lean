import TheSeed.MachOReassembly
import TheSeed.MachORebuilt

namespace TheSeed.MachOConsistent

open Bytes Checked BoundedBytes MachOLayout MachOCommands MachOProgram MachOEdits MachOLinks MachOPlan MachOContainers
open MachOTable MachOReassembly MachORebuilt

/-! What holds of every layout that the parser accepts, said of the bytes of the program. -/

variable {file : List UInt8} {container : MachOContainer} {entry : ContainerEntry} {c : Command} {cs : List Command}
  {p : Program} {offset base n k width : Nat} {scope : String}

/-- The commands stand one behind the other from an offset to another one. -/
def Tiles : Nat → List LoadCommandEntry → Nat → Prop
  | start, [], stop => start = stop
  | start, command :: commands, stop =>
      command.offset = start ∧ kLoadCommandHeaderSize ≤ command.cmdsize ∧ command.cmdsize % 4 = 0 ∧
        Tiles (start + command.cmdsize) commands stop

/-- The number in a field of a load command. -/
def commandField (bytes : List UInt8) (command : LoadCommandEntry) (offset width : Nat) : Nat :=
  leValue (slice bytes (command.offset + offset) width)

def commandName (bytes : List UInt8) (command : LoadCommandEntry) : List UInt8 :=
  (slice bytes (command.offset + 8) 16).takeWhile fun b => b ≠ 0

/-- The field of a section of a segment command. -/
def sectionField (bytes : List UInt8) (command : LoadCommandEntry) (s offset : Nat) : Nat :=
  commandField bytes command (kSegment64CommandSize + s * kSection64Size + offset) 4

structure Consistent (bytes : List UInt8) (layout : SliceLayout) : Prop where
  whole : layout.size = bytes.length
  header : layout.ncmds = leValue (slice bytes 16 4) ∧ layout.sizeofcmds = leValue (slice bytes 20 4)
  count : layout.commands.length = layout.ncmds
  area : kHeader64Size + layout.sizeofcmds ≤ layout.size
  tiles : Tiles kHeader64Size layout.commands (kHeader64Size + layout.sizeofcmds)
  recorded : ∀ command ∈ layout.commands,
    commandField bytes command 0 4 = command.cmd ∧ commandField bytes command 4 4 = command.cmdsize
  segments : ∀ segment ∈ layout.segments, segment.fileoff + segment.filesize ≤ layout.size
  recordedSegments : ∀ command ∈ layout.commands, command.cmd = kLcSegment64 → ∃ segment ∈ layout.segments,
    segment.commandOffset = command.offset ∧ segment.fileoff = commandField bytes command 40 8 ∧
      segment.filesize = commandField bytes command 48 8
  sections : ∀ command ∈ layout.commands, command.cmd = kLcSegment64 →
    kSegment64CommandSize + commandField bytes command 64 4 * kSection64Size ≤ command.cmdsize
  single : layout.commands.countP (fun command => command.cmd = kLcCodeSignature) ≤ 1
  recordedSignature : ∀ command ∈ layout.commands, command.cmd = kLcCodeSignature →
    layout.codesig = some ⟨command.offset, commandField bytes command 8 4, commandField bytes command 12 4⟩
  signature : ∀ sig, layout.codesig = some sig → sig.dataoff + sig.datasize ≤ layout.size ∧
    (sig.datasize ≠ 0 → kHeader64Size + layout.sizeofcmds ≤ sig.dataoff)
  firstContent : layout.firstContent ≤ layout.size
  sectionContent : ∀ command ∈ layout.commands, command.cmd = kLcSegment64 → ∀ s < commandField bytes command 64 4,
    sectionField bytes command s 48 ≠ 0 → isZeroFill (sectionField bytes command s 64) = false →
      layout.firstContent ≤ sectionField bytes command s 48
  segmentContent : ∀ command ∈ layout.commands, command.cmd = kLcSegment64 → commandName bytes command ≠ textName →
    0 < commandField bytes command 48 8 → 0 < commandField bytes command 40 8 →
      layout.firstContent ≤ commandField bytes command 40 8

/-! Commands at their places -/

theorem mem_placed : (n, c) ∈ placed offset cs ↔ ∃ k : Nat, cs[k]? = some c ∧ offset + (areaOf (cs.take k)).length = n := by
  induction cs generalizing offset with
  | nil =>
      rw [placed]
      constructor
      · intro h
        cases h
      · rintro ⟨k, h, -⟩
        cases h
  | cons d cs ih =>
      rw [placed, List.mem_cons, ih]
      constructor
      · rintro (h | ⟨k, hk, rfl⟩)
        · obtain ⟨rfl, rfl⟩ := Prod.mk.inj h
          exact ⟨0, rfl, rfl⟩
        · refine ⟨k + 1, hk, ?_⟩
          rw [List.take_succ_cons, areaOf_cons, List.length_append, Nat.add_assoc]
      · rintro ⟨k, hk, rfl⟩
        cases k with
        | zero =>
            obtain rfl : d = c := Option.some.inj hk
            exact .inl rfl
        | succ k =>
            refine .inr ⟨k, hk, ?_⟩
            rw [List.take_succ_cons, areaOf_cons, List.length_append, Nat.add_assoc]

theorem tiles_placed (offset : Nat) (cs : List Command) :
    Tiles offset ((placed offset cs).map entryAt) (offset + (areaOf cs).length) := by
  induction cs generalizing offset with
  | nil => rfl
  | cons c cs ih =>
      rw [placed, List.map_cons, areaOf_cons, List.length_append, ← Nat.add_assoc]
      exact ⟨rfl, c.least, c.aligned, ih _⟩

theorem length_placed (offset : Nat) (cs : List Command) : (placed offset cs).length = cs.length := by
  induction cs generalizing offset with
  | nil => rfl
  | cons c cs ih => rw [placed, List.length_cons, List.length_cons, ih]

theorem countP_placed (offset : Nat) (cs : List Command) :
    ((placed offset cs).map entryAt).countP (fun command => command.cmd = kLcCodeSignature) =
      cs.countP Command.isSignature := by
  induction cs generalizing offset with
  | nil => rfl
  | cons c cs ih =>
      rw [placed, List.map_cons, List.countP_cons, List.countP_cons, ih]
      rfl

/-- A command of a program is where the layout says. -/
theorem slice_command (hk : p.commands[k]? = some c) (h : offset + width ≤ c.bytes.length) :
    slice p.bytes (commandAt p.commands k + offset) width = slice c.bytes offset width := by
  have hsplit := areaOf_split hk
  have hbefore : commandAt p.commands k = (p.header ++ areaOf (p.commands.take k)).length := by
    rw [commandAt, List.length_append, p.headerLength]
  have hbytes : p.bytes = (p.header ++ areaOf (p.commands.take k)) ++
      (c.bytes ++ (areaOf (p.commands.drop (k + 1)) ++ p.body)) := by
    rw [Program.bytes, hsplit]
    simp only [List.append_assoc]
  rw [hbytes, hbefore, slice_append_right (Nat.le_add_right _ _), Nat.add_sub_cancel_left, slice_append_left h]

theorem field_command (hk : p.commands[k]? = some c) (h : offset + width ≤ c.bytes.length) :
    commandField p.bytes (entryAt (commandAt p.commands k, c)) offset width = c.field offset width :=
  congrArg leValue (slice_command hk h)

/-! What counts as content -/

theorem foldl_min_le_mem {contents : List Nat} {content : Nat} (h : content ∈ contents) (most : Nat) :
    contents.foldl min most ≤ content := by
  induction contents generalizing most with
  | nil => cases h
  | cons first contents ih =>
      rcases List.mem_cons.1 h with rfl | h
      · exact (foldl_min_le contents (min most content)).trans (Nat.min_le_right _ _)
      · exact ih h _

theorem mem_sections {s t remaining : Nat} (hs : s ≤ t) (ht : t < s + remaining)
    (hoffset : c.field (kSegment64CommandSize + t * kSection64Size + 48) 4 ≠ 0)
    (hfill : isZeroFill (c.field (kSegment64CommandSize + t * kSection64Size + 64) 4) = false) :
    c.field (kSegment64CommandSize + t * kSection64Size + 48) 4 ∈ c.sections remaining s := by
  induction remaining generalizing s with
  | zero => omega
  | succ remaining ih =>
      rw [Command.sections]
      by_cases heq : s = t
      · subst heq
        rw [if_pos ⟨hoffset, hfill⟩]
        exact List.mem_cons_self
      · have hrest := ih (by omega : s + 1 ≤ t) (by omega)
        split
        · exact List.mem_cons_of_mem _ hrest
        · exact hrest

theorem sections_subset : ∀ content ∈ c.sections c.nsects 0, content ∈ c.contents := by
  intro content h
  rw [Command.contents]
  split
  · exact List.mem_cons_of_mem _ h
  · exact h

/-! The layout of a program -/

theorem mem_commands {command : LoadCommandEntry} (h : command ∈ (p.layout base scope).commands) :
    ∃ (k : Nat) (c : Command), p.commands[k]? = some c ∧ entryAt (commandAt p.commands k, c) = command := by
  rw [layout_commands] at h
  obtain ⟨⟨n, c⟩, hplaced, rfl⟩ := List.mem_map.1 h
  obtain ⟨k, hk, rfl⟩ := mem_placed.1 hplaced
  exact ⟨k, c, hk, rfl⟩

theorem mem_segments {segment : SegmentLayout} : segment ∈ (p.layout base scope).segments ↔
    ∃ (k : Nat) (c : Command), p.commands[k]? = some c ∧ c.isSegment = true ∧ c.segment (commandAt p.commands k) = segment := by
  rw [(p.layout_recorded base scope).segments, Program.start, List.nil_append, List.mem_filterMap]
  constructor
  · rintro ⟨⟨n, c⟩, hplaced, hsegment⟩
    obtain ⟨k, hk, rfl⟩ := mem_placed.1 hplaced
    rw [segmentAt] at hsegment
    split at hsegment
    · rename_i hc
      exact ⟨k, c, hk, hc, Option.some.inj hsegment⟩
    · cases hsegment
  · rintro ⟨k, c, hk, hc, rfl⟩
    exact ⟨(commandAt p.commands k, c), mem_placed.2 ⟨k, hk, rfl⟩, if_pos hc⟩

theorem firstContent_le {content : Nat} (hk : p.commands[k]? = some c) (hc : c.isSegment = true)
    (hcontent : content ∈ c.contents) : (p.layout base scope).firstContent ≤ content := by
  rw [(p.layout_recorded base scope).firstContent]
  refine foldl_min_le_mem (List.mem_flatMap.2 ⟨(commandAt p.commands k, c), mem_placed.2 ⟨k, hk, rfl⟩, ?_⟩) _
  rw [contentsAt, if_pos hc]
  exact hcontent

theorem consistent_program (h : p.Accepted) (base : Nat) (scope : String) : Consistent p.bytes (p.layout base scope) := by
  have hsize : (p.layout base scope).size = p.bytes.length := layout_size
  have hend := headerEnd_le_size p
  have hcommand : ∀ {command}, command ∈ (p.layout base scope).commands → ∃ (k : Nat) (c : Command),
      p.commands[k]? = some c ∧ entryAt (commandAt p.commands k, c) = command ∧ c.Sound := fun hin => by
    obtain ⟨k, c, hk, hentry⟩ := mem_commands hin
    exact ⟨k, c, hk, hentry, h.admitted.sound c (List.mem_of_getElem? hk)⟩
  have hsegment : ∀ {c : Command}, c.Sound → c.cmd = kLcSegment64 →
      kSegment64CommandSize + c.nsects * kSection64Size ≤ c.bytes.length := fun hsound hcmd => by
    rwa [Command.Sound, if_pos hcmd] at hsound
  refine ⟨hsize, ?_, ?_, ?_, ?_, fun command hin => ?_, fun segment hin => ?_, fun command hin hcmd => ?_,
    fun command hin hcmd => ?_, ?_, fun command hin hcmd => ?_, fun sig hsig => ?_, ?_, fun command hin hcmd s hs hoffset hfill => ?_,
    fun command hin hcmd hname hfilesize hfileoff => ?_⟩
  · rw [layout_ncmds, layout_sizeofcmds, p.header_eq (by decide), p.header_eq (by decide), p.counted, p.measured]
    exact ⟨rfl, rfl⟩
  · rw [layout_commands, layout_ncmds, List.length_map, length_placed]
  · rw [layout_size, layout_sizeofcmds]
    exact hend
  · rw [layout_commands, layout_sizeofcmds]
    exact tiles_placed _ _
  · obtain ⟨k, c, hk, rfl, -⟩ := hcommand hin
    have hleast : 8 ≤ c.bytes.length := c.least
    exact ⟨field_command hk (by omega), by rw [field_command hk (by omega)]; exact c.recorded⟩
  · obtain ⟨k, c, hk, hc, rfl⟩ := mem_segments.1 hin
    rw [layout_size]
    exact h.fits c (List.mem_of_getElem? hk) hc
  · obtain ⟨k, c, hk, rfl, hsound⟩ := hcommand hin
    have hroom := hsegment hsound hcmd
    have hfixed : kSegment64CommandSize = 72 := rfl
    rw [field_command hk (by omega), field_command hk (by omega)]
    exact ⟨c.segment (commandAt p.commands k), mem_segments.2 ⟨k, c, hk, decide_eq_true hcmd, rfl⟩, rfl, rfl, rfl⟩
  · obtain ⟨k, c, hk, rfl, hsound⟩ := hcommand hin
    have hroom := hsegment hsound hcmd
    have hfixed : kSegment64CommandSize = 72 := rfl
    rw [field_command hk (by omega)]
    exact hroom
  · rw [layout_commands, countP_placed]
    simpa using h.admitted.single
  · obtain ⟨k, c, hk, rfl, hsound⟩ := hcommand hin
    have hsignature : c.isSignature = true := decide_eq_true hcmd
    have hroom : 16 ≤ c.bytes.length := (signature_sound hsignature).1 hsound
    rw [field_command hk (by omega), field_command hk (by omega)]
    rcases accepted_signs_or_unsigned h with hnone | ⟨j, s, hj⟩
    · rw [hnone c (List.mem_of_getElem? hk)] at hsignature
      cases hsignature
    · have hkj : k = j := by
        by_contra hne
        rw [hj.only k c hne hk] at hsignature
        cases hsignature
      subst hkj
      obtain rfl : s = c := Option.some.inj (hj.at_.symm.trans hk)
      exact layout_codesig_some hj
  · rcases accepted_signs_or_unsigned h with hnone | ⟨j, s, hj⟩
    · rw [layout_codesig_none hnone] at hsig
      cases hsig
    · rw [layout_codesig_some hj] at hsig
      obtain rfl := Option.some.inj hsig
      have hpoints := h.admitted.points s (List.mem_of_getElem? hj.at_) hj.signature
      rw [layout_size, layout_sizeofcmds]
      exact ⟨hpoints.inside, hpoints.behind⟩
  · rw [layout_size]
    exact layout_firstContent
  · obtain ⟨k, c, hk, rfl, hsound⟩ := hcommand hin
    have hroom := hsegment hsound hcmd
    have hfixed : kSegment64CommandSize = 72 := rfl
    have hnsects : commandField p.bytes (entryAt (commandAt p.commands k, c)) 64 4 = c.nsects :=
      field_command hk (by omega)
    have hfield : ∀ {offset}, offset + 4 ≤ 80 → sectionField p.bytes (entryAt (commandAt p.commands k, c)) s offset =
        c.field (kSegment64CommandSize + s * kSection64Size + offset) 4 := fun {offset} hlt => by
      have hle : (s + 1) * kSection64Size ≤ c.nsects * kSection64Size := Nat.mul_le_mul_right _ (hnsects ▸ hs)
      have hsection : kSection64Size = 80 := rfl
      rw [Nat.add_one_mul] at hle
      exact field_command hk (by omega)
    rw [hnsects] at hs
    rw [hfield (by decide)] at hoffset hfill ⊢
    refine firstContent_le hk (decide_eq_true hcmd) (sections_subset _ ?_)
    exact mem_sections (Nat.zero_le s) (by omega) hoffset hfill
  · obtain ⟨k, c, hk, rfl, hsound⟩ := hcommand hin
    have hroom := hsegment hsound hcmd
    have hfixed : kSegment64CommandSize = 72 := rfl
    have hown : commandName p.bytes (entryAt (commandAt p.commands k, c)) = c.name := by
      have hslice : slice p.bytes (commandAt p.commands k + 8) 16 = slice c.bytes 8 16 := slice_command hk (by omega)
      exact congrArg (List.takeWhile fun b => b ≠ 0) hslice
    rw [hown] at hname
    rw [field_command hk (by omega)] at hfilesize hfileoff ⊢
    refine firstContent_le hk (decide_eq_true hcmd) ?_
    rw [Command.contents, if_pos ⟨hname, hfilesize, hfileoff⟩]
    exact List.mem_cons_self

/-! Containers -/

/-- The slices of a universal file lie inside it, behind the table, and share no bytes. -/
structure Separate (file : List UInt8) (container : MachOContainer) : Prop where
  inside : ∀ entry ∈ container.entries, entry.offset + entry.size ≤ file.length
  behind : ∀ entry ∈ container.entries, tableEnd (container.form = .fat64) container.entries.length ≤ entry.offset
  disjoint : ∀ (i j : Nat) (a b : ContainerEntry), i ≠ j → container.entries[i]? = some a → container.entries[j]? = some b →
    a.offset + a.size ≤ b.offset ∨ b.offset + b.size ≤ a.offset

theorem Universal.separate {wide : Bool} {entries : List ContainerEntry} (h : Universal file wide entries) :
    Separate file ⟨formOf wide, entries⟩ := by
  have hwide : decide (formOf wide = .fat64) = wide := by cases wide <;> rfl
  refine ⟨fun entry hentry => ?_, fun entry hentry => ?_, fun i j a b hne hi hj => slices_apart h hi hj hne⟩
  · obtain ⟨i, hi⟩ := List.mem_iff_getElem?.1 hentry
    exact (h.enters i entry hi).inside
  · obtain ⟨i, hi⟩ := List.mem_iff_getElem?.1 hentry
    simp only [hwide]
    exact (h.enters i entry hi).behind

/-- The layout of an entry is that of its bytes. -/
theorem slice_parsed (h : parseMachOContainer (view file) = .ok container) (hin : entry ∈ container.entries) :
    ∃ scope, parseMachOSlice (view file) entry.offset entry.size scope = .ok entry.slice := by
  rcases form_cases container with hthin | ⟨wide, entries, rfl⟩
  · rw [parseMachOContainer, if_pos (thin_of_parse h hthin)] at h
    obtain ⟨layout, hlayout, h⟩ := bind_eq_ok.1 h
    obtain rfl := Except.ok.inj h
    obtain rfl := List.mem_singleton.1 hin
    exact ⟨_, hlayout⟩
  · obtain ⟨i, hi⟩ := List.mem_iff_getElem?.1 hin
    exact ⟨_, (parse_universal.1 h).slices i entry hi⟩

theorem accepted_layout_consistent (h : parseMachOContainer (view file) = .ok container) :
    (container.form ≠ .thin → Separate file container) ∧ ∀ entry ∈ container.entries, entry.slice.support = .supported →
      entry.offset + entry.size ≤ file.length ∧ Consistent (slice file entry.offset entry.size) entry.slice := by
  constructor
  · intro hform
    rcases form_cases container with hthin | ⟨wide, entries, rfl⟩
    · exact absurd hthin hform
    · exact Universal.separate (parse_universal.1 h)
  · intro entry hin hsupport
    obtain ⟨scope, hslice⟩ := slice_parsed h hin
    obtain ⟨hfits, p, hp, haccepted, hlayout⟩ := parseMachOSlice_eq_ok.1 ⟨hslice, hsupport⟩
    have hbytes : slice file entry.offset entry.size = p.bytes := hp
    rw [hbytes, ← hlayout]
    exact ⟨hfits, consistent_program haccepted _ _⟩

/-- A program with a section, a link-edit segment and a signature, for one architecture. -/
def signedProgram (cputype : Nat) : List UInt8 :=
  beBytes 4 kBytesThin64Little ++ leBytes 4 cputype ++ leBytes 4 3 ++ leBytes 4 2 ++ leBytes 4 3 ++
    leBytes 4 240 ++ leBytes 8 0 ++
    (leBytes 4 kLcSegment64 ++ leBytes 4 152 ++ (bytesOf "__TEXT" ++ List.replicate 10 0) ++ leBytes 8 0 ++
      leBytes 8 4096 ++ leBytes 8 0 ++ leBytes 8 280 ++ leBytes 8 5 ++ leBytes 4 1 ++ leBytes 4 0 ++
      (bytesOf "__text" ++ List.replicate 10 0) ++ (bytesOf "__TEXT" ++ List.replicate 10 0) ++ leBytes 8 272 ++
      leBytes 8 8 ++ leBytes 4 272 ++ leBytes 28 0) ++
    (leBytes 4 kLcSegment64 ++ leBytes 4 72 ++ (bytesOf "__LINKEDIT" ++ List.replicate 6 0) ++ leBytes 8 4096 ++
      leBytes 8 4096 ++ leBytes 8 280 ++ leBytes 8 8 ++ leBytes 16 1) ++
    (leBytes 4 kLcCodeSignature ++ leBytes 4 16 ++ leBytes 4 280 ++ leBytes 4 8) ++
    List.replicate 8 0x90 ++ List.replicate 8 0xFA

/-- The program for two architectures. -/
def twoSlices : List UInt8 :=
  beBytes 4 kBytesFat32 ++ beBytes 4 2 ++
    (beBytes 4 7 ++ beBytes 4 3 ++ beBytes 4 48 ++ beBytes 4 288 ++ beBytes 4 4) ++
    (beBytes 4 12 ++ beBytes 4 3 ++ beBytes 4 336 ++ beBytes 4 288 ++ beBytes 4 3) ++
    signedProgram 7 ++ signedProgram 12

theorem twoSlices_consistent : ∃ container, parseMachOContainer (view twoSlices) = .ok container ∧
    container.entries.map (fun entry => (entry.offset, entry.slice.ncmds,
      entry.slice.codesig.map CodeSignatureLayout.dataoff)) =
        [(48, 3, some 280), (336, 3, some 280)] ∧ Separate twoSlices container ∧
      ∀ entry ∈ container.entries, Consistent (slice twoSlices entry.offset entry.size) entry.slice := by
  have hok : (parseMachOContainer (view twoSlices)).isOk = true := by decide +kernel
  have hentries : (parseMachOContainer (view twoSlices)).map (fun container => container.entries.map fun entry =>
      (entry.offset, entry.slice.ncmds, entry.slice.codesig.map CodeSignatureLayout.dataoff)) =
      .ok [(48, 3, some 280), (336, 3, some 280)] := by decide +kernel
  have hform : (parseMachOContainer (view twoSlices)).map (fun container => decide (container.form = .thin)) = .ok false := by
    decide +kernel
  have hsupport : (parseMachOContainer (view twoSlices)).map (fun container => container.entries.all fun entry =>
      entry.slice.support = .supported) = .ok true := by decide +kernel
  obtain ⟨container, hparse⟩ := exists_of_isOk hok
  rw [hparse] at hentries hform hsupport
  have h := accepted_layout_consistent hparse
  refine ⟨container, hparse, Except.ok.inj hentries, h.1 (of_decide_eq_false (Except.ok.inj hform)), fun entry hin => (h.2 entry hin ?_).2⟩
  exact of_decide_eq_true (List.all_eq_true.mp (Except.ok.inj hsupport) entry hin)

end TheSeed.MachOConsistent
