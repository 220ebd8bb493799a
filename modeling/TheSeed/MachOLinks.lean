import TheSeed.MachOEdits

namespace TheSeed.MachOLinks

open Bytes Checked BoundedBytes MachOLayout MachOCommands MachOProgram MachOSigner MachOEdits

/-! Which commands of a program the layout points to, by their numbers. -/

/-- The first segment with a name. -/
structure Leads (name : List UInt8) (cs : List Command) (k : Nat) (c : Command) : Prop where
  at_ : cs[k]? = some c
  segment : c.isSegment = true
  named : c.name = name
  first : ∀ i d, i < k → cs[i]? = some d → ¬(d.isSegment = true ∧ d.name = name)

/-- The only signature command. -/
structure Signs (cs : List Command) (j : Nat) (s : Command) : Prop where
  at_ : cs[j]? = some s
  signature : s.isSignature = true
  only : ∀ i d, i ≠ j → cs[i]? = some d → d.isSignature = false

variable {c d s : Command} {cs : List Command} {i j k base offset size headerEnd : Nat} {name : List UInt8}
  {seg : SegmentLayout} {scope : String} {p q : Program}

theorem named_eq (c : Command) (offset : Nat) : named name (offset, c) =
    if c.isSegment = true ∧ c.name = name then some (c.segment offset) else none := by
  rw [named, segmentAt]
  by_cases hseg : c.isSegment = true
  · rw [if_pos hseg, Option.filter_some]
    by_cases hname : c.name = name <;> simp [Command.segment, hname, hseg]
  · rw [if_neg hseg, if_neg fun h => hseg h.1]
    rfl

theorem findSome_placed : (placed offset cs).findSome? (named name) = some seg ↔
    ∃ k c, Leads name cs k c ∧ c.segment (offset + (areaOf (cs.take k)).length) = seg := by
  induction cs generalizing offset with
  | nil =>
      simp only [placed, List.findSome?_nil]
      constructor
      · intro h
        cases h
      · rintro ⟨k, c, hleads, -⟩
        cases hleads.at_
  | cons d ds ih =>
      rw [placed, List.findSome?_cons, named_eq]
      by_cases hd : d.isSegment = true ∧ d.name = name
      · rw [if_pos hd]
        constructor
        · intro h
          cases h
          exact ⟨0, d, ⟨rfl, hd.1, hd.2, fun i e hi => absurd hi (Nat.not_lt_zero i)⟩, rfl⟩
        · rintro ⟨k, c, hleads, rfl⟩
          cases k with
          | zero =>
              obtain rfl : d = c := Option.some.inj hleads.at_
              rfl
          | succ k => exact absurd hd (hleads.first 0 d (Nat.succ_pos k) rfl)
      · rw [if_neg hd]
        simp only
        rw [ih]
        constructor
        · rintro ⟨k, c, hleads, rfl⟩
          refine ⟨k + 1, c, ⟨hleads.at_, hleads.segment, hleads.named, fun i e hi he => ?_⟩, ?_⟩
          · cases i with
            | zero =>
                obtain rfl : d = e := Option.some.inj he
                exact hd
            | succ i => exact hleads.first i e (Nat.lt_of_succ_lt_succ hi) he
          · rw [List.take_succ_cons, areaOf_cons, List.length_append, Nat.add_assoc]
        · rintro ⟨k, c, hleads, rfl⟩
          cases k with
          | zero =>
              obtain rfl : d = c := Option.some.inj hleads.at_
              exact absurd ⟨hleads.segment, hleads.named⟩ hd
          | succ k =>
              refine ⟨k, c, ⟨hleads.at_, hleads.segment, hleads.named, fun i e hi he => ?_⟩, ?_⟩
              · exact hleads.first (i + 1) e (Nat.succ_lt_succ hi) he
              · rw [List.take_succ_cons, areaOf_cons, List.length_append, Nat.add_assoc]

theorem Leads.unique (h : Leads name cs k c) (h' : Leads name cs i d) : k = i ∧ c = d := by
  have hki : k = i := by
    rcases Nat.lt_trichotomy k i with hlt | heq | hgt
    · exact absurd ⟨h.segment, h.named⟩ (h'.first k c hlt h.at_)
    · exact heq
    · exact absurd ⟨h'.segment, h'.named⟩ (h.first i d hgt h'.at_)
  subst hki
  exact ⟨rfl, Option.some.inj (h.at_.symm.trans h'.at_)⟩

/-- The link-edit segment of the layout is the first one with the name. -/
theorem layout_linkedit : (p.layout base scope).linkedit = some seg ↔
    ∃ k c, Leads linkeditName p.commands k c ∧ c.segment (commandAt p.commands k) = seg := by
  rw [(p.layout_recorded base scope).linkedit, Program.start, Option.none_or]
  exact findSome_placed

theorem layout_text : (p.layout base scope).text = some seg ↔
    ∃ k c, Leads textName p.commands k c ∧ c.segment (commandAt p.commands k) = seg := by
  rw [(p.layout_recorded base scope).text, Program.start, Option.none_or]
  exact findSome_placed

/-- Commands without a signature leave what was recorded before. -/
theorem codesig_unsigned (hnone : ∀ c ∈ cs, c.isSignature = false) (sig : Option CodeSignatureLayout) :
    (placed offset cs).foldl (fun sig place => (signatureAt place).or sig) sig = sig := by
  induction cs generalizing offset sig with
  | nil => rfl
  | cons c cs ih =>
      obtain ⟨hc, hcs⟩ := List.forall_mem_cons.1 hnone
      rw [placed, List.foldl_cons, ih hcs, signatureAt, if_neg (by simp [hc]), Option.none_or]

theorem codesig_signed (h : Signs cs j s) (sig : Option CodeSignatureLayout) :
    (placed offset cs).foldl (fun sig place => (signatureAt place).or sig) sig =
      some (s.sig (offset + (areaOf (cs.take j)).length)) := by
  induction cs generalizing offset j sig with
  | nil => cases h.at_
  | cons c cs ih =>
      rw [placed, List.foldl_cons]
      cases j with
      | zero =>
          obtain rfl : c = s := Option.some.inj h.at_
          have hrest : ∀ d ∈ cs, d.isSignature = false := by
            intro d hd
            obtain ⟨i, hi⟩ := List.mem_iff_getElem?.1 hd
            exact h.only (i + 1) d (Nat.succ_ne_zero i) hi
          rw [codesig_unsigned hrest, signatureAt, if_pos h.signature]
          rfl
      | succ j =>
          have hrest : Signs cs j s :=
            ⟨h.at_, h.signature, fun i d hi hd => h.only (i + 1) d (fun heq => hi (Nat.succ.inj heq)) hd⟩
          rw [ih hrest, List.take_succ_cons, areaOf_cons, List.length_append, Nat.add_assoc]

theorem layout_codesig_none (h : ∀ c ∈ p.commands, c.isSignature = false) : (p.layout base scope).codesig = none := by
  rw [(p.layout_recorded base scope).codesig, codesig_unsigned h]
  rfl

theorem layout_codesig_some (h : Signs p.commands j s) :
    (p.layout base scope).codesig = some (s.sig (commandAt p.commands j)) := by
  rw [(p.layout_recorded base scope).codesig, codesig_signed h]
  rfl

/-- At most one signature command: none, or one with its number. -/
theorem signs_or_unsigned (h : cs.countP Command.isSignature ≤ 1) :
    (∀ c ∈ cs, c.isSignature = false) ∨ ∃ j s, Signs cs j s := by
  induction cs with
  | nil => exact .inl (by simp)
  | cons c cs ih =>
      rw [List.countP_cons] at h
      by_cases hc : c.isSignature = true
      · rw [if_pos hc] at h
        have hzero : cs.countP Command.isSignature = 0 := by omega
        rw [List.countP_eq_zero] at hzero
        refine .inr ⟨0, c, rfl, hc, fun i d hi hd => ?_⟩
        cases i with
        | zero => exact absurd rfl hi
        | succ i =>
            have hd : cs[i]? = some d := hd
            exact Bool.eq_false_iff.2 (hzero d (List.mem_of_getElem? hd))
      · rw [if_neg hc, Nat.add_zero] at h
        rcases ih h with hnone | ⟨j, s, hs⟩
        · exact .inl (List.forall_mem_cons.2 ⟨Bool.eq_false_iff.2 hc, hnone⟩)
        · refine .inr ⟨j + 1, s, hs.at_, hs.signature, fun i d hi hd => ?_⟩
          cases i with
          | zero =>
              obtain rfl : c = d := Option.some.inj hd
              exact Bool.eq_false_iff.2 hc
          | succ i => exact hs.only i d (fun heq => hi (congrArg _ heq)) hd

theorem accepted_signs_or_unsigned (h : p.Accepted) :
    (∀ c ∈ p.commands, c.isSignature = false) ∨ ∃ j s, Signs p.commands j s :=
  signs_or_unsigned (by simpa using h.admitted.single)

theorem Signs.count (h : Signs cs j s) : cs.countP Command.isSignature = 1 := by
  induction cs generalizing j with
  | nil => cases h.at_
  | cons c cs ih =>
      rw [List.countP_cons]
      cases j with
      | zero =>
          obtain rfl : c = s := Option.some.inj h.at_
          have hrest : cs.countP Command.isSignature = 0 := by
            rw [List.countP_eq_zero]
            intro d hd
            obtain ⟨i, hi⟩ := List.mem_iff_getElem?.1 hd
            exact Bool.eq_false_iff.1 (h.only (i + 1) d (Nat.succ_ne_zero i) hi)
          rw [hrest, if_pos h.signature]
      | succ j =>
          have hc : c.isSignature = false := h.only 0 c (Nat.succ_ne_zero j).symm rfl
          rw [ih ⟨h.at_, h.signature, fun i d hi hd => h.only (i + 1) d (fun heq => hi (Nat.succ.inj heq)) hd⟩,
            if_neg (by simp [hc])]

/-- The link-edit segment is not the signature command. -/
theorem Leads.ne_signs (hk : Leads name cs k c) (hj : Signs cs j s) : k ≠ j := by
  rintro rfl
  obtain rfl : c = s := Option.some.inj (hk.at_.symm.trans hj.at_)
  have hnot := signature_not_segment hj.signature
  rw [hk.segment] at hnot
  cases hnot

/-! The numbers of a layout -/

theorem layout_size : (p.layout base scope).size = p.size := congrArg SliceLayout.size (p.layout_recorded base scope).fixed

theorem layout_ncmds : (p.layout base scope).ncmds = p.commands.length :=
  congrArg SliceLayout.ncmds (p.layout_recorded base scope).fixed

theorem layout_sizeofcmds : (p.layout base scope).sizeofcmds = (areaOf p.commands).length :=
  congrArg SliceLayout.sizeofcmds (p.layout_recorded base scope).fixed

theorem layout_headerEnd : (p.layout base scope).headerEnd = p.headerEnd :=
  congrArg SliceLayout.headerEnd (p.layout_recorded base scope).fixed

theorem layout_filetype : (p.layout base scope).filetype = leValue (slice p.header 12 4) :=
  congrArg SliceLayout.filetype (p.layout_recorded base scope).fixed

theorem layout_cputype : (p.layout base scope).cputype = leValue (slice p.header 4 4) :=
  congrArg SliceLayout.cputype (p.layout_recorded base scope).fixed

theorem layout_cpusubtype : (p.layout base scope).cpusubtype = leValue (slice p.header 8 4) :=
  congrArg SliceLayout.cpusubtype (p.layout_recorded base scope).fixed

theorem foldl_min_le (contents : List Nat) (most : Nat) : contents.foldl min most ≤ most := by
  induction contents generalizing most with
  | nil => exact Nat.le_refl _
  | cons content contents ih => exact (ih _).trans (Nat.min_le_left _ _)

theorem layout_firstContent : (p.layout base scope).firstContent ≤ p.size := by
  rw [(p.layout_recorded base scope).firstContent]
  exact foldl_min_le _ _

theorem layout_commands : (p.layout base scope).commands = (placed kHeader64Size p.commands).map entryAt := by
  rw [(p.layout_recorded base scope).commands]
  rfl

/-- A program is its bytes. -/
theorem program_injective (h : p.bytes = q.bytes) : p = q := by
  have hheader : p.header = q.header := by
    have htake := congrArg (List.take kHeader64Size) h
    rwa [Program.bytes, Program.bytes, List.append_assoc, List.append_assoc, List.take_left' p.headerLength,
      List.take_left' q.headerLength] at htake
  have hlen : (areaOf p.commands).length = (areaOf q.commands).length := by rw [← p.measured, ← q.measured, hheader]
  rw [Program.bytes, Program.bytes, List.append_assoc, List.append_assoc, hheader] at h
  obtain ⟨harea, hbody⟩ := List.append_inj (List.append_cancel_left h) hlen
  have hcommands := areaOf_injective harea
  cases p
  cases q
  cases hheader
  cases hcommands
  cases hbody
  rfl

end TheSeed.MachOLinks
