import TheSeed.MachOPlan

namespace TheSeed.MachOStrip

open Bytes Checked BoundedBytes MachOLayout MachOCommands MachOProgram MachOSigner MachOEdits MachOLinks MachOPlan

/-! What stripping makes of a signed program. -/

variable {path : String} {universal : Bool} {index cut : Nat} {entry : ContainerEntry} {file out : List UInt8}
  {p q : Program} {cs : List Command} {c d s : Command} {i j k offset : Nat} {header body : List UInt8}

theorem areaOf_erase (cs : List Command) (j : Nat) :
    areaOf (cs.eraseIdx j) = areaOf (cs.take j) ++ areaOf (cs.drop (j + 1)) := by
  rw [List.eraseIdx_eq_take_drop_succ, areaOf_append]

/-- Where the command with a number stands when another one before it is gone. -/
def numberAfter (j k : Nat) : Nat := if j < k then k - 1 else k

theorem getElem?_erase (hne : k ≠ j) : (cs.eraseIdx j)[numberAfter j k]? = cs[k]? := by
  rw [numberAfter, List.getElem?_eraseIdx]
  split
  · rw [if_neg (by omega)]
    congr 1
    omega
  · rw [if_pos (by omega)]

theorem commandAt_step (hj : cs[j]? = some s) (hlt : j < k) : commandAt cs j + s.bytes.length ≤ commandAt cs k := by
  have hk : cs.take k = cs.take (j + 1) ++ (cs.drop (j + 1)).take (k - (j + 1)) := by
    rw [← List.take_add, Nat.add_sub_of_le hlt]
  have hstep : areaOf (cs.take (j + 1)) = areaOf (cs.take j) ++ s.bytes := by
    rw [List.take_add_one, hj, areaOf_append]
    simp [areaOf]
  rw [commandAt, commandAt, hk, areaOf_append, hstep, List.length_append, List.length_append]
  omega

theorem commandAt_lt_iff (hj : cs[j]? = some s) (hk : cs[k]? = some c) (hne : k ≠ j) :
    commandAt cs j < commandAt cs k ↔ j < k := by
  have hs : 8 ≤ s.bytes.length := s.least
  constructor
  · intro h
    by_contra hge
    have hstep := commandAt_step hk (by omega : k < j)
    omega
  · intro h
    have hstep := commandAt_step hj h
    omega

theorem commandAt_erase (hj : cs[j]? = some s) : commandAt (cs.eraseIdx j) (numberAfter j k) =
    if j < k then commandAt cs k - s.bytes.length else commandAt cs k := by
  rw [numberAfter]
  split
  · rename_i hlt
    have hk : areaOf (cs.take k) = areaOf ((cs.take k).take j) ++ s.bytes ++ areaOf ((cs.take k).drop (j + 1)) :=
      areaOf_split (by rw [List.getElem?_take, if_pos hlt, hj])
    have herase : (cs.eraseIdx j).take (k - 1) = (cs.take k).eraseIdx j := by
      apply List.ext_getElem?
      intro i
      rw [List.getElem?_take, List.getElem?_eraseIdx, List.getElem?_eraseIdx, List.getElem?_take, List.getElem?_take]
      split_ifs <;> first | rfl | omega
    rw [commandAt, commandAt, herase, areaOf_erase, hk, List.length_append, List.length_append, List.length_append]
    omega
  · rename_i hge
    have herase : (cs.eraseIdx j).take k = cs.take k := by
      apply List.ext_getElem?
      intro i
      rw [List.getElem?_take, List.getElem?_take, List.getElem?_eraseIdx]
      split_ifs <;> first | rfl | omega
    rw [commandAt, commandAt, herase]

/-! The length of the command -/

/-- The fold that looks for the length of the command at a place. -/
def sizeAt (place : Nat) (entries : List LoadCommandEntry) (size : Nat) : Nat :=
  entries.foldl (fun size command => if command.offset = place then command.cmdsize else size) size

theorem sizeAt_later {place : Nat} (h : place < offset) (size : Nat) :
    sizeAt place ((placed offset cs).map entryAt) size = size := by
  induction cs generalizing offset with
  | nil => rfl
  | cons c cs ih =>
      rw [placed, List.map_cons, sizeAt, List.foldl_cons, entryAt, if_neg (Nat.ne_of_gt h)]
      exact ih (Nat.lt_of_lt_of_le h (Nat.le_add_right _ _))

theorem sizeAt_placed (hj : cs[j]? = some s) (size : Nat) :
    sizeAt (offset + (areaOf (cs.take j)).length) ((placed offset cs).map entryAt) size = s.bytes.length := by
  induction cs generalizing offset j size with
  | nil => cases hj
  | cons c cs ih =>
      have hc : 8 ≤ c.bytes.length := c.least
      rw [placed, List.map_cons, sizeAt, List.foldl_cons, entryAt]
      simp only
      cases j with
      | zero =>
          obtain rfl : c = s := Option.some.inj hj
          rw [List.take_zero, areaOf_nil, List.length_nil, Nat.add_zero, if_pos rfl]
          exact sizeAt_later (by omega) _
      | succ j =>
          rw [List.take_succ_cons, areaOf_cons, List.length_append, ← Nat.add_assoc, if_neg (by omega)]
          exact ih hj _

/-! The bytes -/

/-- The commands behind the signature command move up, and zeros fill the room behind them. -/
theorem overwrite_moved (hlen : header.length = kHeader64Size) (hj : cs[j]? = some s) :
    overwrite (overwrite (header ++ areaOf cs ++ body) (commandAt cs j)
        (slice (header ++ areaOf cs ++ body) (commandAt cs j + s.bytes.length)
          (kHeader64Size + (areaOf cs).length - (commandAt cs j + s.bytes.length))))
        (kHeader64Size + (areaOf cs).length - s.bytes.length) (List.replicate s.bytes.length 0) =
      header ++ areaOf (cs.eraseIdx j) ++ (List.replicate s.bytes.length 0 ++ body) := by
  have hsplit := areaOf_split hj
  have hbefore : commandAt cs j = (header ++ areaOf (cs.take j)).length := by
    rw [List.length_append, hlen, commandAt]
  have hlength : kHeader64Size + (areaOf cs).length =
      (header ++ areaOf (cs.take j)).length + s.bytes.length + (areaOf (cs.drop (j + 1))).length := by
    rw [hsplit, List.length_append, List.length_append, List.length_append, hlen]
    omega
  have hwhole : header ++ areaOf cs ++ body =
      (header ++ areaOf (cs.take j)) ++ (s.bytes ++ areaOf (cs.drop (j + 1)) ++ body) := by
    rw [hsplit]
    simp only [List.append_assoc]
  have hmoved : slice (header ++ areaOf cs ++ body) (commandAt cs j + s.bytes.length)
      (kHeader64Size + (areaOf cs).length - (commandAt cs j + s.bytes.length)) = areaOf (cs.drop (j + 1)) := by
    rw [hwhole, hbefore, hlength, slice_append_right (Nat.le_add_right _ _), List.append_assoc,
      slice_append_right (by omega), slice_append_left (by omega),
      show (header ++ areaOf (cs.take j)).length + s.bytes.length - (header ++ areaOf (cs.take j)).length -
        s.bytes.length = 0 by omega, Nat.add_sub_cancel_left, slice_all]
  rw [hmoved, hwhole, hbefore, hlength, Nat.add_right_comm, Nat.add_sub_cancel, overwrite_moved_up, areaOf_erase,
    List.append_assoc header]

/-- The size in memory that the link-edit segment has after its data was cut. -/
def vmsizeAfter (c : Command) (filesize cputype : Nat) : Nat :=
  if c.vmsize < filesize then alignUp filesize (pageSize cputype) else c.vmsize

/-- What stripping writes. -/
structure Strips (entry : ContainerEntry) (p : Program) (j : Nat) (s : Command) (cut k : Nat) (c : Command)
    (out : List UInt8) : Prop where
  kept : CutAt entry.slice (s.sig (commandAt p.commands j)) cut
  leads : Leads linkeditName p.commands k c
  before : c.fileoff ≤ cut
  bytes : out = recount p.header (p.commands.length - 1) ((areaOf p.commands).length - s.bytes.length) ++
    areaOf ((p.commands.eraseIdx j).set (numberAfter j k)
      (relink c (cut - c.fileoff) (vmsizeAfter c (cut - c.fileoff) entry.cputype))) ++
    (List.replicate s.bytes.length 0 ++ p.body.take (cut - p.headerEnd))

theorem stripSlice_strips (h : Holds file entry p) (hj : Signs p.commands j s)
    (hstrip : stripSlice path universal index file entry (s.sig (commandAt p.commands j)) = .ok out) :
    ∃ cut k c, Strips entry p j s cut k c out := by
  obtain ⟨cut, hcut, hstrip⟩ := bind_eq_ok.1 hstrip
  rw [requireSignatureAtEnd_eq_ok] at hcut
  have hkeeps : Keeps entry.slice cut := by
    rw [Keeps, h.signed hj]
    exact hcut
  obtain ⟨hend, hsize⟩ := hkeeps.bounds h
  cases hlinkedit : entry.slice.linkedit with
  | none =>
      rw [hlinkedit] at hstrip
      exact absurd hstrip refuseSlice_ne_ok
  | some linkedit =>
      obtain ⟨k, c, hk, rfl⟩ := h.linkedit_iff.1 hlinkedit
      have hne : k ≠ j := Leads.ne_signs hk hj
      have hfits := segment_length hk.segment (Leads.sound hk h.accepted)
      have hkc : (p.commands.eraseIdx j)[numberAfter j k]? = some c := by rw [getElem?_erase hne, hk.at_]
      have hlen : (recount p.header (p.commands.length - 1)
          ((areaOf p.commands).length - s.bytes.length)).length = kHeader64Size := by rw [recount_length, p.headerLength]
      have hsizeAt : entry.slice.commands.foldl (fun size command => if command.offset =
          (s.sig (commandAt p.commands j)).commandOffset then command.cmdsize else size) kSignatureCommandSize =
          s.bytes.length := by
        obtain ⟨scope, hlayout⟩ := h.layout
        rw [← hlayout, layout_commands]
        exact sizeAt_placed hj.at_ _
      have hcounts : entry.slice.ncmds = p.commands.length ∧ entry.slice.sizeofcmds = (areaOf p.commands).length := by
        obtain ⟨scope, hlayout⟩ := h.layout
        rw [← hlayout]
        exact ⟨layout_ncmds, layout_sizeofcmds⟩
      have hout : slice file entry.offset cut = p.header ++ areaOf p.commands ++ p.body.take (cut - p.headerEnd) := by
        have hresized := resized_program hend hsize cut (Nat.le_refl _)
        have hle : cut ≤ p.bytes.length := hsize
        rwa [resized, List.take_take, Nat.min_self, List.length_take, Nat.min_eq_left hle, Nat.sub_self,
          List.replicate_zero, List.append_nil, List.append_nil, ← h.take hsize] at hresized
      have hplace : (if (s.sig (commandAt p.commands j)).commandOffset <
            (c.segment (commandAt p.commands k)).commandOffset then
          (c.segment (commandAt p.commands k)).commandOffset - s.bytes.length
        else (c.segment (commandAt p.commands k)).commandOffset) =
          commandAt (p.commands.eraseIdx j) (numberAfter j k) := by
        rw [commandAt_erase hj.at_]
        simp only [Command.sig, Command.segment, commandAt_lt_iff hj.at_ hk.at_ hne]
      rw [hlinkedit] at hstrip
      obtain ⟨⟨⟩, hbefore, hstrip⟩ := bind_eq_ok.1 hstrip
      rw [refuseSliceIf_eq_ok, Nat.not_lt] at hbefore
      simp only [hsizeAt, hcounts.1, hcounts.2, h.slice_headerEnd, hout, hplace] at hstrip
      have hmoved := @overwrite_moved p.commands s j p.header (p.body.take (cut - p.headerEnd)) p.headerLength hj.at_
      rw [show (s.sig (commandAt p.commands j)).commandOffset = commandAt p.commands j from rfl, Program.headerEnd] at hstrip
      rw [Program.headerEnd] at hmoved
      rw [hmoved, overwrite_recount p.headerLength] at hstrip
      refine ⟨cut, k, c, hcut, hk, hbefore, ?_⟩
      by_cases hless : (c.segment (commandAt p.commands k)).vmsize < cut - (c.segment (commandAt p.commands k)).fileoff
      · rw [if_pos hless] at hstrip
        have hlarger : c.vmsize < cut - c.fileoff := hless
        rw [← Except.ok.inj hstrip, vmsizeAfter, if_pos hlarger]
        exact overwrite_relink hlen hkc hfits _ _
      · rw [if_neg hless] at hstrip
        have hlarger : ¬c.vmsize < cut - c.fileoff := hless
        rw [← Except.ok.inj hstrip, vmsizeAfter, if_neg hlarger, relink_keep hfits]
        exact overwrite_command hlen hkc (by decide) (by
          rw [length_leBytes]
          exact Nat.le_trans (by decide) hfits)

/-! The stripped program -/

/-- What a stripped program has in common with the program before. -/
structure StrippedInto (p q : Program) (k cut : Nat) : Prop where
  size : q.size = cut
  unsigned : ∀ d ∈ q.commands, d.isSignature = false
  sound : ∀ d ∈ q.commands, d.Sound
  fits : Fits q.size q.commands ↔
    ∀ i d, i ≠ k → p.commands[i]? = some d → d.isSegment = true → d.fileoff + d.filesize ≤ q.size
  cpu : slice q.header 4 8 = slice p.header 4 8

/-- The parser takes it when every other segment has its data before the cut. -/
theorem StrippedInto.accepted (h : StrippedInto p q k cut) : q.Accepted ↔
    ∀ i d, i ≠ k → p.commands[i]? = some d → d.isSegment = true → d.fileoff + d.filesize ≤ q.size := by
  constructor
  · exact fun haccepted => h.fits.1 haccepted.fits
  · intro hothers
    refine ⟨⟨h.sound, fun d hd hsignature => ?_, ?_⟩, h.fits.2 hothers⟩
    · rw [h.unsigned d hd] at hsignature
      cases hsignature
    · have hzero : q.commands.countP Command.isSignature = 0 :=
        List.countP_eq_zero.2 fun d hd => Bool.eq_false_iff.1 (h.unsigned d hd)
      rw [hzero]
      exact Nat.zero_le _

/-- Where a command that remains came from. -/
theorem exists_before_erase (h : (cs.eraseIdx j)[i]? = some d) : ∃ i', i' ≠ j ∧ numberAfter j i' = i ∧ cs[i']? = some d := by
  rw [List.getElem?_eraseIdx] at h
  split at h
  · exact ⟨i, by omega, by rw [numberAfter, if_neg (by omega)], h⟩
  · exact ⟨i + 1, by omega, by rw [numberAfter, if_pos (by omega), Nat.add_sub_cancel], h⟩

theorem numberAfter_injective (hi : i ≠ j) (hk : k ≠ j) (h : numberAfter j i = numberAfter j k) : i = k := by
  rw [numberAfter, numberAfter] at h
  split at h <;> split at h <;> omega

theorem Strips.stripped (h : Holds file entry p) (hj : Signs p.commands j s) (hs : Strips entry p j s cut k c out) :
    ∃ q : Program, out = q.bytes ∧ StrippedInto p q k cut := by
  have hne : k ≠ j := Leads.ne_signs hs.leads hj
  have hsound : c.Sound := Leads.sound hs.leads h.accepted
  have hkeeps : Keeps entry.slice cut := by
    rw [Keeps, h.signed hj]
    exact hs.kept
  obtain ⟨hend, hsize⟩ := hkeeps.bounds h
  have hbefore := hs.before
  have hwhole := p.size_eq
  have hkc : (p.commands.eraseIdx j)[numberAfter j k]? = some c := by rw [getElem?_erase hne, hs.leads.at_]
  have hltj : j < p.commands.length := (List.getElem?_eq_some_iff.1 hj.at_).1
  obtain ⟨hcount, hsmall⟩ := commands_small p
  have hsplit : (areaOf p.commands).length = (areaOf (p.commands.eraseIdx j)).length + s.bytes.length := by
    rw [areaOf_split hj.at_, areaOf_erase, List.length_append, List.length_append, List.length_append]
    omega
  have harea : ∀ v, (areaOf ((p.commands.eraseIdx j).set (numberAfter j k) (relink c (cut - c.fileoff) v))).length =
      (areaOf p.commands).length - s.bytes.length := by
    intro v
    rw [length_areaOf_set relink_length hkc, hsplit, Nat.add_sub_cancel]
  obtain ⟨q, hheader, hcommands, hbody⟩ : ∃ q : Program,
      q.header = recount p.header (p.commands.length - 1) ((areaOf p.commands).length - s.bytes.length) ∧
      q.commands = (p.commands.eraseIdx j).set (numberAfter j k)
        (relink c (cut - c.fileoff) (vmsizeAfter c (cut - c.fileoff) entry.cputype)) ∧
      q.body = List.replicate s.bytes.length 0 ++ p.body.take (cut - p.headerEnd) := by
    refine exists_program (by rw [recount_length, p.headerLength]) (by rw [recount_before (by decide), p.magic]) ?_ ?_
    · rw [recount_ncmds p.headerLength (by omega), List.length_set, List.length_eraseIdx, if_pos hltj]
    · rw [recount_sizeofcmds p.headerLength (by omega), harea]
  have hqsize : q.size = cut := by
    have hpend : p.headerEnd = kHeader64Size + (areaOf p.commands).length := rfl
    rw [q.size_eq, Program.headerEnd, hcommands, hbody, harea, List.length_append, List.length_replicate,
      List.length_take]
    omega
  refine ⟨q, ?_, hqsize, fun d hd => ?_, ?_, ?_, ?_⟩
  · rw [Program.bytes, hheader, hcommands, hbody]
    exact hs.bytes
  · rw [hcommands] at hd
    rcases List.mem_or_eq_of_mem_set hd with hd | rfl
    · obtain ⟨i, hi⟩ := List.mem_iff_getElem?.1 hd
      obtain ⟨i', hne', -, hi'⟩ := exists_before_erase hi
      exact hj.only i' d hne' hi'
    · rw [relink_isSignature]
      exact hj.only k c hne hs.leads.at_
  · rw [hcommands]
    exact sound_relinked hkc hs.leads.segment fun d hd => h.accepted.admitted.sound d (List.mem_of_mem_eraseIdx hd)
  · rw [hqsize, hcommands,
      fits_relinked hkc hs.leads.segment hsound (by omega : c.fileoff + (cut - c.fileoff) ≤ cut) fun i d _ _ => Iff.rfl]
    constructor
    · intro hothers i d hi hd hseg
      have hij : i ≠ j := by
        rintro rfl
        obtain rfl : s = d := Option.some.inj (hj.at_.symm.trans hd)
        rw [signature_not_segment hj.signature] at hseg
        cases hseg
      exact hothers (numberAfter j i) d (fun heq => hi (numberAfter_injective hij hne heq)) (by rw [getElem?_erase hij, hd])
        hseg
    · intro hothers i d hi hd hseg
      obtain ⟨i', hij, rfl, hd'⟩ := exists_before_erase hd
      exact hothers i' d (fun heq => hi (by rw [heq])) hd' hseg
  · rw [hheader]
    exact recount_before (by decide)

end TheSeed.MachOStrip
