import TheSeed.MachOLinks

namespace TheSeed.MachOPlan

open Bytes Checked BoundedBytes MachOLayout MachOCommands MachOProgram MachOSigner MachOEdits MachOLinks

/-! What planning a slice asks for, and the program that it makes. -/

variable {hash : List UInt8 → Digest} {path : String} {universal : Bool} {index cputype kept capacity : Nat}
  {layout : SliceLayout} {sig : CodeSignatureLayout} {entry : ContainerEntry} {linkedit : SegmentLayout}
  {file identity : List UInt8} {plan : SlicePlan}

/-- The old signature is at the end of the program, and the cut is before it. -/
def CutAt (layout : SliceLayout) (sig : CodeSignatureLayout) (kept : Nat) : Prop :=
  if sig.dataoff = 0 ∧ sig.datasize = 0 then kept = layout.size
  else sig.dataoff + sig.datasize = layout.size ∧ kept = sig.dataoff

theorem refuseSliceIf_eq_ok {c : Prop} [Decidable c] {reason : String} {u : Unit} :
    refuseSliceIf c path universal index cputype reason = .ok u ↔ ¬c := by
  rw [refuseSliceIf]
  split
  · rename_i hc
    refine iff_of_false ?_ (not_not.2 hc)
    intro h
    rw [refuseSlice] at h
    split at h <;> cases h
  · rename_i hc
    exact iff_of_true rfl hc

theorem refuseSlice_ne_ok {α : Type} {reason : String} {a : α} :
    refuseSlice path universal index cputype reason ≠ .ok a := by
  intro h
  rw [refuseSlice] at h
  split at h <;> cases h

theorem refuseIf_eq_ok {c : Prop} [Decidable c] {text : String} {u : Unit} : refuseIf c path text = .ok u ↔ ¬c := by
  rw [refuseIf]
  split
  · rename_i hc
    exact iff_of_false (fun h => by cases h) (not_not.2 hc)
  · rename_i hc
    exact iff_of_true rfl hc

theorem requireSignatureAtEnd_eq_ok :
    requireSignatureAtEnd path universal index cputype layout sig = .ok kept ↔ CutAt layout sig kept := by
  rw [requireSignatureAtEnd, CutAt]
  split
  · exact ⟨fun h => (Except.ok.inj h).symm, fun h => congrArg _ h.symm⟩
  · simp only [bind_eq_ok, refuseSliceIf_eq_ok, exists_const, not_not, pure_eq_ok, Except.ok.injEq]
    exact and_congr_right fun _ => eq_comm

/-- The bytes that stay: all of them, or those before the old signature. -/
def Keeps (layout : SliceLayout) (kept : Nat) : Prop :=
  match layout.codesig with
  | some sig => CutAt layout sig kept
  | none => kept = layout.size

theorem keptSize_eq_ok : keptSize path universal index entry = .ok kept ↔ Keeps entry.slice kept := by
  rw [keptSize, Keeps]
  cases entry.slice.codesig with
  | some sig => exact requireSignatureAtEnd_eq_ok
  | none => exact ⟨fun h => (Except.ok.inj h).symm, fun h => congrArg _ h.symm⟩

/-- The length that is reserved for a signature. -/
def reserved (identity : List UInt8) (dataoff capacity : Nat) : Nat :=
  align16 (superBlobFixedSize + cdSize identity dataoff + capacity)

/-- What planning asks of a slice. -/
structure CanSign (entry : ContainerEntry) (linkedit : SegmentLayout) (kept : Nat) (identity : List UInt8)
    (capacity : Nat) : Prop where
  before : linkedit.fileoff ≤ kept
  atEnd : linkedit.fileoff + linkedit.filesize = entry.slice.size
  room : entry.slice.codesig.isSome = false → kSignatureCommandSize ≤ entry.slice.freeHeaderSpace
  countable : entry.slice.codesig.isSome = false → entry.slice.ncmds ≠ kUint32Max
  identified : 0 ∉ identity
  dataFits : align16 kept + reserved identity (align16 kept) capacity ≤ kUint32Max
  directoryFits : cdSize identity (align16 kept) ≤ kUint32Max

/-- The bytes of the slice with zeros where the signature goes. -/
def planBytes (file : List UInt8) (entry : ContainerEntry) (linkedit : SegmentLayout) (kept dataoff datasize : Nat) :
    List UInt8 :=
  let out := resized (slice file entry.offset kept) (dataoff + datasize)
  let out := writeSignatureCommand entry.slice dataoff datasize out
  let linkeditSize := dataoff + datasize - linkedit.fileoff
  let out := writeLE64 out (linkedit.commandOffset + kSegmentFilesizeField) linkeditSize
  writeLE64 out (linkedit.commandOffset + kSegmentVmsizeField) (alignUp linkeditSize (pageSize entry.cputype))

/-- The plan for a program with these bytes. -/
def planOf (hash : List UInt8 → Digest) (entry : ContainerEntry) (identity out : List UInt8) (dataoff datasize : Nat) :
    SlicePlan :=
  let cd := codeDirectory hash entry.slice identity out dataoff
  ⟨entry.cputype, entry.cpusubtype, out, dataoff, datasize, cd, hash cd⟩

theorem planSlice_eq_ok : planSlice hash path universal index file entry identity capacity = .ok plan ↔
    ∃ kept linkedit, Keeps entry.slice kept ∧ entry.slice.linkedit = some linkedit ∧
      CanSign entry linkedit kept identity capacity ∧
      planOf hash entry identity
        (planBytes file entry linkedit kept (align16 kept) (reserved identity (align16 kept) capacity))
        (align16 kept) (reserved identity (align16 kept) capacity) = plan := by
  rw [planSlice]
  simp only [bind_eq_ok, keptSize_eq_ok]
  cases hlinkedit : entry.slice.linkedit with
  | none =>
      constructor
      · rintro ⟨kept, -, h⟩
        exact absurd h refuseSlice_ne_ok
      · rintro ⟨kept, linkedit, -, h, -⟩
        cases h
  | some segment =>
      simp only [bind_eq_ok, refuseSliceIf_eq_ok, exists_const, pure_eq_ok, Except.ok.injEq, not_or, not_and, not_lt,
        not_not]
      constructor
      · rintro ⟨kept, hkept, ⟨hbefore, hend⟩, hroom, hcount, hidentity, ⟨hdata, hdirectory⟩, rfl⟩
        exact ⟨kept, segment, hkept, rfl, ⟨hbefore, hend, hroom, hcount, hidentity, hdata, hdirectory⟩, rfl⟩
      · rintro ⟨kept, linkedit, hkept, h, hcan, rfl⟩
        cases h
        exact ⟨kept, hkept, ⟨hcan.before, hcan.atEnd⟩, hcan.room, hcan.countable, hcan.identified,
          ⟨hcan.dataFits, hcan.directoryFits⟩, rfl⟩

/-! The planned program -/

variable {p q : Program} {k j dataoff datasize : Nat} {c s : Command}

/-- The entry is for this program, which the parser took. -/
structure Holds (file : List UInt8) (entry : ContainerEntry) (p : Program) : Prop where
  inside : entry.offset + entry.size ≤ file.length
  bytes : slice file entry.offset entry.size = p.bytes
  accepted : p.Accepted
  layout : ∃ scope, p.layout entry.offset scope = entry.slice

theorem Holds.size (h : Holds file entry p) : entry.size = p.size := by
  rw [Program.size, ← h.bytes, length_slice_of_le h.inside]

theorem Holds.slice_size (h : Holds file entry p) : entry.slice.size = p.size := by
  obtain ⟨scope, hlayout⟩ := h.layout
  rw [← hlayout, layout_size]

theorem Holds.slice_headerEnd (h : Holds file entry p) : entry.slice.headerEnd = p.headerEnd := by
  obtain ⟨scope, hlayout⟩ := h.layout
  rw [← hlayout, layout_headerEnd]

theorem Holds.linkedit_iff (h : Holds file entry p) : entry.slice.linkedit = some linkedit ↔
    ∃ k c, Leads linkeditName p.commands k c ∧ c.segment (commandAt p.commands k) = linkedit := by
  obtain ⟨scope, hlayout⟩ := h.layout
  rw [← hlayout]
  exact layout_linkedit

theorem Holds.text_iff (h : Holds file entry p) {text : SegmentLayout} : entry.slice.text = some text ↔
    ∃ k c, Leads textName p.commands k c ∧ c.segment (commandAt p.commands k) = text := by
  obtain ⟨scope, hlayout⟩ := h.layout
  rw [← hlayout]
  exact layout_text

theorem Holds.unsigned (h : Holds file entry p) (hnone : ∀ c ∈ p.commands, c.isSignature = false) :
    entry.slice.codesig = none := by
  obtain ⟨scope, hlayout⟩ := h.layout
  rw [← hlayout]
  exact layout_codesig_none hnone

theorem Holds.signed (h : Holds file entry p) (hj : Signs p.commands j s) :
    entry.slice.codesig = some (s.sig (commandAt p.commands j)) := by
  obtain ⟨scope, hlayout⟩ := h.layout
  rw [← hlayout]
  exact layout_codesig_some hj

theorem Holds.take (h : Holds file entry p) (hkept : kept ≤ p.size) : slice file entry.offset kept = p.bytes.take kept := by
  rw [← h.bytes, h.size, ← slice_zero, slice_slice (by omega), Nat.add_zero]

theorem Leads.sound {name : List UInt8} (hk : Leads name p.commands k c) (h : p.Accepted) : c.Sound :=
  h.admitted.sound c (List.mem_of_getElem? hk.at_)

theorem headerEnd_le_size (p : Program) : p.headerEnd ≤ p.size := by
  rw [p.size_eq]
  exact Nat.le_add_right _ _

/-- The cut is behind the load commands. -/
theorem Keeps.bounds (h : Holds file entry p) (hkept : Keeps entry.slice kept) : p.headerEnd ≤ kept ∧ kept ≤ p.size := by
  have hwhole := headerEnd_le_size p
  rw [Keeps] at hkept
  rcases accepted_signs_or_unsigned h.accepted with hnone | ⟨j, s, hj⟩
  · rw [h.unsigned hnone] at hkept
    rw [show kept = entry.slice.size from hkept, h.slice_size]
    exact ⟨hwhole, Nat.le_refl _⟩
  · rw [h.signed hj] at hkept
    have hcut : CutAt entry.slice (s.sig (commandAt p.commands j)) kept := hkept
    rw [CutAt, h.slice_size] at hcut
    split at hcut
    · rw [hcut]
      exact ⟨hwhole, Nat.le_refl _⟩
    · obtain ⟨hend, rfl⟩ := hcut
      have hpoints := h.accepted.admitted.points s (List.mem_of_getElem? hj.at_) hj.signature
      simp only [Command.sig] at hend ⊢
      refine ⟨?_, by omega⟩
      by_cases hzero : s.datasize = 0
      · omega
      · exact hpoints.behind hzero

theorem keeps_unsigned (h : Holds file entry p) (hnone : ∀ c ∈ p.commands, c.isSignature = false) :
    Keeps entry.slice kept ↔ kept = p.size := by
  rw [Keeps, h.unsigned hnone]
  simp only [h.slice_size]

/-- A program cut off behind its load commands, with zeros where it is longer. -/
theorem resized_program (hkept : p.headerEnd ≤ kept) (hsize : kept ≤ p.size) (n : Nat) (hn : kept ≤ n) :
    resized (p.bytes.take kept) n =
      p.header ++ areaOf p.commands ++ (p.body.take (kept - p.headerEnd) ++ List.replicate (n - kept) 0) := by
  have hlen : (p.header ++ areaOf p.commands).length = p.headerEnd := by
    rw [List.length_append, p.headerLength, Program.headerEnd]
  have htake : (p.bytes.take kept).length = kept := by
    rw [List.length_take]
    exact Nat.min_eq_left hsize
  rw [resized, List.take_of_length_le (by rw [htake]; exact hn), htake, Program.bytes, List.take_append, hlen,
    List.take_of_length_le (by rw [hlen]; exact hkept), List.append_assoc _ _ (List.replicate _ _)]

theorem exists_program {header body : List UInt8} {commands : List Command} (hlen : header.length = kHeader64Size)
    (hmagic : beValue (slice header 0 4) = kBytesThin64Little) (hcounted : leValue (slice header 16 4) = commands.length)
    (hmeasured : leValue (slice header 20 4) = (areaOf commands).length) :
    ∃ q : Program, q.header = header ∧ q.commands = commands ∧ q.body = body :=
  ⟨⟨header, commands, body, hlen, hmagic, hcounted, hmeasured⟩, rfl, rfl, rfl⟩

theorem commands_small (p : Program) : p.commands.length < 2 ^ 32 ∧ (areaOf p.commands).length < 2 ^ 32 := by
  have hcount := leValue_lt (slice p.header 16 4)
  have harea := leValue_lt (slice p.header 20 4)
  rw [p.counted, length_slice_of_le (by rw [p.headerLength]; decide)] at hcount
  rw [p.measured, length_slice_of_le (by rw [p.headerLength]; decide)] at harea
  exact ⟨hcount, harea⟩

/-- What planning writes into an unsigned program. -/
theorem planBytes_unsigned (h : Holds file entry p) (hnone : ∀ c ∈ p.commands, c.isSignature = false)
    (hk : Leads linkeditName p.commands k c) (hroom : kSignatureCommandSize ≤ p.body.length)
    (hlong : p.size ≤ dataoff + datasize) :
    planBytes file entry (c.segment (commandAt p.commands k)) p.size dataoff datasize =
      recount p.header (p.commands.length + 1) ((areaOf p.commands).length + kSignatureCommandSize) ++
        areaOf ((p.commands ++ [signatureCommand dataoff datasize]).set k
          (relink c (dataoff + datasize - c.fileoff)
            (alignUp (dataoff + datasize - c.fileoff) (pageSize entry.cputype)))) ++
        (p.body ++ List.replicate (dataoff + datasize - p.size) 0).drop kSignatureCommandSize := by
  obtain ⟨scope, hlayout⟩ := h.layout
  have hlen : (recount p.header (p.commands.length + 1)
      ((areaOf p.commands).length + kSignatureCommandSize)).length = kHeader64Size := by
    rw [recount_length, p.headerLength]
  have hkc : (p.commands ++ [signatureCommand dataoff datasize])[k]? = some c := by
    rw [List.getElem?_append_left (List.getElem?_eq_some_iff.1 hk.at_).1, hk.at_]
  have hat : commandAt (p.commands ++ [signatureCommand dataoff datasize]) k = commandAt p.commands k := by
    rw [commandAt, commandAt, List.take_append_of_le_length (List.getElem?_eq_some_iff.1 hk.at_).1.le]
  have hbody : kSignatureCommandSize ≤ (p.body ++ List.replicate (dataoff + datasize - p.size) 0).length := by
    rw [List.length_append]
    omega
  have hwhole : p.body.take (p.size - p.headerEnd) = p.body :=
    List.take_of_length_le (by have hsize := p.size_eq; omega)
  rw [planBytes, h.take (Nat.le_refl _), resized_program (headerEnd_le_size p) (Nat.le_refl _) _ hlong, hwhole]
  simp only [writeSignatureCommand, h.unsigned hnone]
  rw [h.slice_headerEnd, ← hlayout, layout_ncmds, layout_sizeofcmds, write_signatureCommand, Program.headerEnd, overwrite_new p.headerLength hbody, overwrite_recount p.headerLength]
  simp only [Command.segment]
  rw [← hat, overwrite_relink hlen hkc (segment_length hk.segment (Leads.sound hk h.accepted))]

/-- What planning writes into a signed program. -/
theorem planBytes_signed (h : Holds file entry p) (hj : Signs p.commands j s) (hk : Leads linkeditName p.commands k c)
    (hkept : p.headerEnd ≤ kept) (hsize : kept ≤ p.size) (hlong : kept ≤ dataoff + datasize) :
    planBytes file entry (c.segment (commandAt p.commands k)) kept dataoff datasize =
      p.header ++
        areaOf ((p.commands.set j (resign s dataoff datasize)).set k
          (relink c (dataoff + datasize - c.fileoff)
            (alignUp (dataoff + datasize - c.fileoff) (pageSize entry.cputype)))) ++
        (p.body.take (kept - p.headerEnd) ++ List.replicate (dataoff + datasize - kept) 0) := by
  have hne : k ≠ j := Leads.ne_signs hk hj
  have hsound := (signature_sound hj.signature).1 (h.accepted.admitted.sound s (List.mem_of_getElem? hj.at_))
  have hkc : (p.commands.set j (resign s dataoff datasize))[k]? = some c := by
    rw [List.getElem?_set_ne (Ne.symm hne), hk.at_]
  have hat : commandAt (p.commands.set j (resign s dataoff datasize)) k = commandAt p.commands k :=
    commandAt_set resign_length hj.at_ k
  rw [planBytes, h.take hsize, resized_program hkept hsize _ hlong]
  simp only [writeSignatureCommand, h.signed hj, Command.sig, Command.segment]
  rw [overwrite_resign p.headerLength hj.at_ hsound, ← hat,
    overwrite_relink p.headerLength hkc (segment_length hk.segment (Leads.sound hk h.accepted))]

theorem le_align16 (value : Nat) : value ≤ align16 value := by
  rw [align16]
  omega

theorem align16_align16 (value : Nat) : align16 (align16 value) = align16 value := by
  rw [align16, align16]
  omega

/-- What a signed program has in common with the program before, and what it says of its signature. -/
structure SignedInto (p q : Program) (k dataoff datasize : Nat) : Prop where
  size : q.size = dataoff + datasize
  behind : q.headerEnd ≤ dataoff
  signature : ∃ j s, Signs q.commands j s ∧ s.dataoff = dataoff ∧ s.datasize = datasize
  sound : ∀ d ∈ q.commands, d.Sound
  fits : Fits q.size q.commands ↔
    ∀ i d, i ≠ k → p.commands[i]? = some d → d.isSegment = true → d.fileoff + d.filesize ≤ q.size
  cpu : slice q.header 4 8 = slice p.header 4 8

/-- The parser takes it when every other segment has its data inside it. -/
theorem SignedInto.accepted (h : SignedInto p q k dataoff datasize) : q.Accepted ↔
    ∀ i d, i ≠ k → p.commands[i]? = some d → d.isSegment = true → d.fileoff + d.filesize ≤ q.size := by
  obtain ⟨j, s, hj, hdataoff, hdatasize⟩ := h.signature
  constructor
  · exact fun haccepted => h.fits.1 haccepted.fits
  · intro hothers
    refine ⟨⟨h.sound, fun d hd hsignature => ?_, ?_⟩, h.fits.2 hothers⟩
    · obtain ⟨i, hi⟩ := List.mem_iff_getElem?.1 hd
      have hij : i = j := by
        by_contra hne
        rw [hj.only i d hne hi] at hsignature
        cases hsignature
      subst hij
      obtain rfl : s = d := Option.some.inj (hj.at_.symm.trans hi)
      exact ⟨by rw [hdataoff, hdatasize, h.size], fun _ => by rw [hdataoff]; exact h.behind⟩
    · rw [hj.count]
      exact Nat.le_refl _

/-- The commands of an unsigned program with a new one behind them, and with the link-edit segment changed. -/
theorem signs_appended (hnone : ∀ c ∈ p.commands, c.isSignature = false) (hk : Leads linkeditName p.commands k c)
    (filesize vmsize : Nat) : Signs ((p.commands ++ [signatureCommand dataoff datasize]).set k (relink c filesize vmsize))
      p.commands.length (signatureCommand dataoff datasize) := by
  have hlt : k < p.commands.length := (List.getElem?_eq_some_iff.1 hk.at_).1
  refine ⟨?_, signatureCommand_isSignature, fun i d hi hd => ?_⟩
  · rw [List.getElem?_set_ne (Nat.ne_of_lt hlt), List.getElem?_append_right (Nat.le_refl _), Nat.sub_self]
    rfl
  · by_cases hik : k = i
    · subst hik
      rw [List.getElem?_set_self (by rw [List.length_append]; omega)] at hd
      obtain rfl := Option.some.inj hd
      rw [relink_isSignature]
      exact hnone c (List.mem_of_getElem? hk.at_)
    · rw [List.getElem?_set_ne hik] at hd
      have hbound : i < p.commands.length := by
        have hlen := (List.getElem?_eq_some_iff.1 hd).1
        rw [List.length_append, List.length_singleton] at hlen
        omega
      rw [List.getElem?_append_left hbound] at hd
      exact hnone d (List.mem_of_getElem? hd)

theorem signs_resigned (hj : Signs p.commands j s) (hk : Leads linkeditName p.commands k c) (filesize vmsize : Nat) :
    Signs ((p.commands.set j (resign s dataoff datasize)).set k (relink c filesize vmsize)) j
      (resign s dataoff datasize) := by
  have hne : k ≠ j := Leads.ne_signs hk hj
  have hlt : k < p.commands.length := (List.getElem?_eq_some_iff.1 hk.at_).1
  have hltj : j < p.commands.length := (List.getElem?_eq_some_iff.1 hj.at_).1
  refine ⟨?_, ?_, fun i d hi hd => ?_⟩
  · rw [List.getElem?_set_ne hne, List.getElem?_set_self hltj]
  · rw [resign_isSignature, hj.signature]
  · by_cases hik : k = i
    · subst hik
      rw [List.getElem?_set_self (by rw [List.length_set]; exact hlt)] at hd
      obtain rfl := Option.some.inj hd
      rw [relink_isSignature]
      exact hj.only k c hi hk.at_
    · rw [List.getElem?_set_ne hik, List.getElem?_set_ne (Ne.symm hi)] at hd
      exact hj.only i d hi hd

/-- The segments of changed commands, when a change leaves all but the link-edit segment as they were. -/
theorem fits_relinked {cs ds : List Command} {size filesize vmsize : Nat} (hk : cs[k]? = some c) (hsegment : c.isSegment = true)
    (hsound : c.Sound) (hend : c.fileoff + filesize ≤ size)
    (hsame : ∀ i d, i ≠ k → d.isSegment = true → (cs[i]? = some d ↔ ds[i]? = some d)) :
    Fits size (cs.set k (relink c filesize vmsize)) ↔
      ∀ i d, i ≠ k → ds[i]? = some d → d.isSegment = true → d.fileoff + d.filesize ≤ size := by
  have hlt : k < cs.length := (List.getElem?_eq_some_iff.1 hk).1
  constructor
  · intro h i d hi hd hseg
    refine h d (List.mem_iff_getElem?.2 ⟨i, ?_⟩) hseg
    rw [List.getElem?_set_ne (Ne.symm hi)]
    exact (hsame i d hi hseg).2 hd
  · intro h d hd hseg
    obtain ⟨i, hi⟩ := List.mem_iff_getElem?.1 hd
    by_cases hik : k = i
    · subst hik
      rw [List.getElem?_set_self hlt] at hi
      obtain rfl := Option.some.inj hi
      rw [relink_fileoff, relink_filesize (segment_length hsegment hsound)]
      exact (Nat.add_le_add_left (Nat.mod_le _ _) _).trans hend
    · rw [List.getElem?_set_ne hik] at hi
      exact h i d (Ne.symm hik) ((hsame i d (Ne.symm hik) hseg).1 hi) hseg

theorem sound_relinked {cs : List Command} {filesize vmsize : Nat} (hk : cs[k]? = some c) (hsegment : c.isSegment = true)
    (h : ∀ d ∈ cs, d.Sound) : ∀ d ∈ cs.set k (relink c filesize vmsize), d.Sound := by
  intro d hd
  rcases List.mem_or_eq_of_mem_set hd with hd | rfl
  · exact h d hd
  · exact (relink_sound hsegment).2 (h c (List.mem_of_getElem? hk))

theorem CanSign.body_room (h : Holds file entry p) (hnone : ∀ c ∈ p.commands, c.isSignature = false)
    (hcan : CanSign entry linkedit kept identity capacity) : kSignatureCommandSize ≤ p.body.length := by
  obtain ⟨scope, hlayout⟩ := h.layout
  have hroom := hcan.room (by rw [h.unsigned hnone]; rfl)
  have hfirst : entry.slice.firstContent ≤ p.size := by
    rw [← hlayout]
    exact layout_firstContent
  have hsize := p.size_eq
  rw [SliceLayout.freeHeaderSpace, h.slice_headerEnd] at hroom
  omega

theorem CanSign.bounds (hcan : CanSign entry linkedit kept identity capacity) :
    align16 kept + reserved identity (align16 kept) capacity < 2 ^ 32 := by
  have h := hcan.dataFits
  rw [kUint32Max] at h
  omega

/-- The program that planning makes of an unsigned one. -/
theorem signed_unsigned (h : Holds file entry p) (hnone : ∀ c ∈ p.commands, c.isSignature = false)
    (hk : Leads linkeditName p.commands k c)
    (hcan : CanSign entry (c.segment (commandAt p.commands k)) p.size identity capacity) :
    ∃ q : Program, planBytes file entry (c.segment (commandAt p.commands k)) p.size (align16 p.size)
        (reserved identity (align16 p.size) capacity) = q.bytes ∧
      SignedInto p q k (align16 p.size) (reserved identity (align16 p.size) capacity) := by
  have hroom := hcan.body_room h hnone
  have hbounds := hcan.bounds
  have hsize := p.size_eq
  have hfixed : kSignatureCommandSize = 16 := rfl
  have halign := le_align16 p.size
  have hlt : k < p.commands.length := (List.getElem?_eq_some_iff.1 hk.at_).1
  have hcount : p.commands.length + 1 < 2 ^ 32 := by
    have hcountable := hcan.countable (by rw [h.unsigned hnone]; rfl)
    have hncmds : entry.slice.ncmds = p.commands.length := by
      obtain ⟨scope, hlayout⟩ := h.layout
      rw [← hlayout, layout_ncmds]
    have hsmall := (commands_small p).1
    rw [hncmds, kUint32Max] at hcountable
    omega
  rw [planBytes_unsigned h hnone hk hroom (by omega)]
  generalize align16 p.size = dataoff at *
  generalize reserved identity dataoff capacity = datasize at *
  have hat : (p.commands ++ [signatureCommand dataoff datasize])[k]? = some c := by
    rw [List.getElem?_append_left hlt, hk.at_]
  have hbefore : c.fileoff ≤ p.size := hcan.before
  have harea : ∀ v, (areaOf ((p.commands ++ [signatureCommand dataoff datasize]).set k
      (relink c (dataoff + datasize - c.fileoff) v))).length = (areaOf p.commands).length + kSignatureCommandSize := by
    intro v
    rw [length_areaOf_set relink_length hat, areaOf_append, List.length_append, areaOf_cons, areaOf_nil, List.append_nil,
      signatureCommand_length]
  have hend : p.headerEnd = kHeader64Size + (areaOf p.commands).length := rfl
  refine ⟨⟨recount p.header (p.commands.length + 1) ((areaOf p.commands).length + kSignatureCommandSize),
    (p.commands ++ [signatureCommand dataoff datasize]).set k (relink c (dataoff + datasize - c.fileoff)
      (alignUp (dataoff + datasize - c.fileoff) (pageSize entry.cputype))),
    (p.body ++ List.replicate (dataoff + datasize - p.size) 0).drop kSignatureCommandSize,
    by rw [recount_length, p.headerLength], by rw [recount_before (by decide), p.magic], ?_, ?_⟩, rfl, ?_⟩
  · rw [recount_ncmds p.headerLength hcount, List.length_set, List.length_append, List.length_singleton]
  · rw [recount_sizeofcmds p.headerLength (by omega), harea]
  · have hqsize : ∀ q : Program, q.commands = (p.commands ++ [signatureCommand dataoff datasize]).set k
          (relink c (dataoff + datasize - c.fileoff)
            (alignUp (dataoff + datasize - c.fileoff) (pageSize entry.cputype))) →
        q.body = (p.body ++ List.replicate (dataoff + datasize - p.size) 0).drop kSignatureCommandSize →
        q.headerEnd = p.headerEnd + kSignatureCommandSize ∧ q.size = dataoff + datasize := by
      intro q hcommands hbody
      rw [q.size_eq, Program.headerEnd, hcommands, hbody, harea, List.length_drop, List.length_append,
        List.length_replicate, hend]
      omega
    obtain ⟨hqend, hqsize⟩ := hqsize ⟨_, _, _, _, _, _, _⟩ rfl rfl
    refine ⟨hqsize, by rw [hqend]; omega, ⟨_, _, signs_appended hnone hk _ _, signatureCommand_dataoff (by omega),
      signatureCommand_datasize (by omega)⟩, ?_, ?_, recount_before (by decide)⟩
    · refine sound_relinked hat hk.segment fun d hd => ?_
      rcases List.mem_append.1 hd with hd | hd
      · exact h.accepted.admitted.sound d hd
      · obtain rfl := List.mem_singleton.1 hd
        exact (signature_sound signatureCommand_isSignature).2 (by rw [signatureCommand_length]; decide)
    · rw [hqsize]
      refine fits_relinked hat hk.segment (Leads.sound hk h.accepted) (by omega) fun i d hi hseg => ?_
      by_cases hin : i < p.commands.length
      · rw [List.getElem?_append_left hin]
      · rw [List.getElem?_append_right (by omega), List.getElem?_eq_none (by omega : p.commands.length ≤ i)]
        refine iff_of_false (fun hd => ?_) (fun hd => by cases hd)
        obtain rfl := List.mem_singleton.1 (List.mem_of_getElem? hd)
        rw [signatureCommand_isSegment] at hseg
        cases hseg

/-- The program that planning makes of a signed one. -/
theorem signed_signed (h : Holds file entry p) (hj : Signs p.commands j s) (hk : Leads linkeditName p.commands k c)
    (hkept : p.headerEnd ≤ kept) (hsize : kept ≤ p.size)
    (hcan : CanSign entry (c.segment (commandAt p.commands k)) kept identity capacity) :
    ∃ q : Program, planBytes file entry (c.segment (commandAt p.commands k)) kept (align16 kept)
        (reserved identity (align16 kept) capacity) = q.bytes ∧
      SignedInto p q k (align16 kept) (reserved identity (align16 kept) capacity) := by
  have hbounds := hcan.bounds
  have hwhole := p.size_eq
  have halign := le_align16 kept
  have hlt : k < p.commands.length := (List.getElem?_eq_some_iff.1 hk.at_).1
  rw [planBytes_signed h hj hk hkept hsize (by omega)]
  generalize align16 kept = dataoff at *
  generalize reserved identity dataoff capacity = datasize at *
  have hne : k ≠ j := Leads.ne_signs hk hj
  have hsound := (signature_sound hj.signature).1 (h.accepted.admitted.sound s (List.mem_of_getElem? hj.at_))
  have hat : (p.commands.set j (resign s dataoff datasize))[k]? = some c := by
    rw [List.getElem?_set_ne (Ne.symm hne), hk.at_]
  have hbefore : c.fileoff ≤ kept := hcan.before
  have harea : ∀ v, (areaOf ((p.commands.set j (resign s dataoff datasize)).set k
      (relink c (dataoff + datasize - c.fileoff) v))).length = (areaOf p.commands).length := by
    intro v
    rw [length_areaOf_set relink_length hat, length_areaOf_set resign_length hj.at_]
  have hend : p.headerEnd = kHeader64Size + (areaOf p.commands).length := rfl
  refine ⟨⟨p.header, (p.commands.set j (resign s dataoff datasize)).set k (relink c (dataoff + datasize - c.fileoff)
      (alignUp (dataoff + datasize - c.fileoff) (pageSize entry.cputype))),
    p.body.take (kept - p.headerEnd) ++ List.replicate (dataoff + datasize - kept) 0, p.headerLength, p.magic, ?_, ?_⟩,
    rfl, ?_⟩
  · rw [List.length_set, List.length_set, p.counted]
  · rw [harea, p.measured]
  · have hqsize : ∀ q : Program, q.commands = (p.commands.set j (resign s dataoff datasize)).set k
          (relink c (dataoff + datasize - c.fileoff)
            (alignUp (dataoff + datasize - c.fileoff) (pageSize entry.cputype))) →
        q.body = p.body.take (kept - p.headerEnd) ++ List.replicate (dataoff + datasize - kept) 0 →
        q.headerEnd = p.headerEnd ∧ q.size = dataoff + datasize := by
      intro q hcommands hbody
      rw [q.size_eq, Program.headerEnd, hcommands, hbody, harea, List.length_append, List.length_take,
        List.length_replicate, hend]
      omega
    obtain ⟨hqend, hqsize⟩ := hqsize ⟨_, _, _, _, _, _, _⟩ rfl rfl
    refine ⟨hqsize, by rw [hqend]; omega, ⟨_, _, signs_resigned hj hk _ _, resign_dataoff hsound (by omega),
      resign_datasize hsound (by omega)⟩, ?_, ?_, rfl⟩
    · refine sound_relinked hat hk.segment fun d hd => ?_
      rcases List.mem_or_eq_of_mem_set hd with hd | rfl
      · exact h.accepted.admitted.sound d hd
      · exact (signature_sound (by rw [resign_isSignature, hj.signature])).2 (by rw [resign_length]; exact hsound)
    · rw [hqsize]
      refine fits_relinked hat hk.segment (Leads.sound hk h.accepted) (by omega) fun i d hi hseg => ?_
      by_cases hij : j = i
      · subst hij
        have hltj : j < p.commands.length := (List.getElem?_eq_some_iff.1 hj.at_).1
        rw [List.getElem?_set_self hltj]
        have hnot := signature_not_segment hj.signature
        constructor
        · intro hd
          obtain rfl := Option.some.inj hd
          rw [resign_isSegment, hnot] at hseg
          cases hseg
        · intro hd
          obtain rfl : s = d := Option.some.inj (hj.at_.symm.trans hd)
          rw [hnot] at hseg
          cases hseg
      · rw [List.getElem?_set_ne hij]

/-- What a plan is for: a signed form of the program. -/
structure Plans (hash : List UInt8 → Digest) (entry : ContainerEntry) (identity : List UInt8) (p q : Program) (k : Nat)
    (plan : SlicePlan) : Prop where
  leads : ∃ c, Leads linkeditName p.commands k c
  bytes : plan.bytes = q.bytes
  signed : SignedInto p q k plan.dataoff plan.datasize
  plan : planOf hash entry identity q.bytes plan.dataoff plan.datasize = plan

theorem planSlice_plans (h : Holds file entry p)
    (hplan : planSlice hash path universal index file entry identity capacity = .ok plan) :
    ∃ k q, Plans hash entry identity p q k plan := by
  obtain ⟨kept, linkedit, hkeeps, hlinkedit, hcan, rfl⟩ := planSlice_eq_ok.1 hplan
  obtain ⟨k, c, hk, rfl⟩ := h.linkedit_iff.1 hlinkedit
  obtain ⟨hkept, hsize⟩ := hkeeps.bounds h
  rcases accepted_signs_or_unsigned h.accepted with hnone | ⟨j, s, hj⟩
  · obtain rfl := (keeps_unsigned h hnone).1 hkeeps
    obtain ⟨q, hq, hsigned⟩ := signed_unsigned h hnone hk hcan
    exact ⟨k, q, ⟨c, hk⟩, hq, hsigned, by rw [← hq]; rfl⟩
  · obtain ⟨q, hq, hsigned⟩ := signed_signed h hj hk hkept hsize hcan
    exact ⟨k, q, ⟨c, hk⟩, hq, hsigned, by rw [← hq]; rfl⟩

end TheSeed.MachOPlan
