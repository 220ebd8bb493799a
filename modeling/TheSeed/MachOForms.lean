import TheSeed.MachOStrip

namespace TheSeed.MachOForms

open Bytes Checked BoundedBytes MachOLayout MachOCommands MachOProgram MachOSigner MachOEdits MachOLinks MachOPlan MachOStrip

/-! What becomes of one unsigned program when it is signed, signed again and stripped, however often. -/

variable {hash : List UInt8 → Digest} {path : String} {universal : Bool} {index capacity cputype filesize vmsize : Nat}
  {entry : ContainerEntry} {file identity out tail : List UInt8} {plan : SlicePlan} {p q : Program} {cs ds : List Command}
  {c d s : Command} {i j k n : Nat} {name : List UInt8}

/-! Segments under a change of the commands -/

theorem Leads.lt (h : Leads name cs k c) : k < cs.length := (List.getElem?_eq_some_iff.1 h.at_).1

theorem Leads.set (h : Leads name cs k c) (hd : d.isSegment = true) (hname : d.name = name) : Leads name (cs.set k d) k d := by
  refine ⟨List.getElem?_set_self (Leads.lt h), hd, hname, fun i e hi he => ?_⟩
  rw [List.getElem?_set_ne (Nat.ne_of_gt hi)] at he
  exact h.first i e hi he

theorem Leads.append (h : Leads name cs k c) (ds : List Command) : Leads name (cs ++ ds) k c := by
  have hlt := Leads.lt h
  refine ⟨by rw [List.getElem?_append_left hlt, h.at_], h.segment, h.named, fun i e hi he => ?_⟩
  rw [List.getElem?_append_left (hi.trans hlt)] at he
  exact h.first i e hi he

theorem Leads.relinked (h : Leads linkeditName cs k c) (filesize vmsize : Nat) :
    Leads linkeditName (cs.set k (relink c filesize vmsize)) k (relink c filesize vmsize) :=
  Leads.set h (by rw [relink_isSegment, h.segment]) (by rw [relink_name, h.named])

/-- The text segment stays when the link-edit segment is changed. -/
theorem leads_text_set (h : Leads linkeditName cs k c) (hd : d.name = linkeditName) :
    Leads textName (cs.set k d) i s ↔ Leads textName cs i s := by
  have hnot : ∀ {e : Command}, e.name = linkeditName → ¬(e.isSegment = true ∧ e.name = textName) := fun he htext =>
    textName_ne_linkeditName (htext.2.symm.trans he)
  have hone : ∀ {ds es : List Command} {x y : Command}, ds[k]? = some x → es[k]? = some y → x.name = linkeditName →
      y.name = linkeditName → (∀ j, j ≠ k → ds[j]? = es[j]?) → Leads textName ds i s → Leads textName es i s := by
    intro ds es x y hx hy hxname hyname hsame hleads
    have hne : i ≠ k := by
      rintro rfl
      obtain rfl := Option.some.inj (hleads.at_.symm.trans hx)
      exact hnot hxname ⟨hleads.segment, hleads.named⟩
    refine ⟨by rw [← hsame i hne, hleads.at_], hleads.segment, hleads.named, fun j e hj he => ?_⟩
    by_cases hjk : j = k
    · subst hjk
      obtain rfl := Option.some.inj (he.symm.trans hy)
      exact hnot hyname
    · exact hleads.first j e hj (by rw [hsame j hjk, he])
  have hset : (cs.set k d)[k]? = some d := List.getElem?_set_self (Leads.lt h)
  have hsame : ∀ j, j ≠ k → (cs.set k d)[j]? = cs[j]? := fun j hj => List.getElem?_set_ne (Ne.symm hj)
  exact ⟨hone hset h.at_ hd h.named hsame, hone h.at_ hset h.named hd fun j hj => (hsame j hj).symm⟩

theorem leads_text_append (hds : ∀ e ∈ ds, e.isSegment = false) : Leads textName (cs ++ ds) i s ↔ Leads textName cs i s := by
  constructor
  · intro h
    have hlt : i < cs.length := by
      by_contra hge
      have hat := h.at_
      rw [List.getElem?_append_right (Nat.not_lt.1 hge)] at hat
      have hnot := hds s (List.mem_of_getElem? hat)
      rw [h.segment] at hnot
      cases hnot
    refine ⟨by rw [← List.getElem?_append_left hlt, h.at_], h.segment, h.named, fun j e hj he => ?_⟩
    exact h.first j e hj (by rw [List.getElem?_append_left (hj.trans hlt), he])
  · exact fun h => Leads.append h ds

theorem relink_self (hfits : kSegment64CommandSize ≤ c.bytes.length) : relink c c.filesize c.vmsize = c := by
  have hroom : kSegmentFilesizeField + 8 ≤ c.bytes.length := Nat.le_trans (by decide) hfits
  have hlen : (slice c.bytes kSegmentFilesizeField 8).length = 8 := length_slice_of_le hroom
  have hown : leBytes 8 c.filesize = slice c.bytes kSegmentFilesizeField 8 := by
    conv_rhs => rw [← leBytes_leValue (slice c.bytes kSegmentFilesizeField 8), hlen]
    rfl
  rw [relink_keep hfits]
  refine command_ext ?_
  rw [patch, hown]
  exact overwrite_slice hroom

/-! The forms -/

/-- A program without a signature that can get one. -/
structure Signable (p : Program) (k : Nat) (c : Command) : Prop where
  unsigned : ∀ d ∈ p.commands, d.isSignature = false
  leads : Leads linkeditName p.commands k c
  sound : c.Sound
  room : kSignatureCommandSize ≤ p.body.length
  countable : p.commands.length + 1 < 2 ^ 32
  before : c.fileoff ≤ p.size

/-- What is behind the load commands, filled up to where a signature goes. -/
def paddedBody (p : Program) : List UInt8 := p.body ++ List.replicate (align16 p.size - p.size) 0

/-- The program with a signature command and a tail for the signature. -/
structure SignedForm (p : Program) (k : Nat) (c : Command) (cputype : Nat) (tail : List UInt8) (q : Program) : Prop where
  small : align16 p.size + tail.length < 2 ^ 32
  header : q.header = recount p.header (p.commands.length + 1) ((areaOf p.commands).length + kSignatureCommandSize)
  commands : q.commands = (p.commands ++ [signatureCommand (align16 p.size) tail.length]).set k
    (relink c (align16 p.size + tail.length - c.fileoff)
      (alignUp (align16 p.size + tail.length - c.fileoff) (pageSize cputype)))
  body : q.body = (paddedBody p).drop kSignatureCommandSize ++ tail

/-- The program again, as it is but for the sizes of the link-edit segment and the bytes behind the load commands. -/
structure BareForm (p : Program) (k : Nat) (c : Command) (q : Program) : Prop where
  header : q.header = p.header
  commands : ∃ filesize vmsize, q.commands = p.commands.set k (relink c filesize vmsize)
  room : kSignatureCommandSize ≤ q.body.length
  aligned : align16 q.size = align16 p.size
  body : (paddedBody q).drop kSignatureCommandSize = (paddedBody p).drop kSignatureCommandSize

theorem Signable.bare (hs : Signable p k c) : BareForm p k c p := by
  refine ⟨rfl, ⟨c.filesize, c.vmsize, ?_⟩, hs.room, rfl, rfl⟩
  rw [relink_self (segment_length hs.leads.segment hs.sound)]
  apply List.ext_getElem?
  intro i
  by_cases hik : k = i
  · subst hik
    rw [List.getElem?_set_self (Leads.lt hs.leads), hs.leads.at_]
  · rw [List.getElem?_set_ne hik]

theorem Signable.of_plan (h : Holds file entry p) (hnone : ∀ d ∈ p.commands, d.isSignature = false)
    (hplan : planSlice hash path universal index file entry identity capacity = .ok plan) :
    ∃ k c, Signable p k c := by
  obtain ⟨kept, linkedit, hkeeps, hlinkedit, hcan, -⟩ := planSlice_eq_ok.1 hplan
  obtain ⟨k, c, hk, rfl⟩ := h.linkedit_iff.1 hlinkedit
  obtain rfl := (keeps_unsigned h hnone).1 hkeeps
  have hcountable := hcan.countable (by rw [h.unsigned hnone]; rfl)
  have hncmds : entry.slice.ncmds = p.commands.length := by
    obtain ⟨scope, hlayout⟩ := h.layout
    rw [← hlayout, layout_ncmds]
  have hsmall := (commands_small p).1
  rw [hncmds, kUint32Max] at hcountable
  exact ⟨k, c, hnone, hk, Leads.sound hk h.accepted, hcan.body_room h hnone, by omega, hcan.before⟩

/-- A form says all of a program. -/
theorem SignedForm.unique {q' : Program} (h : SignedForm p k c cputype tail q) (h' : SignedForm p k c cputype tail q') :
    q = q' := by
  refine program_injective ?_
  rw [Program.bytes, Program.bytes, h.header, h.commands, h.body, h'.header, h'.commands, h'.body]

theorem length_paddedBody (p : Program) : p.headerEnd + (paddedBody p).length = align16 p.size := by
  have hsize := p.size_eq
  have halign := le_align16 p.size
  rw [paddedBody, List.length_append, List.length_replicate]
  omega

theorem Signable.room_padded (hs : Signable p k c) : kSignatureCommandSize ≤ (paddedBody p).length := by
  have hroom := hs.room
  rw [paddedBody, List.length_append]
  omega

/-! A signed program -/

section SignedForm

variable (hs : Signable p k c) (hq : SignedForm p k c cputype tail q)
include hs hq

theorem SignedForm.signs : Signs q.commands p.commands.length (signatureCommand (align16 p.size) tail.length) := by
  rw [hq.commands]
  exact signs_appended hs.unsigned hs.leads _ _

theorem SignedForm.leads : Leads linkeditName q.commands k (relink c (align16 p.size + tail.length - c.fileoff)
    (alignUp (align16 p.size + tail.length - c.fileoff) (pageSize cputype))) := by
  rw [hq.commands]
  exact Leads.relinked (Leads.append hs.leads _) _ _

theorem SignedForm.area : (areaOf q.commands).length = (areaOf p.commands).length + kSignatureCommandSize := by
  rw [hq.commands, length_areaOf_set relink_length (Leads.append hs.leads _).at_, areaOf_append, List.length_append, areaOf_cons,
    areaOf_nil, List.append_nil, signatureCommand_length]

theorem SignedForm.headerEnd : q.headerEnd = p.headerEnd + kSignatureCommandSize := by
  rw [Program.headerEnd, Program.headerEnd, hq.area hs, Nat.add_assoc]

theorem SignedForm.size : q.size = align16 p.size + tail.length := by
  have hend := hq.headerEnd hs
  have hlen := length_paddedBody p
  have hroom := hs.room_padded
  rw [q.size_eq, hq.body, List.length_append, List.length_drop]
  omega

theorem SignedForm.behind : q.headerEnd ≤ align16 p.size := by
  have hend := hq.headerEnd hs
  have hlen := length_paddedBody p
  have hroom := hs.room_padded
  omega

/-- What is between the load commands and the signature. -/
theorem SignedForm.take_body : q.body.take (align16 p.size - q.headerEnd) = (paddedBody p).drop kSignatureCommandSize := by
  have hend := hq.headerEnd hs
  have hlen := length_paddedBody p
  have hroom := hs.room_padded
  rw [hq.body, List.take_left' (by rw [List.length_drop]; omega)]

/-- The old signature is what the tail has room for. -/
theorem SignedForm.keeps (h : Holds file entry q) {kept : Nat} : Keeps entry.slice kept ↔ kept = align16 p.size := by
  have hsmall := hq.small
  have hpositive : 0 < align16 p.size := Nat.lt_of_lt_of_le (by omega) (hq.behind hs |>.trans' (Nat.le_add_right 32 _))
  have hdataoff : ((signatureCommand (align16 p.size) tail.length).sig (commandAt q.commands p.commands.length)).dataoff =
      align16 p.size := @signatureCommand_dataoff (align16 p.size) tail.length (by omega)
  have hdatasize : ((signatureCommand (align16 p.size) tail.length).sig (commandAt q.commands p.commands.length)).datasize =
      tail.length := @signatureCommand_datasize (align16 p.size) tail.length (by omega)
  rw [Keeps, h.signed (hq.signs hs)]
  simp only
  rw [CutAt, if_neg (by omega), hdataoff, hdatasize, h.slice_size, hq.size hs]
  exact ⟨And.right, fun hkept => ⟨rfl, hkept⟩⟩

end SignedForm

/-! A program without a signature -/

section BareForm

variable (hs : Signable p k c) (hq : BareForm p k c q)
include hs hq

theorem BareForm.unsigned : ∀ d ∈ q.commands, d.isSignature = false := by
  obtain ⟨filesize, vmsize, hcommands⟩ := hq.commands
  intro d hd
  rw [hcommands] at hd
  rcases List.mem_or_eq_of_mem_set hd with hd | rfl
  · exact hs.unsigned d hd
  · rw [relink_isSignature]
    exact hs.unsigned c (List.mem_of_getElem? hs.leads.at_)

theorem BareForm.leads : ∃ filesize vmsize, q.commands = p.commands.set k (relink c filesize vmsize) ∧
    Leads linkeditName q.commands k (relink c filesize vmsize) := by
  obtain ⟨filesize, vmsize, hcommands⟩ := hq.commands
  refine ⟨filesize, vmsize, hcommands, ?_⟩
  rw [hcommands]
  exact Leads.relinked hs.leads _ _

theorem BareForm.area : (areaOf q.commands).length = (areaOf p.commands).length := by
  obtain ⟨filesize, vmsize, hcommands⟩ := hq.commands
  rw [hcommands, length_areaOf_set relink_length hs.leads.at_]

omit hs in
theorem BareForm.count : q.commands.length = p.commands.length := by
  obtain ⟨filesize, vmsize, hcommands⟩ := hq.commands
  rw [hcommands, List.length_set]

end BareForm

/-! Signing a form -/

/-- Zeros where the signature goes. -/
def noSignature (datasize : Nat) : List UInt8 := List.replicate datasize 0

theorem exists_signed {dataoff datasize : Nat} (hs : Signable p k c) (hdataoff : align16 p.size = dataoff)
    (hsmall : dataoff + datasize < 2 ^ 32) (cputype : Nat) :
    ∃ q, SignedForm p k c cputype (noSignature datasize) q := by
  have hlen : (noSignature datasize).length = datasize := List.length_replicate
  have hpadded := length_paddedBody p
  have harea : ∀ r, (areaOf ((p.commands ++ [signatureCommand (align16 p.size) datasize]).set k
      (relink c (align16 p.size + datasize - c.fileoff) r))).length = (areaOf p.commands).length + kSignatureCommandSize := by
    intro r
    rw [length_areaOf_set relink_length (Leads.append hs.leads _).at_, areaOf_append, List.length_append, areaOf_cons,
      areaOf_nil, List.append_nil, signatureCommand_length]
  have hend : p.headerEnd = kHeader64Size + (areaOf p.commands).length := rfl
  have hfixed : kSignatureCommandSize = 16 := rfl
  have hroom := hs.room_padded
  obtain ⟨q, hheader, hcommands, hbody⟩ : ∃ q : Program,
      q.header = recount p.header (p.commands.length + 1) ((areaOf p.commands).length + kSignatureCommandSize) ∧
      q.commands = (p.commands ++ [signatureCommand (align16 p.size) datasize]).set k
        (relink c (align16 p.size + datasize - c.fileoff)
          (alignUp (align16 p.size + datasize - c.fileoff) (pageSize cputype))) ∧
      q.body = (paddedBody p).drop kSignatureCommandSize ++ noSignature datasize := by
    refine exists_program (by rw [recount_length, p.headerLength]) (by rw [recount_before (by decide), p.magic]) ?_ ?_
    · rw [recount_ncmds p.headerLength hs.countable, List.length_set, List.length_append, List.length_singleton]
    · rw [recount_sizeofcmds p.headerLength (by omega), harea]
  refine ⟨q, by rw [hlen, hdataoff]; exact hsmall, hheader, ?_, hbody⟩
  rw [hlen]
  exact hcommands

/-- What planning does to the bytes. -/
theorem plan_of_form {kept : Nat} {linkedit : SegmentLayout} (hcan : CanSign entry linkedit kept identity capacity)
    (hkept : align16 kept = align16 p.size) (hs : Signable p k c) :
    ∃ q', SignedForm p k c entry.cputype (noSignature (reserved identity (align16 p.size) capacity)) q' := by
  have hbounds := hcan.bounds
  rw [hkept] at hbounds
  exact exists_signed hs rfl hbounds _

theorem plan_bare (hs : Signable p k c) (hq : BareForm p k c q) (h : Holds file entry q)
    (hplan : planSlice hash path universal index file entry identity capacity = .ok plan) :
    ∃ q', SignedForm p k c entry.cputype (noSignature (reserved identity (align16 p.size) capacity)) q' ∧
      planOf hash entry identity q'.bytes (align16 p.size) (reserved identity (align16 p.size) capacity) = plan := by
  obtain ⟨kept, linkedit, hkeeps, hlinkedit, hcan, rfl⟩ := planSlice_eq_ok.1 hplan
  obtain ⟨filesize, vmsize, hcommands, hleads⟩ := hq.leads hs
  obtain ⟨k', c', hk', rfl⟩ := h.linkedit_iff.1 hlinkedit
  obtain ⟨rfl, rfl⟩ := Leads.unique hleads hk'
  have hnone := hq.unsigned hs
  obtain rfl := (keeps_unsigned h hnone).1 hkeeps
  obtain ⟨q', hq'⟩ := plan_of_form hcan hq.aligned hs
  have halign := le_align16 q.size
  have hlen : (noSignature (reserved identity (align16 p.size) capacity)).length =
      reserved identity (align16 p.size) capacity := List.length_replicate
  refine ⟨q', hq', ?_⟩
  rw [hq.aligned, planBytes_unsigned h hnone hleads hq.room (by rw [← hq.aligned]; omega), Program.bytes, hq'.header,
    hq'.commands, hq'.body, hlen, hq.header, hq.count, hq.area hs, hcommands, ← hq.body]
  have hset : (p.commands.set k (relink c filesize vmsize) ++
      [signatureCommand (align16 p.size) (reserved identity (align16 p.size) capacity)]) =
      (p.commands ++ [signatureCommand (align16 p.size) (reserved identity (align16 p.size) capacity)]).set k
        (relink c filesize vmsize) := by
    rw [List.set_append_left _ _ (Leads.lt hs.leads)]
  have hbody : (q.body ++ List.replicate (align16 p.size + reserved identity (align16 p.size) capacity - q.size) 0).drop
      kSignatureCommandSize =
      (paddedBody q).drop kSignatureCommandSize ++ noSignature (reserved identity (align16 p.size) capacity) := by
    have hroom : kSignatureCommandSize ≤ (paddedBody q).length := by
      have hbodyRoom := hq.room
      rw [paddedBody, List.length_append]
      omega
    rw [← List.drop_append_of_le_length hroom, paddedBody, hq.aligned, List.append_assoc, noSignature,
      ← List.replicate_add]
    congr 3
    rw [← hq.aligned]
    omega
  rw [hset, List.set_set, relink_relink, relink_fileoff, hbody]

theorem plan_signed (hs : Signable p k c) (hq : SignedForm p k c cputype tail q) (h : Holds file entry q)
    (hplan : planSlice hash path universal index file entry identity capacity = .ok plan) :
    ∃ q', SignedForm p k c entry.cputype (noSignature (reserved identity (align16 p.size) capacity)) q' ∧
      planOf hash entry identity q'.bytes (align16 p.size) (reserved identity (align16 p.size) capacity) = plan := by
  obtain ⟨kept, linkedit, hkeeps, hlinkedit, hcan, rfl⟩ := planSlice_eq_ok.1 hplan
  have hleads := hq.leads hs
  obtain ⟨k', c', hk', rfl⟩ := h.linkedit_iff.1 hlinkedit
  obtain ⟨rfl, rfl⟩ := Leads.unique hleads hk'
  obtain rfl := (hq.keeps hs h).1 hkeeps
  obtain ⟨q', hq'⟩ := plan_of_form hcan (align16_align16 p.size) hs
  have hlt := Leads.lt hs.leads
  have hsize := hq.size hs
  have hlen : (noSignature (reserved identity (align16 p.size) capacity)).length =
      reserved identity (align16 p.size) capacity := List.length_replicate
  refine ⟨q', hq', ?_⟩
  rw [align16_align16, planBytes_signed h (hq.signs hs) hleads (hq.behind hs) (by omega) (Nat.le_add_right _ _), Program.bytes,
    hq'.header, hq'.commands, hq'.body, hlen, hq.header, hq.take_body hs, hq.commands, Nat.add_sub_cancel_left]
  have hset : ((p.commands ++ [signatureCommand (align16 p.size) tail.length]).set k
        (relink c (align16 p.size + tail.length - c.fileoff)
          (alignUp (align16 p.size + tail.length - c.fileoff) (pageSize cputype)))).set p.commands.length
        (resign (signatureCommand (align16 p.size) tail.length) (align16 p.size)
          (reserved identity (align16 p.size) capacity)) =
      (p.commands ++ [signatureCommand (align16 p.size) (reserved identity (align16 p.size) capacity)]).set k
        (relink c (align16 p.size + tail.length - c.fileoff)
          (alignUp (align16 p.size + tail.length - c.fileoff) (pageSize cputype))) := by
    rw [resign_signatureCommand, List.set_comm _ _ (Nat.ne_of_lt hlt), List.set_append_right _ _ (Nat.le_refl _), Nat.sub_self]
    rfl
  rw [hset, List.set_set, relink_relink, relink_fileoff]
  rfl

/-! Stripping a form -/

/-- The program without its signature: zeros where the signature command was. -/
structure StrippedForm (p : Program) (k : Nat) (c : Command) (vmsize : Nat) (q : Program) : Prop where
  header : q.header = p.header
  commands : q.commands = p.commands.set k (relink c (align16 p.size - c.fileoff) vmsize)
  body : q.body = List.replicate kSignatureCommandSize 0 ++ (paddedBody p).drop kSignatureCommandSize

theorem StrippedForm.headerEnd (hs : Signable p k c) (hq : StrippedForm p k c vmsize q) : q.headerEnd = p.headerEnd := by
  rw [Program.headerEnd, Program.headerEnd, hq.commands, length_areaOf_set relink_length hs.leads.at_]

theorem StrippedForm.size (hs : Signable p k c) (hq : StrippedForm p k c vmsize q) : q.size = align16 p.size := by
  have hpadded := length_paddedBody p
  have hroom := hs.room_padded
  rw [q.size_eq, hq.headerEnd hs, hq.body, List.length_append, List.length_replicate, List.length_drop]
  omega

theorem StrippedForm.bare (hs : Signable p k c) (hq : StrippedForm p k c vmsize q) : BareForm p k c q := by
  have hsize := hq.size hs
  refine ⟨hq.header, ⟨_, _, hq.commands⟩, ?_, by rw [hsize, align16_align16], ?_⟩
  · rw [hq.body, List.length_append, List.length_replicate]
    exact Nat.le_add_right _ _
  · rw [paddedBody, hsize, align16_align16, Nat.sub_self, List.replicate_zero, List.append_nil, hq.body,
      List.drop_left' List.length_replicate]

theorem strip_signed (hs : Signable p k c) (hq : SignedForm p k c cputype tail q) (h : Holds file entry q)
    (hstrip : stripSlice path universal index file entry
      ((signatureCommand (align16 p.size) tail.length).sig (commandAt q.commands p.commands.length)) = .ok out) :
    ∃ q', out = q'.bytes ∧ StrippedForm p k c
      (vmsizeAfter (relink c (align16 p.size + tail.length - c.fileoff)
        (alignUp (align16 p.size + tail.length - c.fileoff) (pageSize cputype))) (align16 p.size - c.fileoff) entry.cputype) q' := by
  obtain ⟨cut, k', c', hstrips⟩ := stripSlice_strips h (hq.signs hs) hstrip
  obtain ⟨rfl, rfl⟩ := Leads.unique (hq.leads hs) hstrips.leads
  have hkeeps : Keeps entry.slice cut := by
    rw [Keeps, h.signed (hq.signs hs)]
    exact hstrips.kept
  obtain rfl := (hq.keeps hs h).1 hkeeps
  have hlt := Leads.lt hs.leads
  have hcount : q.commands.length - 1 = p.commands.length := by
    rw [hq.commands, List.length_set, List.length_append, List.length_singleton, Nat.add_sub_cancel]
  have hmeasure : (areaOf q.commands).length - (signatureCommand (align16 p.size) tail.length).bytes.length =
      (areaOf p.commands).length := by
    rw [hq.area hs, signatureCommand_length, Nat.add_sub_cancel]
  have herase : (q.commands.eraseIdx p.commands.length).set (numberAfter p.commands.length k)
        (relink (relink c (align16 p.size + tail.length - c.fileoff)
          (alignUp (align16 p.size + tail.length - c.fileoff) (pageSize cputype))) (align16 p.size - c.fileoff)
          (vmsizeAfter (relink c (align16 p.size + tail.length - c.fileoff)
            (alignUp (align16 p.size + tail.length - c.fileoff) (pageSize cputype))) (align16 p.size - c.fileoff)
            entry.cputype)) =
      p.commands.set k (relink c (align16 p.size - c.fileoff)
        (vmsizeAfter (relink c (align16 p.size + tail.length - c.fileoff)
          (alignUp (align16 p.size + tail.length - c.fileoff) (pageSize cputype))) (align16 p.size - c.fileoff)
          entry.cputype)) := by
    rw [numberAfter, if_neg (Nat.not_lt.2 hlt.le), hq.commands, List.set_append_left _ _ hlt,
      List.eraseIdx_append_of_length_le (by rw [List.length_set]), List.length_set, Nat.sub_self, relink_relink]
    simp only [List.eraseIdx_cons_zero, List.append_nil, List.set_set]
  have hheader : recount (recount p.header (p.commands.length + 1) ((areaOf p.commands).length + kSignatureCommandSize))
      p.commands.length (areaOf p.commands).length = p.header := by
    have hself := recount_self p.headerLength
    rw [p.counted, p.measured] at hself
    rw [recount_recount, hself]
  obtain ⟨q', hq'header, hq'commands, hq'body⟩ : ∃ q' : Program, q'.header = p.header ∧
      q'.commands = p.commands.set k (relink c (align16 p.size - c.fileoff)
        (vmsizeAfter (relink c (align16 p.size + tail.length - c.fileoff)
          (alignUp (align16 p.size + tail.length - c.fileoff) (pageSize cputype))) (align16 p.size - c.fileoff)
          entry.cputype)) ∧
      q'.body = List.replicate kSignatureCommandSize 0 ++ (paddedBody p).drop kSignatureCommandSize := by
    refine exists_program p.headerLength p.magic ?_ ?_
    · rw [List.length_set, p.counted]
    · rw [length_areaOf_set relink_length hs.leads.at_, p.measured]
  refine ⟨q', ?_, hq'header, hq'commands, hq'body⟩
  rw [hstrips.bytes, Program.bytes, hq'header, hq'commands, hq'body, hcount, hmeasure, hq.header, hheader, relink_fileoff,
    herase, hq.take_body hs, signatureCommand_length]

end TheSeed.MachOForms
