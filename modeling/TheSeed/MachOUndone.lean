import TheSeed.MachOFiles

namespace TheSeed.MachOUndone

open Bytes Checked BoundedBytes MachOLayout MachOCommands MachOProgram MachOSigner MachOEdits MachOLinks MachOPlan MachOStrip
open MachOForms MachOContainers MachORebuilt MachOPreserved MachOFiles

/-! Stripping a program that was signed gives the program back, filled up to a multiple of sixteen bytes. -/

variable {hash : List UInt8 → Digest} {path : String} {capacity cputype vmsize filesize n : Nat} {file identity signed out tail : List UInt8}
  {container : MachOContainer} {prepared : PreparedSignature} {cmsSignatures : List (List UInt8)} {p q : Program} {c : Command}
  {k : Nat}

/-- A position that has the byte it had before signing. -/
structure Restored (layout : SliceLayout) (linkedit : SegmentLayout) (n : Nat) : Prop where
  command : n < layout.headerEnd ∨ layout.headerEnd + kSignatureCommandSize ≤ n
  vmsize : n < linkedit.commandOffset + kSegmentVmsizeField ∨ linkedit.commandOffset + kSegmentVmsizeField + 8 ≤ n
  filesize : n < linkedit.commandOffset + kSegmentFilesizeField ∨ linkedit.commandOffset + kSegmentFilesizeField + 8 ≤ n

/-- What signing and stripping leave of a program. -/
structure Undone (file : List UInt8) (layout after : SliceLayout) (linkedit : SegmentLayout) (out : List UInt8) : Prop where
  length : out.length = align16 file.length
  counts : after.ncmds = layout.ncmds ∧ after.sizeofcmds = layout.sizeofcmds
  same : ∀ n < file.length, Restored layout linkedit n → out[n]? = file[n]?
  freed : ∀ n, layout.headerEnd ≤ n → n < layout.headerEnd + kSignatureCommandSize → out[n]? = some 0
  added : ∀ n, file.length ≤ n → n < out.length → out[n]? = some 0
  linkedit : ∃ last, after.linkedit = some last ∧ last.commandOffset = linkedit.commandOffset ∧
    last.fileoff + last.filesize = out.length ∧ last.filesize ≤ last.vmsize

/-- A stripped program, written from the program before signing. -/
theorem stripped_bytes (hs : Signable p k c) (hq : StrippedForm p k c vmsize q) : q.bytes =
    writeLE64 (writeLE64 (overwrite (p.bytes ++ List.replicate (align16 p.size - p.size) 0) p.headerEnd
        (List.replicate kSignatureCommandSize 0)) (commandAt p.commands k + kSegmentFilesizeField) (align16 p.size - c.fileoff))
      (commandAt p.commands k + kSegmentVmsizeField) vmsize := by
  have hroom : (List.replicate kSignatureCommandSize (0 : UInt8)).length ≤ (paddedBody p).length := by
    rw [List.length_replicate]
    exact hs.room_padded
  have hfreed : overwrite (p.bytes ++ List.replicate (align16 p.size - p.size) 0) p.headerEnd
      (List.replicate kSignatureCommandSize 0) = p.header ++ areaOf p.commands ++ q.body := by
    rw [Program.bytes, List.append_assoc, ← paddedBody]
    refine (overwrite_body p.headerLength 0 _).trans ?_
    rw [overwrite_start hroom, List.length_replicate, hq.body]
  rw [hfreed, overwrite_relink p.headerLength hs.leads.at_ (segment_length hs.leads.segment hs.sound), Program.bytes, hq.header,
    hq.commands]

theorem alignUp_lt {value unit : Nat} (h : 0 < unit) : alignUp value unit < value + unit := by
  rw [alignUp]
  have hle := Nat.div_mul_le_self (value + unit - 1) unit
  omega

theorem pageSize_bounds (cputype : Nat) : 0 < pageSize cputype ∧ pageSize cputype < 2 ^ 32 := by
  rw [pageSize]
  split <;> decide

/-- The size in memory that signing gave the link-edit segment is enough for what stripping leaves of it. -/
theorem vmsizeAfter_signed {large small : Nat} (hfits : kSegment64CommandSize ≤ c.bytes.length) (hlarge : large < 2 ^ 32)
    (hsmall : small ≤ large) (other : Nat) :
    vmsizeAfter (relink c large (alignUp large (pageSize cputype))) small other < 256 ^ 8 ∧
      small ≤ vmsizeAfter (relink c large (alignUp large (pageSize cputype))) small other := by
  obtain ⟨hpositive, hbound⟩ := pageSize_bounds cputype
  have hup := @alignUp_lt large _ hpositive
  have hle : large ≤ alignUp large (pageSize cputype) := MachOUniversal.alignUp_le hpositive
  have hwide : (256 : Nat) ^ 8 = 18446744073709551616 := by norm_num
  rw [vmsizeAfter, relink_vmsize hfits, Nat.mod_eq_of_lt (by omega), if_neg (by omega)]
  omega

theorem stripped_undone (hs : Signable p k c) (hq : StrippedForm p k c vmsize q) (hvmsize : vmsize < 256 ^ 8)
    (henough : align16 p.size - c.fileoff ≤ vmsize) :
    Undone p.bytes (p.layout 0 "the file") (q.layout 0 "the file") (c.segment (commandAt p.commands k)) q.bytes := by
  have hsize : q.bytes.length = align16 p.size := hq.size hs
  have halign := le_align16 p.size
  have hbefore := hs.before
  have hpadded := length_paddedBody p
  have hroom := hs.room_padded
  have hfits := segment_length hs.leads.segment hs.sound
  have hcommand := commandAt_end hs.leads.at_
  have hend : p.headerEnd = kHeader64Size + (areaOf p.commands).length := rfl
  have hplace : (c.segment (commandAt p.commands k)).commandOffset = commandAt p.commands k := rfl
  have hlength : p.bytes.length = p.size := rfl
  have hfixed : kSignatureCommandSize = 16 ∧ kSegment64CommandSize = 72 ∧ kSegmentVmsizeField = 32 ∧
    kSegmentFilesizeField = 48 := ⟨rfl, rfl, rfl, rfl⟩
  have hfour : ∀ value, (leBytes 8 value).length = 8 := length_leBytes 8
  have hat : ∀ n, Restored (p.layout 0 "the file") (c.segment (commandAt p.commands k)) n →
      q.bytes[n]? = (p.bytes ++ List.replicate (align16 p.size - p.size) 0)[n]? := by
    intro n hn
    obtain ⟨hfreed, hmemory, hdata⟩ := hn
    rw [layout_headerEnd] at hfreed
    rw [stripped_bytes hs hq, writeLE64, writeLE64, getElem?_overwrite_outside (by rw [hfour, ← hplace]; exact hmemory),
      getElem?_overwrite_outside (by rw [hfour, ← hplace]; exact hdata),
      getElem?_overwrite_outside (by rw [List.length_replicate]; exact hfreed)]
  refine ⟨by rw [hsize, hlength], ⟨?_, ?_⟩, fun n hn hrestored => ?_, fun n hn hlt => ?_, fun n hn hlt => ?_, ?_⟩
  · rw [layout_ncmds, layout_ncmds, hq.commands, List.length_set]
  · rw [layout_sizeofcmds, layout_sizeofcmds, hq.commands, length_areaOf_set relink_length hs.leads.at_]
  · rw [hat n hrestored, List.getElem?_append_left hn]
  · rw [layout_headerEnd] at hn hlt
    rw [stripped_bytes hs hq, writeLE64, writeLE64, getElem?_overwrite_outside (by rw [hfour]; omega),
      getElem?_overwrite_outside (by rw [hfour]; omega), getElem?_overwrite, List.length_replicate, List.length_append,
      List.length_replicate, if_pos (by omega), List.getElem?_replicate_of_lt (by omega)]
  · have hbody := p.size_eq
    have hbodyRoom := hs.room
    have hrestored : Restored (p.layout 0 "the file") (c.segment (commandAt p.commands k)) n :=
      ⟨by rw [layout_headerEnd]; omega, by omega, by omega⟩
    rw [hat n hrestored, List.getElem?_append_right hn, List.getElem?_replicate_of_lt (by omega)]
  · have hleads := Leads.relinked hs.leads (align16 p.size - c.fileoff) vmsize
    rw [← hq.commands] at hleads
    have hcommandAt : commandAt q.commands k = commandAt p.commands k := by
      rw [hq.commands, commandAt_set relink_length hs.leads.at_]
    have hsmall : align16 p.size - c.fileoff < 256 ^ 8 := Nat.lt_of_le_of_lt henough hvmsize
    refine ⟨_, layout_linkedit.2 ⟨k, _, hleads, rfl⟩, hcommandAt, ?_, ?_⟩
    · show (relink c _ _).fileoff + (relink c _ _).filesize = _
      rw [relink_fileoff, relink_filesize hfits, Nat.mod_eq_of_lt hsmall, hsize]
      omega
    · show (relink c _ _).filesize ≤ (relink c _ _).vmsize
      rw [relink_filesize hfits, relink_vmsize hfits, Nat.mod_eq_of_lt hsmall, Nat.mod_eq_of_lt hvmsize]
      exact henough

/-- Signing a thin program gives it a signed form, and the parser takes that. -/
theorem complete_thin (hparse : parseInput file = .ok container) (hform : container.form = .thin)
    (hunsigned : ∀ entry ∈ container.entries, entry.slice.codesig = none)
    (hcomplete : completeSignature hash path file prepared cmsSignatures = .ok signed) :
    ∃ (p q : Program) (k : Nat) (c : Command) (cputype : Nat) (tail : List UInt8), file = p.bytes ∧ p.Accepted ∧
      container = ⟨.thin, [thinEntry p]⟩ ∧ signed = q.bytes ∧ Signable p k c ∧ SignedForm p k c cputype tail q := by
  obtain ⟨_, plans, hparse', hcompletes⟩ := completeSignature_eq_ok.1 hcomplete
  obtain rfl := Except.ok.inj (hparse.symm.trans hparse')
  obtain ⟨p, rfl, haccepted, rfl⟩ := thin_program hparse hform hcompletes.planned.supported
  have h := holds_thin haccepted
  have hnone := unsigned_of_codesig h (hunsigned _ List.mem_cons_self)
  obtain ⟨plan, rest, hplan, hrest, rfl⟩ := List.forall₂_cons_left_iff.1 hcompletes.planned.slices
  obtain rfl := List.forall₂_nil_left_iff.1 hrest
  obtain ⟨cms, rfl⟩ := List.length_eq_one_iff.1 hcompletes.count
  obtain ⟨k, c, hs⟩ := Signable.of_plan h hnone hplan
  obtain ⟨q, hq, rfl⟩ := plan_bare hs hs.bare h hplan
  obtain ⟨q', hbytes, hq'⟩ := SignedForm.finished hs hq (buildSuperBlob (codeDirectory hash (thinEntry p).slice
    prepared.identity q.bytes (align16 p.size)) cms)
  have hsigned := hcompletes.bytes
  rw [containerBytes_thin] at hsigned
  refine ⟨p, q', k, c, _, _, rfl, haccepted, rfl, ?_, hs, hq'⟩
  rw [← hbytes, ← Except.ok.inj hsigned, List.zipWith_cons_cons, List.getD_cons_zero, finishSlice]
  simp only [planOf]

/-- Stripping a thin program of a signed form. -/
theorem strip_thin (h : p.Accepted) (hs : Signable p k c) (hq : SignedForm p k c cputype tail q) :
    ∃ q' vmsize, stripSignature path q.bytes = .ok (some q'.bytes) ∧ StrippedForm p k c vmsize q' ∧
      vmsize < 256 ^ 8 ∧ align16 p.size - c.fileoff ≤ vmsize := by
  have haccepted := SignedForm.accepted hs hq h
  have hholds := holds_thin haccepted
  have hfits := segment_length hs.leads.segment hs.sound
  have hsmall := hq.small
  obtain ⟨out, hout⟩ : ∃ out, stripSlice path false 0 q.bytes (thinEntry q)
      ((signatureCommand (align16 p.size) tail.length).sig (commandAt q.commands p.commands.length)) = .ok out :=
    SignedForm.strippable hs hq hholds
  obtain ⟨q', rfl, hq'⟩ := strip_signed hs hq hholds hout
  have hslices : stripSlices path false q.bytes 0 [thinEntry q] = .ok [q'.bytes] := by
    rw [stripSlices, hholds.signed (hq.signs hs)]
    simp only
    rw [hout]
    rfl
  have hstrips : StripsAll path q.bytes ⟨.thin, [thinEntry q]⟩ [q'.bytes] := by
    refine ⟨fun entry hin => ?_, rfl, hslices, thinEntry q, List.mem_cons_self, ?_⟩
    · obtain rfl := List.mem_singleton.1 hin
      exact layout_support
    · rw [hholds.signed (hq.signs hs)]
      rfl
  have hvmsize := @vmsizeAfter_signed cputype c (align16 p.size + tail.length - c.fileoff) (align16 p.size - c.fileoff) hfits
    (by omega) (by omega) (thinEntry q).cputype
  exact ⟨q', _, stripSignature_eq_ok.2 ⟨_, _, parseInput_thin.2 ⟨haccepted, rfl⟩, hstrips, rfl⟩, hq', hvmsize⟩

/-- Stripping undoes signing, whatever the signature was prepared with: the program is back, and its link-edit segment
ends at the end of the file. -/
theorem strip_undoes_sign (hparse : parseInput file = .ok container) (hform : container.form = .thin)
    (hunsigned : ∀ entry ∈ container.entries, entry.slice.codesig = none)
    (hcomplete : completeSignature hash path file prepared cmsSignatures = .ok signed) :
    ∃ out entry linkedit after, stripSignature path signed = .ok (some out) ∧ container.entries = [entry] ∧
      entry.slice.linkedit = some linkedit ∧ parseInput out = .ok ⟨.thin, [after]⟩ ∧
      Undone file entry.slice after.slice linkedit out := by
  obtain ⟨p, q, k, c, cputype, tail, rfl, haccepted, rfl, rfl, hs, hq⟩ := complete_thin hparse hform hunsigned hcomplete
  obtain ⟨q', vmsize, hstrip, hq', hvmsize, henough⟩ := @strip_thin path cputype tail p q c k haccepted hs hq
  exact ⟨q'.bytes, thinEntry p, c.segment (commandAt p.commands k), thinEntry q', hstrip, rfl,
    layout_linkedit.2 ⟨k, c, hs.leads, rfl⟩, parseInput_thin.2 ⟨StrippedForm.accepted hs hq' haccepted, rfl⟩,
    stripped_undone hs hq' hvmsize henough⟩

theorem smallProgram_undone : ∃ prepared signed out after,
    prepareSignature zeroHash "" smallProgram [] 16 = .ok prepared ∧
      completeSignature zeroHash "" smallProgram prepared [[1, 2, 3]] = .ok signed ∧
      stripSignature "" signed = .ok (some out) ∧ Undone smallProgram smallLayout after smallLinkedit out := by
  obtain ⟨prepared, signed, hprepare, hcomplete⟩ := smallProgram_signed
  have hunsigned : ∀ entry ∈ [smallThin], entry.slice.codesig = none := by decide +kernel
  obtain ⟨out, entry, linkedit, after, hstrip, hentries, hlinkedit, -, hundone⟩ :=
    strip_undoes_sign smallProgram_parsed rfl hunsigned hcomplete
  obtain rfl : smallThin = entry := List.singleton_inj.1 hentries
  obtain rfl : smallLinkedit = linkedit := Option.some.inj hlinkedit
  exact ⟨prepared, signed, out, after.slice, hprepare, hcomplete, hstrip, hundone⟩

end TheSeed.MachOUndone
