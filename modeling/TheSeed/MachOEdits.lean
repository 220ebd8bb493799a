import TheSeed.MachOProgram
import TheSeed.MachOSigner

namespace TheSeed.MachOEdits

open Bytes Checked BoundedBytes MachOLayout MachOCommands MachOProgram MachOSigner

/-! Writing into a program that was taken apart: into its header, into one command, or behind the commands. -/

/-- The command with some bytes behind its length replaced. -/
def patch (c : Command) (offset : Nat) (data : List UInt8) (h : kLoadCommandHeaderSize ≤ offset) : Command where
  bytes := overwrite c.bytes offset data
  least := by rw [length_overwrite]; exact c.least
  aligned := by rw [length_overwrite]; exact c.aligned
  recorded := by
    rw [length_overwrite, slice_overwrite_of_disjoint (.inl h)]
    exact c.recorded

variable {c d : Command} {cs : List Command} {offset width i j k : Nat} {data header body : List UInt8}

@[simp] theorem patch_length {h : kLoadCommandHeaderSize ≤ offset} :
    (patch c offset data h).bytes.length = c.bytes.length := length_overwrite _ _ _

theorem field_patch_of_disjoint {h : kLoadCommandHeaderSize ≤ offset} {at_ : Nat}
    (hd : at_ + width ≤ offset ∨ offset + data.length ≤ at_) : (patch c offset data h).field at_ width = c.field at_ width :=
  congrArg leValue (slice_overwrite_of_disjoint hd)

theorem field_patch_self {h : kLoadCommandHeaderSize ≤ offset} {value : Nat} (hfits : offset + width ≤ c.bytes.length)
    (hv : value < 256 ^ width) : (patch c offset (leBytes width value) h).field offset width = value := by
  rw [Command.field, patch, slice_overwrite_leBytes hfits, leValue_leBytes_of_lt hv]

/-- Where the command with a number stands. -/
def commandAt (cs : List Command) (k : Nat) : Nat := kHeader64Size + (areaOf (cs.take k)).length

theorem areaOf_split (h : cs[k]? = some c) : areaOf cs = areaOf (cs.take k) ++ c.bytes ++ areaOf (cs.drop (k + 1)) := by
  obtain ⟨hk, hc⟩ := List.getElem?_eq_some_iff.1 h
  conv_lhs => rw [← List.take_append_drop k cs, List.drop_eq_getElem_cons hk, hc]
  rw [areaOf_append, areaOf_cons, List.append_assoc]

theorem areaOf_set (h : cs[k]? = some c) (d : Command) :
    areaOf (cs.set k d) = areaOf (cs.take k) ++ d.bytes ++ areaOf (cs.drop (k + 1)) := by
  obtain ⟨hk, -⟩ := List.getElem?_eq_some_iff.1 h
  have hset : (cs.set k d)[k]? = some d := List.getElem?_set_self hk
  rw [areaOf_split hset, List.take_set_of_le (Nat.le_refl _), List.drop_set_of_lt (Nat.lt_succ_self _)]

theorem overwrite_header (hlen : header.length = kHeader64Size) (h : offset + data.length ≤ kHeader64Size) :
    overwrite (header ++ areaOf cs ++ body) offset data = overwrite header offset data ++ areaOf cs ++ body := by
  rw [List.append_assoc, overwrite_append_left (by rw [hlen]; exact h), List.append_assoc]

theorem overwrite_body (hlen : header.length = kHeader64Size) (offset : Nat) (data : List UInt8) :
    overwrite (header ++ areaOf cs ++ body) (kHeader64Size + (areaOf cs).length + offset) data =
      header ++ areaOf cs ++ overwrite body offset data := by
  rw [← hlen, ← List.length_append, overwrite_append_right]

theorem overwrite_command (hlen : header.length = kHeader64Size) (hc : cs[k]? = some c)
    (h : kLoadCommandHeaderSize ≤ offset) (hfits : offset + data.length ≤ c.bytes.length) :
    overwrite (header ++ areaOf cs ++ body) (commandAt cs k + offset) data =
      header ++ areaOf (cs.set k (patch c offset data h)) ++ body := by
  have hbefore : commandAt cs k = (header ++ areaOf (cs.take k)).length := by
    rw [commandAt, List.length_append, hlen]
  rw [areaOf_split hc, areaOf_set hc, hbefore]
  simp only [List.append_assoc]
  rw [← List.append_assoc header, overwrite_append_right, overwrite_append_left hfits, patch, List.append_assoc]

theorem commandAt_set (h : d.bytes.length = c.bytes.length) (hc : cs[k]? = some c) (j : Nat) :
    commandAt (cs.set k d) j = commandAt cs j := by
  rw [commandAt, commandAt, List.take_set]
  by_cases hk : k < j
  · have hc' : (cs.take j)[k]? = some c := by rw [List.getElem?_take, if_pos hk, hc]
    rw [areaOf_set hc', areaOf_split hc']
    simp only [List.length_append, h]
  · rw [List.set_eq_of_length_le (by rw [List.length_take]; omega)]

theorem length_areaOf_set (h : d.bytes.length = c.bytes.length) (hc : cs[k]? = some c) :
    (areaOf (cs.set k d)).length = (areaOf cs).length := by
  rw [areaOf_set hc, areaOf_split hc]
  simp only [List.length_append, h]

/-! The link-edit segment -/

theorem command_ext (h : c.bytes = d.bytes) : c = d := by
  cases c
  cases d
  cases h
  rfl

/-- A segment command with other sizes. -/
def relink (c : Command) (filesize vmsize : Nat) : Command :=
  patch (patch c kSegmentFilesizeField (leBytes 8 filesize) (by decide)) kSegmentVmsizeField (leBytes 8 vmsize) (by decide)

variable {filesize vmsize filesize' vmsize' : Nat}

/-- The two sizes of a segment do not meet. -/
theorem sizes_apart (vmsize : Nat) : kSegmentVmsizeField + (leBytes 8 vmsize).length ≤ kSegmentFilesizeField := by
  rw [length_leBytes]
  decide

@[simp] theorem relink_length : (relink c filesize vmsize).bytes.length = c.bytes.length := by
  rw [relink, patch_length, patch_length]

theorem relink_bytes : (relink c filesize vmsize).bytes =
    overwrite (overwrite c.bytes kSegmentFilesizeField (leBytes 8 filesize)) kSegmentVmsizeField (leBytes 8 vmsize) := rfl

theorem field_relink {at_ : Nat} (hsize : at_ + width ≤ 48 ∨ 56 ≤ at_) (hmemory : at_ + width ≤ 32 ∨ 40 ≤ at_) :
    (relink c filesize vmsize).field at_ width = c.field at_ width := by
  rw [relink, field_patch_of_disjoint (by simpa [kSegmentVmsizeField] using hmemory),
    field_patch_of_disjoint (by simpa [kSegmentFilesizeField] using hsize)]

@[simp] theorem relink_cmd : (relink c filesize vmsize).cmd = c.cmd := field_relink (by decide) (by decide)

@[simp] theorem relink_fileoff : (relink c filesize vmsize).fileoff = c.fileoff := field_relink (by decide) (by decide)

@[simp] theorem relink_nsects : (relink c filesize vmsize).nsects = c.nsects := field_relink (by decide) (by decide)

@[simp] theorem relink_name : (relink c filesize vmsize).name = c.name := by
  rw [Command.name, Command.name, relink_bytes, slice_overwrite_of_disjoint (.inl (by decide)),
    slice_overwrite_of_disjoint (.inl (by decide))]

@[simp] theorem relink_isSegment : (relink c filesize vmsize).isSegment = c.isSegment := by
  rw [Command.isSegment, Command.isSegment, relink_cmd]

@[simp] theorem relink_isSignature : (relink c filesize vmsize).isSignature = c.isSignature := by
  rw [Command.isSignature, Command.isSignature, relink_cmd]

theorem relink_filesize (hfits : kSegment64CommandSize ≤ c.bytes.length) :
    (relink c filesize vmsize).filesize = filesize % 256 ^ 8 := by
  have hroom : kSegmentFilesizeField + 8 ≤ c.bytes.length := Nat.le_trans (by decide) hfits
  rw [Command.filesize, relink, show (48 : Nat) = kSegmentFilesizeField from rfl,
    field_patch_of_disjoint (.inr (sizes_apart vmsize)), Command.field, patch, slice_overwrite_leBytes hroom, leValue_leBytes]

theorem relink_vmsize (hfits : kSegment64CommandSize ≤ c.bytes.length) :
    (relink c filesize vmsize).vmsize = vmsize % 256 ^ 8 := by
  have hroom : kSegmentVmsizeField + 8 ≤ c.bytes.length := Nat.le_trans (by decide) hfits
  rw [Command.vmsize, relink, show (32 : Nat) = kSegmentVmsizeField from rfl, Command.field, patch,
    slice_overwrite_leBytes (by rw [patch_length]; exact hroom), leValue_leBytes]

/-- Only the last sizes count. -/
theorem relink_relink : relink (relink c filesize vmsize) filesize' vmsize' = relink c filesize' vmsize' := by
  refine command_ext ?_
  rw [relink_bytes, relink_bytes, relink_bytes, @overwrite_comm (overwrite c.bytes _ _) _ _ _ _ (.inl (sizes_apart vmsize)),
    @overwrite_overwrite c.bytes _ _ _ (by simp), overwrite_overwrite (by simp)]

/-- A segment command whose data ends elsewhere. -/
theorem relink_keep (hfits : kSegment64CommandSize ≤ c.bytes.length) :
    relink c filesize c.vmsize = patch c kSegmentFilesizeField (leBytes 8 filesize) (by decide) := by
  refine command_ext ?_
  have hroom : kSegmentVmsizeField + 8 ≤ c.bytes.length := Nat.le_trans (by decide) hfits
  have hown : leBytes 8 c.vmsize = slice c.bytes kSegmentVmsizeField 8 := by
    have hlen : (slice c.bytes kSegmentVmsizeField 8).length = 8 := length_slice_of_le hroom
    conv_rhs => rw [← leBytes_leValue (slice c.bytes kSegmentVmsizeField 8), hlen]
    rfl
  rw [relink_bytes, overwrite_comm (.inr (sizes_apart _)), hown, overwrite_slice hroom]
  rfl

theorem relink_sound (h : c.isSegment = true) : (relink c filesize vmsize).Sound ↔ c.Sound := by
  have hcmd : c.cmd = kLcSegment64 := of_decide_eq_true h
  rw [Command.Sound, Command.Sound, relink_cmd, if_pos hcmd, if_pos hcmd, relink_nsects, relink_length]

theorem segment_length (h : c.isSegment = true) (hsound : c.Sound) : kSegment64CommandSize ≤ c.bytes.length := by
  rw [Command.Sound, if_pos (of_decide_eq_true h)] at hsound
  exact (Nat.le_add_right _ _).trans hsound

theorem overwrite_relink (hlen : header.length = kHeader64Size) (hc : cs[k]? = some c)
    (hfits : kSegment64CommandSize ≤ c.bytes.length) (filesize vmsize : Nat) :
    writeLE64 (writeLE64 (header ++ areaOf cs ++ body) (commandAt cs k + kSegmentFilesizeField) filesize)
        (commandAt cs k + kSegmentVmsizeField) vmsize =
      header ++ areaOf (cs.set k (relink c filesize vmsize)) ++ body := by
  have hk : k < cs.length := (List.getElem?_eq_some_iff.1 hc).1
  have hsize : kSegmentFilesizeField + (leBytes 8 filesize).length ≤ c.bytes.length := by
    rw [length_leBytes]
    exact Nat.le_trans (by decide) hfits
  have hmemory : kSegmentVmsizeField + (leBytes 8 vmsize).length ≤ c.bytes.length := by
    rw [length_leBytes]
    exact Nat.le_trans (by decide) hfits
  have hset : (cs.set k (patch c kSegmentFilesizeField (leBytes 8 filesize) (by decide)))[k]? =
      some (patch c kSegmentFilesizeField (leBytes 8 filesize) (by decide)) := List.getElem?_set_self hk
  have hat : commandAt (cs.set k (patch c kSegmentFilesizeField (leBytes 8 filesize) (by decide))) k = commandAt cs k :=
    commandAt_set patch_length hc k
  rw [writeLE64, writeLE64, overwrite_command hlen hc (by decide) hsize, ← hat, overwrite_command hlen hset (by decide) (by rw [patch_length]; exact hmemory), List.set_set]
  rfl

/-! The signature command -/

/-- A signature command for another place. -/
def resign (c : Command) (dataoff datasize : Nat) : Command :=
  patch (patch c 8 (leBytes 4 dataoff) (by decide)) 12 (leBytes 4 datasize) (by decide)

def signatureCommand (dataoff datasize : Nat) : Command where
  bytes := leBytes 4 kLcCodeSignature ++ leBytes 4 kSignatureCommandSize ++ leBytes 4 dataoff ++ leBytes 4 datasize
  least := by simp [kLoadCommandHeaderSize]
  aligned := by simp
  recorded := by
    simp only [List.append_assoc]
    rw [slice_append_right (by rw [length_leBytes]), length_leBytes, slice_append_left (by rw [length_leBytes])]
    simp [leBytes, slice, leValue, kSignatureCommandSize]

variable {dataoff datasize dataoff' datasize' : Nat}

@[simp] theorem signatureCommand_length : (signatureCommand dataoff datasize).bytes.length = kSignatureCommandSize := by
  simp [signatureCommand, kSignatureCommandSize]

@[simp] theorem resign_length : (resign c dataoff datasize).bytes.length = c.bytes.length := by
  rw [resign, patch_length, patch_length]

@[simp] theorem signatureCommand_cmd : (signatureCommand dataoff datasize).cmd = kLcCodeSignature := by
  rw [Command.cmd, Command.field, signatureCommand]
  simp only [List.append_assoc]
  rw [slice_append_left (by rw [length_leBytes])]
  simp [leBytes, slice, leValue, kLcCodeSignature]

@[simp] theorem signatureCommand_isSignature : (signatureCommand dataoff datasize).isSignature = true := by
  rw [Command.isSignature, signatureCommand_cmd]
  rfl

@[simp] theorem signatureCommand_isSegment : (signatureCommand dataoff datasize).isSegment = false :=
  signature_not_segment signatureCommand_isSignature

@[simp] theorem resign_cmd : (resign c dataoff datasize).cmd = c.cmd := by
  rw [Command.cmd, Command.cmd, resign, field_patch_of_disjoint (.inl (by decide)),
    field_patch_of_disjoint (.inl (by decide))]

@[simp] theorem resign_isSignature : (resign c dataoff datasize).isSignature = c.isSignature := by
  rw [Command.isSignature, Command.isSignature, resign_cmd]

@[simp] theorem resign_isSegment : (resign c dataoff datasize).isSegment = c.isSegment := by
  rw [Command.isSegment, Command.isSegment, resign_cmd]

theorem resign_dataoff (hfits : kCodeSignatureCommandSize ≤ c.bytes.length) (h : dataoff < 2 ^ 32) :
    (resign c dataoff datasize).dataoff = dataoff := by
  have hroom : 8 + 4 ≤ c.bytes.length := Nat.le_trans (by decide) hfits
  rw [Command.dataoff, resign, field_patch_of_disjoint (.inl (by decide))]
  exact field_patch_self hroom h

theorem resign_datasize (hfits : kCodeSignatureCommandSize ≤ c.bytes.length) (h : datasize < 2 ^ 32) :
    (resign c dataoff datasize).datasize = datasize := by
  have hroom : 12 + 4 ≤ (patch c 8 (leBytes 4 dataoff) (by decide)).bytes.length := by
    rw [patch_length]
    exact hfits
  exact field_patch_self hroom h

/-- A new command says what an old one would say after the same change. -/
theorem resign_signatureCommand :
    resign (signatureCommand dataoff datasize) dataoff' datasize' = signatureCommand dataoff' datasize' := by
  refine command_ext ?_
  have hbefore : (leBytes 4 kLcCodeSignature ++ leBytes 4 kSignatureCommandSize).length = 8 := by simp
  have hmiddle : ((leBytes 4 kLcCodeSignature ++ leBytes 4 kSignatureCommandSize) ++ leBytes 4 dataoff').length = 12 := by
    simp
  have hfirst : overwrite (signatureCommand dataoff datasize).bytes 8 (leBytes 4 dataoff') =
      leBytes 4 kLcCodeSignature ++ leBytes 4 kSignatureCommandSize ++ leBytes 4 dataoff' ++ leBytes 4 datasize := by
    rw [signatureCommand]
    simp only
    rw [List.append_assoc _ (leBytes 4 dataoff), show (8 : Nat) =
      (leBytes 4 kLcCodeSignature ++ leBytes 4 kSignatureCommandSize).length + 0 by simp, overwrite_append_right,
      overwrite_start (by simp), List.drop_left' (by simp), List.append_assoc _ (leBytes 4 dataoff')]
  show overwrite (overwrite (signatureCommand dataoff datasize).bytes 8 (leBytes 4 dataoff')) 12 (leBytes 4 datasize') = _
  rw [hfirst, show (12 : Nat) = ((leBytes 4 kLcCodeSignature ++ leBytes 4 kSignatureCommandSize) ++
    leBytes 4 dataoff').length + 0 by simp, overwrite_append_right, overwrite_start (by simp),
    List.drop_eq_nil_of_le (by simp), List.append_nil]
  rfl

theorem overwrite_resign (hlen : header.length = kHeader64Size) (hc : cs[j]? = some c)
    (hfits : kCodeSignatureCommandSize ≤ c.bytes.length) (dataoff datasize : Nat) :
    writeLE32 (writeLE32 (header ++ areaOf cs ++ body) (commandAt cs j + 8) dataoff) (commandAt cs j + 12) datasize =
      header ++ areaOf (cs.set j (resign c dataoff datasize)) ++ body := by
  have hj : j < cs.length := (List.getElem?_eq_some_iff.1 hc).1
  have hfirst : 8 + (leBytes 4 dataoff).length ≤ c.bytes.length := by
    rw [length_leBytes]
    exact Nat.le_trans (by decide) hfits
  have hsecond : 12 + (leBytes 4 datasize).length ≤ c.bytes.length := by
    rw [length_leBytes]
    exact hfits
  have hset : (cs.set j (patch c 8 (leBytes 4 dataoff) (by decide)))[j]? =
      some (patch c 8 (leBytes 4 dataoff) (by decide)) := List.getElem?_set_self hj
  have hat : commandAt (cs.set j (patch c 8 (leBytes 4 dataoff) (by decide))) j = commandAt cs j :=
    commandAt_set patch_length hc j
  rw [writeLE32, writeLE32, overwrite_command hlen hc (by decide) hfirst, ← hat, overwrite_command hlen hset (by decide) (by rw [patch_length]; exact hsecond), List.set_set]
  rfl

/-- A new command is put over the first bytes behind the others. -/
theorem overwrite_new (hlen : header.length = kHeader64Size) (hroom : kSignatureCommandSize ≤ body.length)
    (dataoff datasize : Nat) : overwrite (header ++ areaOf cs ++ body) (kHeader64Size + (areaOf cs).length)
      (signatureCommand dataoff datasize).bytes =
      header ++ areaOf (cs ++ [signatureCommand dataoff datasize]) ++ body.drop kSignatureCommandSize := by
  have hbody := @overwrite_body cs header body hlen 0 (signatureCommand dataoff datasize).bytes
  rw [Nat.add_zero] at hbody
  rw [hbody, overwrite_start (by rw [signatureCommand_length]; exact hroom), signatureCommand_length, areaOf_append,
    areaOf_cons, areaOf_nil, List.append_nil]
  simp only [List.append_assoc]

theorem signatureCommand_dataoff (h : dataoff < 2 ^ 32) : (signatureCommand dataoff datasize).dataoff = dataoff := by
  rw [← @resign_signatureCommand 0 0 dataoff datasize]
  exact resign_dataoff (by rw [signatureCommand_length]; decide) h

theorem signatureCommand_datasize (h : datasize < 2 ^ 32) : (signatureCommand dataoff datasize).datasize = datasize := by
  rw [← @resign_signatureCommand 0 0 dataoff datasize]
  exact resign_datasize (by rw [signatureCommand_length]; decide) h

theorem signature_sound (h : c.isSignature = true) : c.Sound ↔ kCodeSignatureCommandSize ≤ c.bytes.length := by
  have hcmd : c.cmd = kLcCodeSignature := of_decide_eq_true h
  rw [Command.Sound, if_neg (by rw [hcmd]; decide), if_pos hcmd]

/-! The header -/

/-- The header with other counts of the load commands. -/
def recount (header : List UInt8) (ncmds sizeofcmds : Nat) : List UInt8 :=
  overwrite (overwrite header 16 (leBytes 4 ncmds)) 20 (leBytes 4 sizeofcmds)

variable {ncmds sizeofcmds ncmds' sizeofcmds' : Nat}

@[simp] theorem recount_length : (recount header ncmds sizeofcmds).length = header.length := by
  rw [recount, length_overwrite, length_overwrite]

theorem recount_before {at_ : Nat} (h : at_ + width ≤ 16) :
    slice (recount header ncmds sizeofcmds) at_ width = slice header at_ width := by
  rw [recount, slice_overwrite_of_disjoint (.inl (by omega)), slice_overwrite_of_disjoint (.inl h)]

theorem recount_ncmds (hlen : header.length = kHeader64Size) (h : ncmds < 2 ^ 32) :
    leValue (slice (recount header ncmds sizeofcmds) 16 4) = ncmds := by
  rw [recount, slice_overwrite_of_disjoint (.inl (by decide)), slice_overwrite_leBytes (by rw [hlen]; decide),
    leValue_leBytes_of_lt h]

theorem recount_sizeofcmds (hlen : header.length = kHeader64Size) (h : sizeofcmds < 2 ^ 32) :
    leValue (slice (recount header ncmds sizeofcmds) 20 4) = sizeofcmds := by
  rw [recount, slice_overwrite_leBytes (by rw [length_overwrite, hlen]; decide), leValue_leBytes_of_lt h]

/-- The counts do not meet. -/
theorem counts_apart (ncmds : Nat) : 16 + (leBytes 4 ncmds).length ≤ 20 := by rw [length_leBytes]

theorem recount_recount : recount (recount header ncmds sizeofcmds) ncmds' sizeofcmds' = recount header ncmds' sizeofcmds' := by
  rw [recount, recount, recount, @overwrite_comm (overwrite header _ _) _ _ _ _ (.inr (counts_apart ncmds')),
    @overwrite_overwrite header _ _ _ (by simp), overwrite_overwrite (by simp)]

theorem recount_self (hlen : header.length = kHeader64Size) :
    recount header (leValue (slice header 16 4)) (leValue (slice header 20 4)) = header := by
  have hown : ∀ offset, offset + 4 ≤ kHeader64Size → leBytes 4 (leValue (slice header offset 4)) = slice header offset 4 := by
    intro offset h
    have hfour : (slice header offset 4).length = 4 := length_slice_of_le (by rw [hlen]; exact h)
    conv_rhs => rw [← leBytes_leValue (slice header offset 4), hfour]
  rw [recount, hown 16 (by decide), overwrite_slice (by rw [hlen]; decide), hown 20 (by decide),
    overwrite_slice (by rw [hlen]; decide)]

theorem overwrite_recount (hlen : header.length = kHeader64Size) (ncmds sizeofcmds : Nat) :
    writeLE32 (writeLE32 (header ++ areaOf cs ++ body) 16 ncmds) 20 sizeofcmds =
      recount header ncmds sizeofcmds ++ areaOf cs ++ body := by
  rw [writeLE32, writeLE32, overwrite_header hlen (by rw [length_leBytes]; decide),
    overwrite_header (by rw [length_overwrite, hlen]) (by rw [length_leBytes]; decide)]
  rfl

/-- The four numbers of a new command, written one after the other. -/
theorem write_signatureCommand {out : List UInt8} {place : Nat} (dataoff datasize : Nat) :
    writeLE32 (writeLE32 (writeLE32 (writeLE32 out place kLcCodeSignature) (place + 4) kSignatureCommandSize)
        (place + 8) dataoff) (place + 12) datasize = overwrite out place (signatureCommand dataoff datasize).bytes := by
  have hfixed : kSignatureCommandSize = 16 := rfl
  have hfour : ∀ n, (leBytes 4 n).length = 4 := fun n => length_leBytes 4 n
  have htwo : writeLE32 (writeLE32 out place kLcCodeSignature) (place + 4) kSignatureCommandSize =
      overwrite out place (leBytes 4 kLcCodeSignature ++ leBytes 4 kSignatureCommandSize) := by
    rw [writeLE32, writeLE32, ← overwrite_adjacent, hfour]
  have hthree : writeLE32 (overwrite out place (leBytes 4 kLcCodeSignature ++ leBytes 4 kSignatureCommandSize)) (place + 8)
        dataoff = overwrite out place (leBytes 4 kLcCodeSignature ++ leBytes 4 kSignatureCommandSize ++ leBytes 4 dataoff) := by
    rw [writeLE32, ← @overwrite_adjacent out (leBytes 4 kLcCodeSignature ++ leBytes 4 kSignatureCommandSize) (leBytes 4 dataoff)
      place, List.length_append, hfour, hfour]
  rw [htwo, hthree, writeLE32, signatureCommand,
    ← @overwrite_adjacent _ (leBytes 4 kLcCodeSignature ++ leBytes 4 kSignatureCommandSize ++ leBytes 4 dataoff)
      (leBytes 4 datasize)]
  simp only [List.length_append, hfour]

end TheSeed.MachOEdits
