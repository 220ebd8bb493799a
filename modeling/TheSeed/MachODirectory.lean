import TheSeed.MachOSuperBlob

namespace TheSeed.MachODirectory

open Bytes Checked BoundedBytes MachOLayout MachOSigner MachOSuperBlob

/-! Reading the fields of a CodeDirectory back. -/

variable {hash : List UInt8 → Digest} {layout : SliceLayout} {identity out : List UInt8} {dataoff k : Nat}
  {field : Nat × List UInt8}

/-- The numbers at the start. -/
def startFields (identity : List UInt8) (dataoff : Nat) : List (Nat × List UInt8) :=
  [(0, beBytes 4 csmagicCodeDirectory), (4, beBytes 4 (cdSize identity dataoff)), (8, beBytes 4 csSupportsExecseg),
    (12, beBytes 4 0), (16, beBytes 4 (hashOffset identity + kSpecialSlots * csHashSizeSha256)),
    (20, beBytes 4 kCodeDirectoryFixedSize), (24, beBytes 4 kSpecialSlots), (28, beBytes 4 (codeSlots dataoff)),
    (32, beBytes 4 dataoff), (36, beBytes 1 csHashSizeSha256), (37, beBytes 1 csHashTypeSha256), (38, beBytes 1 0),
    (39, beBytes 1 csPageSizeLog2)]

def textFields (layout : SliceLayout) : List (Nat × List UInt8) :=
  match layout.text with
  | some text => [(64, beBytes 8 text.fileoff), (72, beBytes 8 text.filesize)]
  | none => []

def middleFields (hash : List UInt8 → Digest) (layout : SliceLayout) (identity : List UInt8) : List (Nat × List UInt8) :=
  [(80, beBytes 8 (if layout.filetype = mhExecute then csExecsegMainBinary else 0)),
    (kCodeDirectoryFixedSize, identity ++ [0]), (hashOffset identity, (hash buildEmptyRequirements).1)]

/-- The bytes that a slot is for. -/
def page (out : List UInt8) (dataoff k : Nat) : List UInt8 :=
  slice out (k * csPageSize) (min (k * csPageSize + csPageSize) dataoff - k * csPageSize)

def slotFields (hash : List UInt8 → Digest) (identity out : List UInt8) (dataoff : Nat) : List (Nat × List UInt8) :=
  (List.range (codeSlots dataoff)).map fun i =>
    (hashOffset identity + kSpecialSlots * csHashSizeSha256 + i * csHashSizeSha256, (hash (page out dataoff i)).1)

theorem codeDirectoryFields_eq : codeDirectoryFields hash layout identity out dataoff =
    startFields identity dataoff ++ textFields layout ++ middleFields hash layout identity ++
      slotFields hash identity out dataoff := rfl

/-- All fields that follow a group of fields begin behind it. -/
theorem pairwise_groups {fields others : List (Nat × List UInt8)} {stop : Nat}
    (hfields : fields.Pairwise fun a b => a.1 + a.2.length ≤ b.1) (hothers : others.Pairwise fun a b => a.1 + a.2.length ≤ b.1)
    (hbefore : ∀ field ∈ fields, field.1 + field.2.length ≤ stop) (hbehind : ∀ field ∈ others, stop ≤ field.1) :
    (fields ++ others).Pairwise fun a b => a.1 + a.2.length ≤ b.1 :=
  List.pairwise_append.2 ⟨hfields, hothers, fun a ha b hb => (hbefore a ha).trans (hbehind b hb)⟩

theorem startFields_end : ∀ field ∈ startFields identity dataoff, field.1 + field.2.length ≤ 40 := by
  intro field h
  simp only [startFields, List.mem_cons, List.not_mem_nil, or_false] at h
  rcases h with rfl | rfl | rfl | rfl | rfl | rfl | rfl | rfl | rfl | rfl | rfl | rfl | rfl <;>
    simp only [length_beBytes] <;> decide

theorem textFields_bounds : ∀ field ∈ textFields layout, 64 ≤ field.1 ∧ field.1 + field.2.length ≤ 80 := by
  intro field h
  rw [textFields] at h
  split at h
  · simp only [List.mem_cons, List.not_mem_nil, or_false] at h
    rcases h with rfl | rfl <;> simp only [length_beBytes] <;> decide
  · cases h

theorem middleFields_bounds : ∀ field ∈ middleFields hash layout identity,
    80 ≤ field.1 ∧ field.1 + field.2.length ≤ hashOffset identity + csHashSizeSha256 := by
  intro field h
  have hoffset : hashOffset identity = 89 + identity.length := by
    rw [hashOffset, kCodeDirectoryFixedSize]
    omega
  have hlen := (hash buildEmptyRequirements).2
  simp only [middleFields, List.mem_cons, List.not_mem_nil, or_false] at h
  rcases h with rfl | rfl | rfl
  · simp only [length_beBytes]
    omega
  · simp only [List.length_append, List.length_singleton, kCodeDirectoryFixedSize]
    omega
  · simp only [hlen]
    omega

theorem slotFields_bounds : ∀ field ∈ slotFields hash identity out dataoff,
    hashOffset identity + kSpecialSlots * csHashSizeSha256 ≤ field.1 ∧
      field.1 + field.2.length ≤ cdSize identity dataoff := by
  intro field h
  obtain ⟨i, hi, rfl⟩ := List.mem_map.1 h
  have hlt : i + 1 ≤ codeSlots dataoff := List.mem_range.1 hi
  have hle := Nat.mul_le_mul_right csHashSizeSha256 hlt
  simp only [(hash (page out dataoff i)).2, cdSize, Nat.add_mul, Nat.one_mul] at hle ⊢
  omega

theorem cdSize_eq (identity : List UInt8) (dataoff : Nat) :
    cdSize identity dataoff = 153 + identity.length + codeSlots dataoff * 32 := by
  simp only [cdSize, hashOffset, kCodeDirectoryFixedSize, kSpecialSlots, csHashSizeSha256]
  omega

theorem fields_apart : (codeDirectoryFields hash layout identity out dataoff).Pairwise
    fun a b => a.1 + a.2.length ≤ b.1 := by
  rw [codeDirectoryFields_eq]
  have hoffset : hashOffset identity = 89 + identity.length := by
    rw [hashOffset, kCodeDirectoryFixedSize]
    omega
  have hstart : (startFields identity dataoff).Pairwise fun a b => a.1 + a.2.length ≤ b.1 := by
    simp [startFields]
  have htext : (textFields layout).Pairwise fun a b => a.1 + a.2.length ≤ b.1 := by
    rw [textFields]
    split <;> simp
  have hmiddle : (middleFields hash layout identity).Pairwise fun a b => a.1 + a.2.length ≤ b.1 := by
    simp [middleFields, kCodeDirectoryFixedSize, hoffset]
    omega
  have hslots : (slotFields hash identity out dataoff).Pairwise fun a b => a.1 + a.2.length ≤ b.1 := by
    rw [slotFields, List.pairwise_map]
    refine List.pairwise_lt_range.imp fun {i j} hij => ?_
    have hle := Nat.mul_le_mul_right csHashSizeSha256 (Nat.succ_le_of_lt hij)
    simp only [(hash (page out dataoff i)).2, Nat.succ_mul] at hle ⊢
    omega
  have hfirst := @pairwise_groups _ _ 64 hstart htext (fun field h => (startFields_end field h).trans (by decide))
    fun field h => (textFields_bounds field h).1
  have hsecond := @pairwise_groups _ _ 80 hfirst hmiddle (fun field h => by
    rcases List.mem_append.1 h with h | h
    · exact (startFields_end field h).trans (by decide)
    · exact (textFields_bounds field h).2) fun field h => (middleFields_bounds field h).1
  refine @pairwise_groups _ _ (hashOffset identity + csHashSizeSha256) hsecond hslots (fun field h => ?_) fun field h => ?_
  · rcases List.mem_append.1 h with h | h
    · rcases List.mem_append.1 h with h | h
      · exact (startFields_end field h).trans (by omega)
      · exact (textFields_bounds field h).2.trans (by omega)
    · exact (middleFields_bounds field h).2
  · refine le_trans ?_ (slotFields_bounds field h).1
    exact Nat.add_le_add_left (by decide) _

theorem fields_inside : ∀ field ∈ codeDirectoryFields hash layout identity out dataoff,
    field.1 + field.2.length ≤ cdSize identity dataoff := by
  intro field h
  have hsize := cdSize_eq identity dataoff
  have hoffset : hashOffset identity = 89 + identity.length := by
    rw [hashOffset, kCodeDirectoryFixedSize]
    omega
  have hdigest : csHashSizeSha256 = 32 := rfl
  rw [codeDirectoryFields_eq] at h
  simp only [List.mem_append] at h
  rcases h with ((h | h) | h) | h
  · exact (startFields_end field h).trans (by omega)
  · exact (textFields_bounds field h).2.trans (by omega)
  · exact (middleFields_bounds field h).2.trans (by omega)
  · exact (slotFields_bounds field h).2

theorem length_codeDirectory : (codeDirectory hash layout identity out dataoff).length = cdSize identity dataoff := by
  rw [codeDirectory, length_overwriteAll, List.length_replicate]

/-- Every field is there. -/
theorem slice_field (h : field ∈ codeDirectoryFields hash layout identity out dataoff) :
    slice (codeDirectory hash layout identity out dataoff) field.1 field.2.length = field.2 := by
  rw [codeDirectory]
  refine slice_overwriteAll fields_apart (fun other hother => ?_) h
  rw [List.length_replicate]
  exact fields_inside other hother

/-- A number of the start, when it fits its field. -/
theorem beValue_start {offset value : Nat} (h : (offset, beBytes 4 value) ∈ startFields identity dataoff) (hv : value < 2 ^ 32) :
    beValue (slice (codeDirectory hash layout identity out dataoff) offset 4) = value := by
  have hin : (offset, beBytes 4 value) ∈ codeDirectoryFields hash layout identity out dataoff := by
    rw [codeDirectoryFields_eq]
    simp only [List.mem_append]
    exact .inl (.inl (.inl h))
  have hfield := @slice_field hash layout identity out dataoff _ hin
  simp only [length_beBytes] at hfield
  rw [hfield]
  exact beValue_beBytes_of_lt hv

/-- A slot has the fingerprint of its page. -/
theorem slice_slot (hk : k < codeSlots dataoff) : slice (codeDirectory hash layout identity out dataoff)
    (hashOffset identity + kSpecialSlots * csHashSizeSha256 + k * csHashSizeSha256) csHashSizeSha256 =
      (hash (page out dataoff k)).1 := by
  have hin : (hashOffset identity + kSpecialSlots * csHashSizeSha256 + k * csHashSizeSha256, (hash (page out dataoff k)).1) ∈
      codeDirectoryFields hash layout identity out dataoff := by
    rw [codeDirectoryFields_eq]
    simp only [List.mem_append]
    exact .inr (List.mem_map.2 ⟨k, List.mem_range.2 hk, rfl⟩)
  have hfield := @slice_field hash layout identity out dataoff _ hin
  rwa [(hash (page out dataoff k)).2] at hfield

end TheSeed.MachODirectory
