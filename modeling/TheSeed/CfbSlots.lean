import Mathlib.Data.List.GetD
import TheSeed.CfbWriter

namespace TheSeed.CfbSlots

open Bytes Checked BoundedBytes CfbReader CfbWriter

/-! A directory entry as it stands in the output, and what the reader makes of it. -/

variable {m : PackageModel} {span : ByteSpan} {entry : Entry} {layout : Layout} {isRoot : Bool} {version base : Nat}

/-- A number in the bytes of an entry. -/
def field (slot : List UInt8) (offset width : Nat) : Nat := leValue (slice slot offset width)

section reads

variable {offset width length : Nat}

theorem read_little (h : offset + width ≤ span.bytes.length) (what : String) :
    span.read width offset .little what = .ok (leValue (slice span.bytes offset width)) := by
  apply ByteSpan.read_eq_ok.2
  exact ⟨h, rfl⟩

/-- A field of a part of the view. -/
theorem read_inside (h : base + length ≤ span.bytes.length) (hin : offset + width ≤ length) (what : String) :
    span.read width (base + offset) .little what =
      .ok (field (slice span.bytes base length) offset width) := by
  rw [read_little (by omega), field, slice_slice hin]

theorem mapM_range {α : Type} {get : Nat → Outcome α} {f : Nat → α} {n : Nat} (h : ∀ i < n, get i = .ok (f i)) :
    (List.range n).mapM get = .ok ((List.range n).map f) := by
  apply mapM_ok
  intro i hi
  exact h i (List.mem_range.1 hi)

end reads

/-! What the reader makes of the bytes of an entry -/

def nameIn (slot : List UInt8) : CfbName :=
  if 2 ≤ field slot 64 2 ∧ field slot 64 2 ≤ 64 then
    CfbName.ofUnits (((List.range (field slot 64 2 / 2 - 1)).map fun c => field slot (c * 2) 2).map UInt16.ofNat)
  else CfbName.ofUnits []

def entryIn (version : Nat) (slot : List UInt8) : DirEntry where
  name := nameIn slot
  type := field slot 66 1
  left := field slot 68 4
  right := field slot 72 4
  child := field slot 76 4
  startSector := field slot 116 4
  size := field slot 120 (if version = 4 then 8 else 4)
  classId := CfbClassId.ofBytes (((List.range 16).map fun b => field slot (80 + b) 1).map UInt8.ofNat)
  stateBits := UInt32.ofNat (field slot 96 4)
  creationTime := UInt64.ofNat (field slot 100 8)
  modificationTime := UInt64.ofNat (field slot 108 8)

theorem readEntryName_eq (h : base + kDirEntrySize ≤ span.bytes.length) :
    readEntryName span base = .ok (nameIn (slice span.bytes base kDirEntrySize)) := by
  rw [readEntryName, read_inside h (by decide), ok_bind, nameIn]
  by_cases hsize : 2 ≤ field (slice span.bytes base kDirEntrySize) 64 2 ∧
      field (slice span.bytes base kDirEntrySize) 64 2 ≤ 64
  · rw [if_pos hsize, if_pos hsize]
    have hunits : ∀ c < field (slice span.bytes base kDirEntrySize) 64 2 / 2 - 1,
        span.read 2 (base + c * 2) .little "directory entry name" =
          .ok (field (slice span.bytes base kDirEntrySize) (c * 2) 2) := by
      intro c hc
      apply read_inside h
      have hlast := hsize.2
      rw [kDirEntrySize]
      omega
    rw [mapM_range hunits]
    rfl
  · rw [if_neg hsize, if_neg hsize]
    rfl

/-- Every entry that lies inside its sector can be read. -/
theorem parseDirEntry_eq (h : base + kDirEntrySize ≤ span.bytes.length) :
    parseDirEntry m span base = .ok (entryIn m.header.majorVersion (slice span.bytes base kDirEntrySize)) := by
  have hclass : ∀ b < 16, span.read 1 (base + 80 + b) .little "class identifier" =
      .ok (field (slice span.bytes base kDirEntrySize) (80 + b) 1) := by
    intro b hb
    rw [Nat.add_assoc]
    apply read_inside h
    rw [kDirEntrySize]
    omega
  have hsize : 120 + (if m.header.majorVersion = 4 then 8 else 4) ≤ kDirEntrySize := by
    split <;> decide
  rw [parseDirEntry, readEntryName_eq h, ok_bind, read_inside h (by decide), ok_bind, read_inside h (by decide), ok_bind,
    read_inside h (by decide), ok_bind, read_inside h (by decide), ok_bind, mapM_range hclass, ok_bind,
    read_inside h (by decide), ok_bind, read_inside h (by decide), ok_bind, read_inside h (by decide), ok_bind,
    read_inside h (by decide), ok_bind, read_inside h hsize, ok_bind]
  rfl

/-! What the writer puts there -/

def startFields (entry : Entry) (isRoot : Bool) (layout : Layout) : List (Nat × List UInt8) :=
  if isRoot then [
    (116, leBytes 4 (if layout.miniSectors = 0 then kCfbEndOfChain else layout.miniStreamStart)),
    (120, leBytes 8 (layout.miniSectors * kMiniSectorSize))]
  else if entry.node.isStorage then [(116, leBytes 4 0)]
  else [(116, leBytes 4 entry.start), (120, leBytes 8 entry.size)]

def typeOf (entry : Entry) (isRoot : Bool) : Nat :=
  if isRoot then kTypeRoot else if entry.node.isStorage then kTypeStorage else kTypeStream

def nameBytes (name : CfbName) : List UInt8 := name.1.flatMap fun unit => leBytes 2 unit.toNat

def slotFields (entry : Entry) (isRoot : Bool) (layout : Layout) : List (Nat × List UInt8) := [
  (0, nameBytes entry.node.name),
  (64, leBytes 2 ((entry.node.name.1.length + 1) * 2)),
  (66, leBytes 1 (typeOf entry isRoot)),
  (67, leBytes 1 kColourBlack),
  (68, leBytes 4 entry.left),
  (72, leBytes 4 entry.right),
  (76, leBytes 4 entry.child),
  (80, entry.node.classId.1),
  (96, leBytes 4 entry.node.stateBits.toNat),
  (100, leBytes 8 entry.node.creationTime.toNat),
  (108, leBytes 8 entry.node.modificationTime.toNat)] ++ startFields entry isRoot layout

theorem writeDirectoryEntry_eq (entry : Entry) (isRoot : Bool) (layout : Layout) :
    writeDirectoryEntry entry isRoot layout =
      overwriteAll (List.replicate kDirEntrySize 0) (slotFields entry isRoot layout) := by
  rw [slotFields, startFields, writeDirectoryEntry]
  by_cases hroot : isRoot = true
  · simp only [if_pos hroot, typeOf, nameBytes, overwriteAll, List.cons_append, List.nil_append, List.foldl_cons,
      List.foldl_nil]
  · simp only [if_neg hroot, typeOf, nameBytes]
    by_cases hstorage : entry.node.isStorage = true
    · simp only [if_pos hstorage, overwriteAll, List.cons_append, List.nil_append, List.foldl_cons, List.foldl_nil]
    · simp only [if_neg hstorage, overwriteAll, List.cons_append, List.nil_append, List.foldl_cons, List.foldl_nil]

theorem length_nameBytes (name : CfbName) : (nameBytes name).length = 2 * name.1.length := by
  rw [nameBytes, List.length_flatMap]
  simp [Nat.mul_comm]

theorem length_name_le (name : CfbName) : (nameBytes name).length ≤ 62 := by
  have hshort := name.2
  rw [length_nameBytes]
  omega

theorem slotFields_apart (entry : Entry) (isRoot : Bool) (layout : Layout) :
    (slotFields entry isRoot layout).Pairwise fun a b => a.1 + a.2.length ≤ b.1 := by
  have hname := length_name_le entry.node.name
  have hclass := entry.node.classId.2
  rw [slotFields, startFields]
  split
  · simp only [List.cons_append, List.nil_append, List.pairwise_cons, List.forall_mem_cons, List.not_mem_nil,
      false_imp_iff, implies_true, length_leBytes, hclass, and_true, List.Pairwise.nil]
    omega
  · split
    · simp only [List.cons_append, List.nil_append, List.pairwise_cons, List.forall_mem_cons, List.not_mem_nil,
        false_imp_iff, implies_true, length_leBytes, hclass, and_true, List.Pairwise.nil]
      omega
    · simp only [List.cons_append, List.nil_append, List.pairwise_cons, List.forall_mem_cons, List.not_mem_nil,
        false_imp_iff, implies_true, length_leBytes, hclass, and_true, List.Pairwise.nil]
      omega

theorem slotFields_fit (entry : Entry) (isRoot : Bool) (layout : Layout) :
    ∀ field ∈ slotFields entry isRoot layout, field.1 + field.2.length ≤ kDirEntrySize := by
  have hname := length_name_le entry.node.name
  have hclass := entry.node.classId.2
  rw [slotFields, startFields]
  split
  · simp only [List.cons_append, List.nil_append, List.forall_mem_cons, List.not_mem_nil, false_imp_iff, implies_true,
      length_leBytes, hclass, kDirEntrySize, and_true]
    omega
  · split
    · simp only [List.cons_append, List.nil_append, List.forall_mem_cons, List.not_mem_nil, false_imp_iff, implies_true,
        length_leBytes, hclass, kDirEntrySize, and_true]
      omega
    · simp only [List.cons_append, List.nil_append, List.forall_mem_cons, List.not_mem_nil, false_imp_iff, implies_true,
        length_leBytes, hclass, kDirEntrySize, and_true]
      omega

/-- A field as it stands in the slot. -/
theorem slice_slot {offset width : Nat} {data : List UInt8} (h : (offset, data) ∈ slotFields entry isRoot layout)
    (hwidth : data.length = width) : slice (writeDirectoryEntry entry isRoot layout) offset width = data := by
  subst hwidth
  rw [writeDirectoryEntry_eq]
  apply slice_overwriteAll (slotFields_apart entry isRoot layout) _ h
  rw [List.length_replicate]
  exact slotFields_fit entry isRoot layout

theorem field_slot {offset width value : Nat} (h : (offset, leBytes width value) ∈ slotFields entry isRoot layout)
    (hvalue : value < 256 ^ width) : field (writeDirectoryEntry entry isRoot layout) offset width = value := by
  rw [field, slice_slot h (length_leBytes width value), leValue_leBytes_of_lt hvalue]

theorem length_slot (entry : Entry) (isRoot : Bool) (layout : Layout) :
    (writeDirectoryEntry entry isRoot layout).length = kDirEntrySize := by
  rw [writeDirectoryEntry_eq, length_overwriteAll, List.length_replicate]

theorem length_unused : writeUnusedEntry.length = kDirEntrySize := by
  simp only [writeUnusedEntry, length_overwrite, List.length_replicate]

/-! The reader gets back what the writer meant -/

/-- An entry of the output as the reader shows it. -/
def shown (entry : Entry) (isRoot : Bool) (layout : Layout) : DirEntry where
  name := entry.node.name
  type := typeOf entry isRoot
  left := entry.left
  right := entry.right
  child := entry.child
  startSector :=
    if isRoot then if layout.miniSectors = 0 then kCfbEndOfChain else layout.miniStreamStart
    else if entry.node.isStorage then 0 else entry.start
  size := if isRoot then layout.miniSectors * kMiniSectorSize else if entry.node.isStorage then 0 else entry.size
  classId := entry.node.classId
  stateBits := entry.node.stateBits
  creationTime := entry.node.creationTime
  modificationTime := entry.node.modificationTime

/-- Its numbers have room in their fields. -/
structure Fits (version : Nat) (entry : Entry) (isRoot : Bool) (layout : Layout) : Prop where
  left : entry.left < 2 ^ 32
  right : entry.right < 2 ^ 32
  child : entry.child < 2 ^ 32
  start : (shown entry isRoot layout).startSector < 2 ^ 32
  size : (shown entry isRoot layout).size < if version = 4 then 2 ^ 64 else 2 ^ 32

theorem ofUnits_name (name : CfbName) : CfbName.ofUnits name.1 = name := by
  apply Subtype.ext
  exact List.take_of_length_le name.2

theorem ofBytes_classId (classId : CfbClassId) : CfbClassId.ofBytes classId.1 = classId := by
  apply Subtype.ext
  exact List.take_left' classId.2

theorem flatMap_getD {α : Type} (xs : List α) (d : α) (f : α → List UInt8) :
    xs.flatMap f = (List.range xs.length).flatMap fun i => f (xs.getD i d) := by
  have hxs : xs = (List.range xs.length).map fun i => xs.getD i d := by
    apply List.ext_getElem
    · rw [List.length_map, List.length_range]
    · intro i hi hi'
      rw [List.getElem_map, List.getElem_range, List.getD_eq_getElem _ _ hi]
  conv_lhs => rw [hxs]
  rw [List.flatMap_map]

theorem map_range_getD {α β : Type} (xs : List α) (d : α) (f : α → β) :
    ((List.range xs.length).map fun i => f (xs.getD i d)) = xs.map f := by
  apply List.ext_getElem
  · rw [List.length_map, List.length_map, List.length_range]
  · intro i hi hi'
    rw [List.length_map] at hi'
    rw [List.getElem_map, List.getElem_map, List.getElem_range, List.getD_eq_getElem _ _ hi']

theorem unit_slot {c : Nat} (h : c < entry.node.name.1.length) :
    field (writeDirectoryEntry entry isRoot layout) (c * 2) 2 = (entry.node.name.1.getD c 0).toNat := by
  have hname : slice (writeDirectoryEntry entry isRoot layout) 0 (2 * entry.node.name.1.length) =
      nameBytes entry.node.name := slice_slot List.mem_cons_self (length_nameBytes _)
  have hunit : slice (writeDirectoryEntry entry isRoot layout) (c * 2) 2 = slice (nameBytes entry.node.name) (c * 2) 2 := by
    rw [← hname, slice_slice (by omega), Nat.zero_add]
  rw [field, hunit, nameBytes, flatMap_getD _ 0, slice_flatMap_range (fun i => length_leBytes 2 _) h]
  apply leValue_leBytes_of_lt
  exact (entry.node.name.1.getD c 0).toNat_lt

theorem nameIn_slot (entry : Entry) (isRoot : Bool) (layout : Layout) :
    nameIn (writeDirectoryEntry entry isRoot layout) = entry.node.name := by
  have hshort := entry.node.name.2
  have hsize : field (writeDirectoryEntry entry isRoot layout) 64 2 = (entry.node.name.1.length + 1) * 2 := by
    apply field_slot
    · exact List.mem_cons_of_mem _ List.mem_cons_self
    · omega
  have hcount : (entry.node.name.1.length + 1) * 2 / 2 - 1 = entry.node.name.1.length := by omega
  have hunits : ((List.range entry.node.name.1.length).map fun c =>
      field (writeDirectoryEntry entry isRoot layout) (c * 2) 2).map UInt16.ofNat = entry.node.name.1 := by
    rw [List.map_map]
    have hall := map_range_getD entry.node.name.1 0 id
    rw [List.map_id] at hall
    conv_rhs => rw [← hall]
    apply List.map_congr_left
    intro c hc
    rw [Function.comp_apply, unit_slot (List.mem_range.1 hc)]
    exact UInt16.ofNat_toNat
  rw [nameIn, hsize, if_pos (by omega), hcount, hunits, ofUnits_name]

theorem classId_slot (entry : Entry) (isRoot : Bool) (layout : Layout) :
    CfbClassId.ofBytes (((List.range 16).map fun b =>
      field (writeDirectoryEntry entry isRoot layout) (80 + b) 1).map UInt8.ofNat) = entry.node.classId := by
  have hlength := entry.node.classId.2
  have hwhole : slice (writeDirectoryEntry entry isRoot layout) 80 16 = entry.node.classId.1 := by
    apply slice_slot _ hlength
    simp [slotFields]
  have hbytes : ((List.range 16).map fun b =>
      field (writeDirectoryEntry entry isRoot layout) (80 + b) 1).map UInt8.ofNat = entry.node.classId.1 := by
    rw [List.map_map]
    apply List.ext_getElem
    · rw [List.length_map, List.length_range, hlength]
    · intro b hb hb'
      rw [List.length_map, List.length_range] at hb
      have hone : slice entry.node.classId.1 b 1 = [entry.node.classId.1[b]] := by
        rw [slice, List.drop_eq_getElem_cons hb', List.take_succ_cons, List.take_zero]
      rw [List.getElem_map, List.getElem_range, Function.comp_apply, field, ← slice_slice (by omega : b + 1 ≤ 16), hwhole,
        hone]
      simp [leValue]
  rw [hbytes, ofBytes_classId]

theorem start_slot (h : (shown entry isRoot layout).startSector < 2 ^ 32) :
    field (writeDirectoryEntry entry isRoot layout) 116 4 = (shown entry isRoot layout).startSector := by
  apply field_slot _ h
  rw [slotFields, List.mem_append]
  right
  rw [startFields, shown]
  split
  · exact List.mem_cons_self
  · split <;> exact List.mem_cons_self

/-- A size is written in eight bytes, and older versions read the first four. -/
theorem size_slot (h : (shown entry isRoot layout).size < if version = 4 then 2 ^ 64 else 2 ^ 32) :
    field (writeDirectoryEntry entry isRoot layout) 120 (if version = 4 then 8 else 4) =
      (shown entry isRoot layout).size := by
  have hwidth : (if version = 4 then 8 else 4) ≤ 8 := by split <;> decide
  have hwhole : slice (writeDirectoryEntry entry isRoot layout) 120 8 = leBytes 8 (shown entry isRoot layout).size := by
    rw [shown]
    by_cases hroot : isRoot = true
    · apply slice_slot _ (length_leBytes 8 _)
      simp [slotFields, startFields, hroot]
    · by_cases hstorage : entry.node.isStorage = true
      · have hname := length_name_le entry.node.name
        have hclass := entry.node.classId.2
        rw [if_neg hroot, if_pos hstorage, writeDirectoryEntry_eq, slice_overwriteAll_of_disjoint, kDirEntrySize,
          slice_replicate (by decide)]
        · simp only [if_neg hroot, if_pos hstorage]
          decide
        · simp only [slotFields, startFields, if_neg hroot, if_pos hstorage, List.cons_append, List.nil_append,
            List.forall_mem_cons, List.not_mem_nil, false_imp_iff, implies_true, length_leBytes, hclass, and_true]
          omega
      · apply slice_slot _ (length_leBytes 8 _)
        simp [slotFields, startFields, hroot, hstorage]
  have hslice : slice (writeDirectoryEntry entry isRoot layout) 120 (if version = 4 then 8 else 4) =
      leBytes (if version = 4 then 8 else 4) (shown entry isRoot layout).size := by
    have hpart := @slice_slice (writeDirectoryEntry entry isRoot layout) 120 8 0 (if version = 4 then 8 else 4) (by omega)
    rw [Nat.add_zero, hwhole, slice_zero, take_leBytes hwidth] at hpart
    exact hpart.symm
  rw [field, hslice]
  apply leValue_leBytes_of_lt
  split at h
  · rwa [if_pos ‹_›]
  · rwa [if_neg ‹_›]

/-- What is written for an entry is read back. -/
theorem entryIn_slot (h : Fits version entry isRoot layout) :
    entryIn version (writeDirectoryEntry entry isRoot layout) = shown entry isRoot layout := by
  have hleft : field (writeDirectoryEntry entry isRoot layout) 68 4 = entry.left :=
    field_slot (by simp [slotFields]) h.left
  have hright : field (writeDirectoryEntry entry isRoot layout) 72 4 = entry.right :=
    field_slot (by simp [slotFields]) h.right
  have hchild : field (writeDirectoryEntry entry isRoot layout) 76 4 = entry.child :=
    field_slot (by simp [slotFields]) h.child
  have htype : field (writeDirectoryEntry entry isRoot layout) 66 1 = typeOf entry isRoot := by
    apply field_slot
    · simp [slotFields]
    · rw [typeOf]
      split
      · decide
      · split <;> decide
  have hbits : field (writeDirectoryEntry entry isRoot layout) 96 4 = entry.node.stateBits.toNat :=
    field_slot (by simp [slotFields]) entry.node.stateBits.toNat_lt
  have hcreated : field (writeDirectoryEntry entry isRoot layout) 100 8 = entry.node.creationTime.toNat :=
    field_slot (by simp [slotFields]) entry.node.creationTime.toNat_lt
  have hmodified : field (writeDirectoryEntry entry isRoot layout) 108 8 = entry.node.modificationTime.toNat :=
    field_slot (by simp [slotFields]) entry.node.modificationTime.toNat_lt
  rw [entryIn, nameIn_slot, htype, hleft, hright, hchild, classId_slot, hbits, hcreated, hmodified, start_slot h.start,
    size_slot h.size, UInt32.ofNat_toNat, UInt64.ofNat_toNat, UInt64.ofNat_toNat]
  rfl

end TheSeed.CfbSlots
