import TheSeed.CfbWriter

namespace TheSeed.CfbHeader

open Bytes Checked BoundedBytes CfbReader CfbWriter

/-! The header of the output, field by field. -/

variable {m : PackageModel} {layout : Layout} {entries : List Entry}

@[simp] theorem length_indexBytes (index : Index) (count : Nat) : (indexBytes index count).length = 4 * count := by
  simp [indexBytes, Nat.mul_comm]

def headerFields (m : PackageModel) (layout : Layout) : List (Nat × List UInt8) := [
  (0, kMagic),
  (8, slice m.source.bytes 8 16),
  (24, leBytes 2 m.header.minorVersion),
  (26, leBytes 2 m.header.majorVersion),
  (28, leBytes 2 0xFFFE),
  (30, leBytes 2 (if m.header.majorVersion = 4 then 12 else 9)),
  (32, leBytes 2 6),
  (40, leBytes 4 (if m.header.majorVersion = 4 then layout.directorySectors else 0)),
  (44, leBytes 4 layout.fatSectors),
  (48, leBytes 4 layout.directoryStart),
  (52, slice m.source.bytes 52 4),
  (56, leBytes 4 m.header.miniStreamCutoff),
  (60, leBytes 4 (if layout.miniIndexSectors = 0 then kCfbEndOfChain else layout.miniIndexStart)),
  (64, leBytes 4 layout.miniIndexSectors),
  (68, leBytes 4 (if layout.difatSectors = 0 then kCfbEndOfChain else layout.difatStart)),
  (72, leBytes 4 layout.difatSectors),
  (76, indexBytes (fun i => if i < layout.fatSectors then layout.fatStart + i else kCfbFreeSector) kHeaderDifatEntries)]

theorem headerBytes_eq (m : PackageModel) (layout : Layout) :
    headerBytes m layout = overwriteAll (List.replicate 512 0) (headerFields m layout) := by
  simp only [headerBytes, headerFields, overwriteAll, List.foldl_cons, List.foldl_nil]

theorem length_headerBytes (m : PackageModel) (layout : Layout) : (headerBytes m layout).length = 512 := by
  rw [headerBytes_eq, length_overwriteAll, List.length_replicate]

theorem headerFields_apart (m : PackageModel) (layout : Layout) :
    (headerFields m layout).Pairwise fun a b => a.1 + a.2.length ≤ b.1 := by
  have hearly : (slice m.source.bytes 8 16).length ≤ 16 := by
    rw [length_slice]
    exact Nat.min_le_left _ _
  have hlate : (slice m.source.bytes 52 4).length ≤ 4 := by
    rw [length_slice]
    exact Nat.min_le_left _ _
  have hmagic : kMagic.length = 8 := rfl
  simp only [headerFields, List.pairwise_cons, List.forall_mem_cons, List.not_mem_nil, false_imp_iff, implies_true,
    length_leBytes, hmagic, and_true, List.Pairwise.nil]
  omega

theorem headerFields_fit (m : PackageModel) (layout : Layout) :
    ∀ field ∈ headerFields m layout, field.1 + field.2.length ≤ 512 := by
  have hearly : (slice m.source.bytes 8 16).length ≤ 16 := by
    rw [length_slice]
    exact Nat.min_le_left _ _
  have hlate : (slice m.source.bytes 52 4).length ≤ 4 := by
    rw [length_slice]
    exact Nat.min_le_left _ _
  have hmagic : kMagic.length = 8 := rfl
  simp only [headerFields, List.forall_mem_cons, List.not_mem_nil, false_imp_iff, implies_true, length_leBytes, hmagic,
    length_indexBytes, kHeaderDifatEntries, and_true]
  omega

theorem slice_headerBytes {field : Nat × List UInt8} (h : field ∈ headerFields m layout) :
    slice (headerBytes m layout) field.1 field.2.length = field.2 := by
  rw [headerBytes_eq]
  refine slice_overwriteAll (headerFields_apart m layout) ?_ h
  rw [List.length_replicate]
  exact headerFields_fit m layout

theorem length_writeStreams (layout : Layout) (entries : List Entry) (out : List UInt8) :
    (writeStreams layout entries out).length = out.length := by
  rw [writeStreams]
  induction entries generalizing out with
  | nil => rfl
  | cons entry entries ih =>
      rw [List.foldl_cons, ih]
      split
      · rfl
      · split <;> exact length_overwrite _ _ _

theorem length_serialise (m : PackageModel) (entries : List Entry) (layout : Layout) :
    (serialise m entries layout).length = layout.headerSize + layout.totalSectors * layout.sectorSize := by
  simp only [serialise, length_overwrite, length_writeStreams, List.length_replicate]

theorem computeLayout_headerSize {header : CfbHeader} {laid : Layout × List Entry}
    (h : computeLayout header entries = .ok laid) : 512 ≤ laid.1.headerSize := by
  simp only [computeLayout, bind_eq_ok, pure_eq_ok, Except.ok.injEq] at h
  obtain ⟨-, -, rfl⟩ := h
  rw [layOut]
  simp only
  split <;> omega

/-- The output begins with the header. -/
theorem slice_serialise_header {offset length : Nat} (hfit : offset + length ≤ 512) (hlong : 512 ≤ layout.headerSize) :
    slice (serialise m entries layout) offset length = slice (headerBytes m layout) offset length := by
  have hlength := length_headerBytes m layout
  have hwhole : slice (serialise m entries layout) 0 512 = headerBytes m layout := by
    rw [serialise, ← hlength]
    apply slice_overwrite_self
    simp only [length_overwrite, length_writeStreams, List.length_replicate, hlength]
    omega
  rw [← hwhole, slice_slice hfit, Nat.zero_add]

/-- A field of the header as it stands in the output. -/
theorem slice_serialise_field {offset length : Nat} {data : List UInt8} (h : (offset, data) ∈ headerFields m layout)
    (hlength : data.length = length) (hlong : 512 ≤ layout.headerSize) :
    slice (serialise m entries layout) offset length = data := by
  subst hlength
  rw [slice_serialise_header (headerFields_fit m layout _ h) hlong]
  exact slice_headerBytes h

end TheSeed.CfbHeader
