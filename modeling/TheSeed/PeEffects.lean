import TheSeed.PeShape

namespace TheSeed.PeEffects

open Bytes Checked BoundedBytes PeSigner PeShape

/-- Below `limit` two files differ at most in the CheckSum field and the certificate entry. -/
def SameBelow (layout : PeLayout) (limit : Nat) (a b : List UInt8) : Prop :=
  ∀ i n, i + n ≤ limit → (i + n ≤ layout.checksumOffset ∨ layout.checksumOffset + 4 ≤ i) →
    (i + n ≤ layout.ddSecurityOffset ∨ layout.ddSecurityOffset + 8 ≤ i) → slice a i n = slice b i n

/-- A write into one of the two fields, or behind `limit`, keeps the relation. -/
theorem SameBelow.overwrite {layout : PeLayout} {limit offset : Nat} {a b data : List UInt8}
    (h : SameBelow layout limit a b)
    (hplace : limit ≤ offset ∨
      (layout.checksumOffset ≤ offset ∧ offset + data.length ≤ layout.checksumOffset + 4) ∨
      (layout.ddSecurityOffset ≤ offset ∧ offset + data.length ≤ layout.ddSecurityOffset + 8)) :
    SameBelow layout limit a (Bytes.overwrite b offset data) := by
  intro i n hl hc hd
  rw [slice_overwrite_of_disjoint (by omega)]
  exact h i n hl hc hd

/-- The header fields that locate everything lie outside the two fields that signing writes. -/
theorem headerShape_congr {layout : PeLayout} {limit : Nat} {a b : List UInt8}
    (h : HeaderShape a layout) (hab : SameBelow layout limit a b)
    (hlimit : layout.ddSecurityOffset + 8 ≤ limit) (hb : layout.ddSecurityOffset + 8 ≤ b.length) :
    HeaderShape b layout := by
  obtain ⟨hopt, hcs, hdd, hnum⟩ := h.offsets
  have hcases : (layout.isPe32Plus = true ∧ layout.ddSecurityOffset = layout.peHeaderOffset + 168 ∧
        numRvaOffset layout = layout.peHeaderOffset + 132) ∨
      (layout.isPe32Plus = false ∧ layout.ddSecurityOffset = layout.peHeaderOffset + 152 ∧
        numRvaOffset layout = layout.peHeaderOffset + 116) := by
    rw [hdd, hnum]
    cases layout.isPe32Plus <;> simp
  have same (i n : Nat) (hin : i + n ≤ layout.checksumOffset ∨
      (layout.checksumOffset + 4 ≤ i ∧ i + n ≤ layout.ddSecurityOffset)) :
      slice b i n = slice a i n :=
    (hab i n (by omega) (by omega) (by omega)).symm
  constructor
  · omega
  · rw [same 0 2 (by omega)]; exact h.mz
  · rw [same 60 4 (by omega)]; exact h.lfanew
  · exact h.nonneg
  · rw [same _ 4 (by omega)]; exact h.signature
  · rw [same _ 2 (by omega)]; exact h.magic
  · exact h.derived
  · rw [same _ 4 (by omega)]; exact h.numRva
  · exact hb

/-- What `recalcChecksum` stores. -/
def fileChecksum (bytes : List UInt8) (checksumOffset : Nat) : Nat :=
  checksumOf (overwrite bytes checksumOffset (leBytes 4 0)) checksumOffset

theorem recalcChecksum_eq_ok {bytes out : List UInt8} {checksumOffset : Nat} :
    recalcChecksum bytes checksumOffset = .ok out ↔ checksumOffset + 4 ≤ bytes.length ∧
      overwrite bytes checksumOffset (leBytes 4 (fileChecksum bytes checksumOffset)) = out := by
  simp only [recalcChecksum, bind_eq_ok, writeField_eq_ok, ByteOrder.bytes]
  constructor
  · rintro ⟨zeroed, ⟨hfit, rfl⟩, -, rfl⟩
    rw [overwrite_overwrite (by simp)]
    exact ⟨hfit, rfl⟩
  · rintro ⟨hfit, rfl⟩
    refine ⟨_, ⟨hfit, rfl⟩, ?_, ?_⟩
    · rw [length_overwrite]
      exact hfit
    · rw [overwrite_overwrite (by simp)]
      rfl

theorem padTo8_lt (n : Nat) : padTo8 n < 8 := by
  unfold padTo8
  omega

theorem add_padTo8_mod (n : Nat) : (n + padTo8 n) % 8 = 0 := by
  unfold padTo8
  omega

theorem padTo8_of_mod_eq_zero {n : Nat} (h : n % 8 = 0) : padTo8 n = 0 := by
  unfold padTo8
  omega

theorem resize_of_le {bytes : List UInt8} {size : Nat} (h : size ≤ bytes.length) :
    resize bytes size = bytes.take size := by
  simp [resize, Nat.sub_eq_zero_of_le h]

theorem resize_resize {bytes : List UInt8} {kept size : Nat} (hk : kept ≤ bytes.length)
    (hs : kept ≤ size) :
    resize (resize bytes kept) size = bytes.take kept ++ List.replicate (size - kept) 0 := by
  rw [resize_of_le hk, resize, List.length_take_of_le hk,
    List.take_of_length_le (by rw [List.length_take_of_le hk]; exact hs)]

/-- Where the bytes end that embedding keeps: at the old certificate table or at the end of the file. -/
def keptSize (bytes : List UInt8) (table : CertificateTable) : Nat :=
  if table.present then table.address else bytes.length

/-- The certificate table that embedding writes behind `kept` bytes. -/
def newTable (kept blobSize : Nat) : CertificateTable :=
  { present := true
    address := kept + padTo8 kept
    size := 8 + blobSize + padTo8 (8 + blobSize)
    length := 8 + blobSize }

/-- What a successful `embedSignature` has written. -/
structure Embedded (bytes blob : List UInt8) (layout : PeLayout) (kept : Nat) (out : List UInt8) :
    Prop where
  keptFits : kept ≤ bytes.length
  headers : layout.ddSecurityOffset + 8 ≤ kept
  shape : HeaderShape out layout
  same : SameBelow layout kept bytes out
  padding : slice out kept (padTo8 kept) = List.replicate (padTo8 kept) 0
  table : TableShape out layout (newTable kept blob.length)
  data : slice out (kept + padTo8 kept + 8) blob.length = blob
  ends : out.length = (newTable kept blob.length).address + (newTable kept blob.length).size

theorem keptSize_bounds {bytes : List UInt8} {layout : PeLayout} {table : CertificateTable}
    (hs : HeaderShape bytes layout) (ht : TableShape bytes layout table) :
    layout.ddSecurityOffset + 8 ≤ keptSize bytes table ∧ keptSize bytes table ≤ bytes.length := by
  unfold keptSize
  cases hp : table.present with
  | false => exact ⟨hs.fits, le_rfl⟩
  | true =>
      have hfit := ht.fits hp
      have hbehind := ht.behind hp
      simp only [if_true]
      omega

/-- The certificate written into the zeros behind the kept bytes. -/
def withCertificate (zeros blob : List UInt8) (certOffset : Nat) : List UInt8 :=
  overwrite (overwrite (overwrite (overwrite zeros certOffset (leBytes 4 (8 + blob.length)))
    (certOffset + 4) (leBytes 2 0x0200)) (certOffset + 6) (leBytes 2 0x0002)) (certOffset + 8) blob

/-- The certificate directory entry set to an address and a size. -/
def withEntry (bytes : List UInt8) (layout : PeLayout) (address size : Nat) : List UInt8 :=
  overwrite (overwrite bytes layout.ddSecurityOffset (leBytes 4 address))
    (layout.ddSecurityOffset + 4) (leBytes 4 size)

def withChecksum (bytes : List UInt8) (layout : PeLayout) : List UInt8 :=
  overwrite bytes layout.checksumOffset (leBytes 4 (fileChecksum bytes layout.checksumOffset))

/-- The kept bytes followed by zeros for the padding and the new certificate table. -/
def keptAndZeros (bytes blob : List UInt8) (kept : Nat) : List UInt8 :=
  bytes.take kept ++ List.replicate (padTo8 kept + (newTable kept blob.length).size) 0

def embedImage (bytes blob : List UInt8) (layout : PeLayout) (kept : Nat) : List UInt8 :=
  withChecksum (withEntry (withCertificate (keptAndZeros bytes blob kept) blob (kept + padTo8 kept))
    layout (kept + padTo8 kept) (newTable kept blob.length).size) layout

theorem length_keptAndZeros {bytes : List UInt8} {kept : Nat} (blob : List UInt8)
    (hk : kept ≤ bytes.length) : (keptAndZeros bytes blob kept).length =
      (newTable kept blob.length).address + (newTable kept blob.length).size := by
  simp only [keptAndZeros, List.length_append, List.length_take_of_le hk, List.length_replicate,
    newTable]
  omega

@[simp] theorem length_withCertificate (zeros blob : List UInt8) (certOffset : Nat) :
    (withCertificate zeros blob certOffset).length = zeros.length := by
  simp [withCertificate]

@[simp] theorem length_withEntry (bytes : List UInt8) (layout : PeLayout) (address size : Nat) :
    (withEntry bytes layout address size).length = bytes.length := by
  simp [withEntry]

@[simp] theorem length_withChecksum (bytes : List UInt8) (layout : PeLayout) :
    (withChecksum bytes layout).length = bytes.length := by
  simp [withChecksum]

theorem embedSignature_eq_ok {bytes blob out : List UInt8} :
    embedSignature bytes blob = .ok out ↔ ∃ layout table, HeaderShape bytes layout ∧
      TableShape bytes layout table ∧ blob.length ≤ kPeMaxSignatureSize ∧
      (newTable (keptSize bytes table) blob.length).address ≤ kUint32Max ∧
      (newTable (keptSize bytes table) blob.length).size ≤ kUint32Max ∧
      embedImage bytes blob layout (keptSize bytes table) = out := by
  have zeros (table : CertificateTable) (hk : keptSize bytes table ≤ bytes.length) :
      resize (resize bytes (keptSize bytes table)) (keptSize bytes table +
        padTo8 (keptSize bytes table) + (8 + blob.length + padTo8 (8 + blob.length))) =
      keptAndZeros bytes blob (keptSize bytes table) := by
    rw [resize_resize hk (by omega)]
    simp only [keptAndZeros, newTable]
    congr 2
    omega
  have hkept (table : CertificateTable) :
      (if table.present then table.address else bytes.length) = keptSize bytes table := rfl
  simp only [embedSignature, bind_eq_ok, parsePeLayout_eq_ok]
  constructor
  · rintro ⟨layout, hshape, table, htable, _, hsize, _, haddress, _, htsize, w1, hw1, w2, hw2, w3, hw3,
      w4, hw4, w5, hw5, w6, hw6, h⟩
    rw [validateCertificateTable_eq_ok hshape.fits] at htable
    have hk := keptSize_bounds hshape htable
    simp only [hkept, zeros table hk.2] at haddress hw1 hw2 hw3 hw4 hw5
    obtain ⟨-, rfl⟩ := writeField_eq_ok.mp hw1
    obtain ⟨-, rfl⟩ := writeField_eq_ok.mp hw2
    obtain ⟨-, rfl⟩ := writeField_eq_ok.mp hw3
    obtain ⟨-, rfl⟩ := copyInto_eq_ok.mp hw4
    obtain ⟨-, rfl⟩ := writeField_eq_ok.mp hw5
    obtain ⟨-, rfl⟩ := writeField_eq_ok.mp hw6
    obtain ⟨-, rfl⟩ := recalcChecksum_eq_ok.mp h
    exact ⟨layout, table, hshape, htable, Nat.le_of_not_lt (rejectIf_eq_ok.mp hsize),
      Nat.le_of_not_lt (rejectIf_eq_ok.mp haddress), Nat.le_of_not_lt (rejectIf_eq_ok.mp htsize), rfl⟩
  · rintro ⟨layout, table, hshape, htable, hsize, haddress, htsize, rfl⟩
    have hk := keptSize_bounds hshape htable
    have hcs := hshape.checksum_fits
    have hlen := length_keptAndZeros blob hk.2
    simp only [newTable] at hlen haddress htsize
    refine ⟨layout, hshape, table, (validateCertificateTable_eq_ok hshape.fits).mpr htable,
      (), rejectIf_of_not (Nat.not_lt.mpr hsize) _ _, (), rejectIf_of_not (Nat.not_lt.mpr haddress) _ _,
      (), rejectIf_of_not (Nat.not_lt.mpr htsize) _ _, ?_⟩
    simp only [hkept, zeros table hk.2]
    refine ⟨_, writeField_eq_ok.mpr ⟨by omega, rfl⟩, _, writeField_eq_ok.mpr ⟨?_, rfl⟩,
      _, writeField_eq_ok.mpr ⟨?_, rfl⟩, _, copyInto_eq_ok.mpr ⟨?_, rfl⟩,
      _, writeField_eq_ok.mpr ⟨?_, rfl⟩, _, writeField_eq_ok.mpr ⟨?_, rfl⟩,
      recalcChecksum_eq_ok.mpr ⟨?_, rfl⟩⟩
    all_goals
      simp only [length_overwrite]
      omega

theorem slice_withEntry_address {bytes : List UInt8} {layout : PeLayout} (address size : Nat)
    (h : layout.ddSecurityOffset + 8 ≤ bytes.length) :
    slice (withEntry bytes layout address size) layout.ddSecurityOffset 4 = leBytes 4 address := by
  rw [withEntry, slice_overwrite_of_disjoint (by omega), slice_overwrite_leBytes (by omega)]

theorem slice_withEntry_size {bytes : List UInt8} {layout : PeLayout} (address size : Nat)
    (h : layout.ddSecurityOffset + 8 ≤ bytes.length) :
    slice (withEntry bytes layout address size) (layout.ddSecurityOffset + 4) 4 = leBytes 4 size :=
  slice_overwrite_leBytes (by simp only [length_overwrite]; omega)

theorem slice_withEntry_of_disjoint {bytes : List UInt8} {layout : PeLayout} {address size i n : Nat}
    (h : i + n ≤ layout.ddSecurityOffset ∨ layout.ddSecurityOffset + 8 ≤ i) :
    slice (withEntry bytes layout address size) i n = slice bytes i n := by
  rw [withEntry, slice_overwrite_of_disjoint (by rw [length_leBytes]; omega),
    slice_overwrite_of_disjoint (by rw [length_leBytes]; omega)]

theorem slice_withChecksum_of_disjoint {bytes : List UInt8} {layout : PeLayout} {i n : Nat}
    (h : i + n ≤ layout.checksumOffset ∨ layout.checksumOffset + 4 ≤ i) :
    slice (withChecksum bytes layout) i n = slice bytes i n := by
  rw [withChecksum, slice_overwrite_of_disjoint (by rw [length_leBytes]; omega)]

theorem sameBelow_withEntry {layout : PeLayout} {limit address size : Nat} {a b : List UInt8}
    (h : SameBelow layout limit a b) : SameBelow layout limit a (withEntry b layout address size) := by
  refine (h.overwrite ?_).overwrite ?_ <;> rw [length_leBytes] <;> omega

theorem sameBelow_withChecksum {layout : PeLayout} {limit : Nat} {a b : List UInt8}
    (h : SameBelow layout limit a b) : SameBelow layout limit a (withChecksum b layout) :=
  h.overwrite (by rw [length_leBytes]; omega)

theorem sameBelow_take {layout : PeLayout} {bytes rest : List UInt8} {kept : Nat}
    (hk : kept ≤ bytes.length) : SameBelow layout kept bytes (bytes.take kept ++ rest) := by
  intro i n hl _ _
  rw [slice_append_left (by rw [List.length_take_of_le hk]; exact hl), slice_take hl]

/-- Embedding keeps everything below the old end, pads with zeros, and writes a table that the
validator accepts and that ends the file. -/
theorem embedImage_embedded {bytes blob : List UInt8} {layout : PeLayout} {kept : Nat}
    (hshape : HeaderShape bytes layout) (hk : kept ≤ bytes.length)
    (hheaders : layout.ddSecurityOffset + 8 ≤ kept)
    (haddress : (newTable kept blob.length).address ≤ kUint32Max)
    (hsize : (newTable kept blob.length).size ≤ kUint32Max) :
    Embedded bytes blob layout kept (embedImage bytes blob layout kept) := by
  have hcs := hshape.checksum_fits
  have hzeros := length_keptAndZeros blob hk
  simp only [newTable, kUint32Max] at haddress hsize hzeros
  have hlen : (embedImage bytes blob layout kept).length = kept + padTo8 kept + (8 + blob.length +
      padTo8 (8 + blob.length)) := by
    simp only [embedImage, length_withChecksum, length_withEntry, length_withCertificate]
    exact hzeros
  have behind {i n : Nat} (hi : layout.ddSecurityOffset + 8 ≤ i) :
      slice (embedImage bytes blob layout kept) i n =
        slice (withCertificate (keptAndZeros bytes blob kept) blob (kept + padTo8 kept)) i n := by
    rw [embedImage, slice_withChecksum_of_disjoint (by omega), slice_withEntry_of_disjoint (by omega)]
  have hsame : SameBelow layout kept bytes (embedImage bytes blob layout kept) := by
    refine sameBelow_withChecksum (sameBelow_withEntry ?_)
    refine SameBelow.overwrite (SameBelow.overwrite (SameBelow.overwrite (SameBelow.overwrite
      (sameBelow_take hk) ?_) ?_) ?_) ?_ <;> omega
  refine ⟨hk, hheaders, headerShape_congr hshape hsame hheaders (by omega), hsame, ?_, ?_, ?_, hlen⟩
  · rw [behind (by omega), withCertificate]
    iterate 4 rw [slice_overwrite_of_disjoint (by omega)]
    rw [keptAndZeros, slice_append_right (by rw [List.length_take_of_le hk]),
      List.length_take_of_le hk, Nat.sub_self, slice_replicate (by omega)]
  · constructor
    · simp only [newTable]
      rw [embedImage, slice_withChecksum_of_disjoint (by omega),
        slice_withEntry_address _ _ (by rw [length_withCertificate]; omega), leValue_leBytes_of_lt (by omega)]
    · rw [embedImage, slice_withChecksum_of_disjoint (by omega),
        slice_withEntry_size _ _ (by rw [length_withCertificate]; omega)]
      exact leValue_leBytes_of_lt (by simp only [newTable]; omega)
    · have ha : (newTable kept blob.length).address ≠ 0 := by simp only [newTable]; omega
      have hs : (newTable kept blob.length).size ≠ 0 := by simp only [newTable]; omega
      exact (decide_eq_true ⟨ha, hs⟩).symm
    · exact nofun
    · intro _
      rw [hlen]
      exact le_rfl
    · intro _
      simp only [newTable]
      omega
    · intro _
      simp only [newTable]
      rw [behind (by omega), withCertificate]
      iterate 3 rw [slice_overwrite_of_disjoint (by omega)]
      rw [slice_overwrite_leBytes (by omega), leValue_leBytes_of_lt (by omega)]
    · intro _
      simp only [newTable]
      omega
    · intro _
      simp only [newTable]
      rw [behind (by omega), withCertificate]
      iterate 2 rw [slice_overwrite_of_disjoint (by omega)]
      rw [slice_overwrite_leBytes (by simp only [length_overwrite]; omega)]
      rfl
    · intro _
      simp only [newTable]
      rw [behind (by omega), withCertificate, slice_overwrite_of_disjoint (by omega)]
      rw [slice_overwrite_leBytes (by simp only [length_overwrite]; omega)]
      rfl
  · rw [behind (by omega), withCertificate]
    exact slice_overwrite_self (by simp only [length_overwrite]; omega)

/-- A successful embedding has written a well-formed signed file. -/
theorem embedSignature_embedded {bytes blob out : List UInt8} (h : embedSignature bytes blob = .ok out) :
    ∃ layout table, HeaderShape bytes layout ∧ TableShape bytes layout table ∧
      Embedded bytes blob layout (keptSize bytes table) out := by
  obtain ⟨layout, table, hshape, htable, -, haddress, hsize, rfl⟩ := embedSignature_eq_ok.mp h
  have hk := keptSize_bounds hshape htable
  exact ⟨layout, table, hshape, htable, embedImage_embedded hshape hk.2 hk.1 haddress hsize⟩

/-! Stripping -/

theorem trimPadding_le (bytes : List UInt8) (floor removable newSize : Nat) :
    trimPadding bytes floor removable newSize ≤ newSize := by
  induction removable generalizing newSize with
  | zero => exact le_rfl
  | succ k ih =>
      rw [trimPadding]
      split
      · exact (ih _).trans (Nat.sub_le _ _)
      · exact le_rfl

theorem le_trimPadding (bytes : List UInt8) (floor removable newSize : Nat) :
    newSize ≤ trimPadding bytes floor removable newSize + removable := by
  induction removable generalizing newSize with
  | zero => exact le_rfl
  | succ k ih =>
      rw [trimPadding]
      split
      · have h := ih (newSize - 1)
        omega
      · omega

theorem slice_trimPadding (bytes : List UInt8) (floor removable newSize : Nat) :
    slice bytes (trimPadding bytes floor removable newSize)
        (newSize - trimPadding bytes floor removable newSize) =
      List.replicate (newSize - trimPadding bytes floor removable newSize) 0 := by
  induction removable generalizing newSize with
  | zero => simp [trimPadding, slice_zero_length]
  | succ k ih =>
      rw [trimPadding]
      split
      · rename_i hz
        have hle := trimPadding_le bytes floor k (newSize - 1)
        have hsplit : newSize - trimPadding bytes floor k (newSize - 1) =
            (newSize - 1 - trimPadding bytes floor k (newSize - 1)) + 1 := by omega
        rw [hsplit, ← slice_append_slice, ih, List.replicate_succ', Nat.add_sub_cancel' hle]
        congr 1
        apply List.ext_getElem?
        intro i
        rw [getElem?_slice]
        cases i with
        | zero => simpa using hz.2
        | succ i => simp
      · simp [slice_zero_length]

theorem sectionsFloor_ok (file : ByteSpan) (tableStart count i floor : Nat) :
    ∃ n, sectionsFloor file tableStart count i floor = .ok n := by
  induction count generalizing i floor with
  | zero => exact ⟨floor, rfl⟩
  | succ count ih =>
      rw [sectionsFloor]
      split
      · exact ⟨floor, rfl⟩
      · rename_i hfit
        rw [ByteSpan.size, Nat.not_lt] at hfit
        rw [ByteSpan.read_eq_ok.mpr ⟨by omega, rfl⟩, ok_bind, ByteSpan.read_eq_ok.mpr ⟨by omega, rfl⟩,
          ok_bind]
        exact ih _ _

theorem stripFloor_ok (file : ByteSpan) (layout : PeLayout) : ∃ n, stripFloor file layout = .ok n := by
  rw [stripFloor]
  split
  · exact ⟨0, rfl⟩
  · rename_i hfit
    simp only [ByteSpan.size, not_or, Nat.not_lt] at hfit
    rw [ByteSpan.read_eq_ok.mpr ⟨by omega, rfl⟩, ok_bind, ByteSpan.read_eq_ok.mpr ⟨by omega, rfl⟩,
      ok_bind, ByteSpan.read_eq_ok.mpr ⟨by omega, rfl⟩, ok_bind]
    exact sectionsFloor_ok _ _ _ _ _

def stripImage (bytes : List UInt8) (layout : PeLayout) (cut : Nat) : List UInt8 :=
  withChecksum (withEntry (bytes.take cut) layout 0 0) layout

/-- A signed file is cut, its entry cleared and its checksum recalculated; the call fails when the
cut runs into the certificate entry. -/
theorem stripSignature_eq_ok {bytes out : List UInt8} :
    stripSignature bytes = .ok out ↔ ∃ layout table floor, HeaderShape bytes layout ∧
      TableShape bytes layout table ∧ stripFloor { bytes, format := kFormat } layout = .ok floor ∧
      ((table.present = false ∧ bytes = out) ∨
        (table.present = true ∧ layout.ddSecurityOffset + 8 ≤ trimPadding bytes floor 7 table.address ∧
          stripImage bytes layout (trimPadding bytes floor 7 table.address) = out)) := by
  simp only [stripSignature, bind_eq_ok, parsePeLayout_eq_ok]
  have cut {table : CertificateTable} (floor : Nat)
      (hfit : table.address + table.size ≤ bytes.length) :
      resize bytes (trimPadding bytes floor 7 table.address) =
        bytes.take (trimPadding bytes floor 7 table.address) ∧
      (bytes.take (trimPadding bytes floor 7 table.address)).length =
        trimPadding bytes floor 7 table.address := by
    have hle := trimPadding_le bytes floor 7 table.address
    exact ⟨resize_of_le (by omega), List.length_take_of_le (by omega)⟩
  constructor
  · rintro ⟨layout, hshape, table, htable, floor, hfloor, h⟩
    rw [validateCertificateTable_eq_ok hshape.fits] at htable
    refine ⟨layout, table, floor, hshape, htable, hfloor, ?_⟩
    cases hp : table.present with
    | false =>
        rw [hp] at h
        simp only [Bool.false_eq_true, if_false, pure_eq_ok, Except.ok.injEq] at h
        exact .inl ⟨rfl, h⟩
    | true =>
        obtain ⟨hresize, hlen⟩ := cut floor (htable.fits hp)
        rw [hp, if_pos rfl] at h
        simp only [bind_eq_ok, hresize, writeField_eq_ok] at h
        obtain ⟨w1, ⟨-, rfl⟩, w2, ⟨hfit, rfl⟩, h⟩ := h
        obtain ⟨-, rfl⟩ := recalcChecksum_eq_ok.mp h
        simp only [length_overwrite, hlen] at hfit
        exact .inr ⟨rfl, by omega, rfl⟩
  · rintro ⟨layout, table, floor, hshape, htable, hfloor, h⟩
    refine ⟨layout, hshape, table, (validateCertificateTable_eq_ok hshape.fits).mpr htable, floor,
      hfloor, ?_⟩
    have hcs := hshape.checksum_fits
    rcases h with ⟨hp, rfl⟩ | ⟨hp, hfit, rfl⟩
    · rw [hp]
      rfl
    · obtain ⟨hresize, hlen⟩ := cut floor (htable.fits hp)
      rw [hp, if_pos rfl]
      simp only [bind_eq_ok, hresize]
      refine ⟨_, writeField_eq_ok.mpr ⟨by omega, rfl⟩, _, writeField_eq_ok.mpr ⟨?_, rfl⟩,
        recalcChecksum_eq_ok.mpr ⟨?_, rfl⟩⟩ <;> simp only [length_overwrite, hlen] <;> omega

/-- What a successful `stripSignature` has made of a signed file: at most seven zeros before the
table are gone with it, the entry is clear, the rest is as it was. -/
structure Stripped (bytes : List UInt8) (layout : PeLayout) (address : Nat) (out : List UInt8) : Prop where
  short : out.length ≤ address
  few : address ≤ out.length + 7
  headers : layout.ddSecurityOffset + 8 ≤ out.length
  zeros : slice bytes out.length (address - out.length) = List.replicate (address - out.length) 0
  shape : HeaderShape out layout
  same : SameBelow layout out.length bytes out
  table : TableShape out layout { present := false }

theorem stripImage_stripped {bytes : List UInt8} {layout : PeLayout} {table : CertificateTable} (floor : Nat)
    (hshape : HeaderShape bytes layout) (htable : TableShape bytes layout table)
    (hp : table.present = true)
    (hcut : layout.ddSecurityOffset + 8 ≤ trimPadding bytes floor 7 table.address) :
    Stripped bytes layout table.address
      (stripImage bytes layout (trimPadding bytes floor 7 table.address)) := by
  have hfit := htable.fits hp
  have hle := trimPadding_le bytes floor 7 table.address
  have hge := le_trimPadding bytes floor 7 table.address
  have hzeros := slice_trimPadding bytes floor 7 table.address
  have hcs := hshape.checksum_fits
  generalize trimPadding bytes floor 7 table.address = cut at *
  have hlen : (stripImage bytes layout cut).length = cut := by
    simp only [stripImage, length_withChecksum, length_withEntry, List.length_take]
    omega
  have hsame : SameBelow layout cut bytes (stripImage bytes layout cut) := by
    refine sameBelow_withChecksum (sameBelow_withEntry ?_)
    have h : SameBelow layout cut bytes (bytes.take cut ++ []) := sameBelow_take (by omega)
    rwa [List.append_nil] at h
  constructor
  · omega
  · omega
  · omega
  · rw [hlen]; exact hzeros
  · exact headerShape_congr hshape hsame hcut (by omega)
  · rw [hlen]; exact hsame
  · have hentry : layout.ddSecurityOffset + 8 ≤ (bytes.take cut).length := by
      rw [List.length_take]
      omega
    refine ⟨?_, ?_, rfl, fun _ => rfl, nofun, nofun, nofun, nofun, nofun, nofun⟩
    · rw [stripImage, slice_withChecksum_of_disjoint (by omega), slice_withEntry_address _ _ hentry]
      rfl
    · rw [stripImage, slice_withChecksum_of_disjoint (by omega), slice_withEntry_size _ _ hentry]
      rfl

theorem stripSignature_stripped {bytes out : List UInt8} (h : stripSignature bytes = .ok out) :
    ∃ layout table, HeaderShape bytes layout ∧ TableShape bytes layout table ∧
      ((table.present = false ∧ bytes = out) ∨
        (table.present = true ∧ Stripped bytes layout table.address out)) := by
  obtain ⟨layout, table, floor, hshape, htable, -, hout⟩ := stripSignature_eq_ok.mp h
  refine ⟨layout, table, hshape, htable, ?_⟩
  rcases hout with hout | ⟨hp, hcut, rfl⟩
  · exact .inl hout
  · exact .inr ⟨hp, stripImage_stripped floor hshape htable hp hcut⟩

end TheSeed.PeEffects
