import TheSeed.PeHistory

namespace TheSeed.PeRoundTrip

open Bytes Checked BoundedBytes PeSigner PeShape PeEffects PeFingerprint PeHistory

/-! One embedding: where it puts the signature, what it leaves alone, and what stripping it gives back. -/

variable {layout : PeLayout} {table : CertificateTable} {bytes blob out signed : List UInt8} {kept floor : Nat}

/-! Embedding -/

/-- The file after embedding, with `n` the end of what was kept. -/
structure WellPlaced (bytes blob : List UInt8) (layout : PeLayout) (n : Nat) (out : List UInt8)
    (table : CertificateTable) : Prop where
  parsed : parsePeLayout { bytes := out, format := kFormat } = .ok layout
  accepted : validateCertificateTable { bytes := out, format := kFormat } layout = .ok table
  present : table.present = true
  aligned : IsLeast {address | n ≤ address ∧ address % 8 = 0} table.address
  ends : table.address + table.size = out.length
  extracted : extractSignature out = .ok (some blob)
  unchanged : ∀ i < n, ¬InFields layout i → out[i]? = bytes[i]?
  zeros : ∀ i, n ≤ i → i < table.address → out[i]? = some 0

theorem padTo8_least (n : Nat) : IsLeast {address | n ≤ address ∧ address % 8 = 0} (n + padTo8 n) := by
  refine ⟨⟨Nat.le_add_right _ _, add_padTo8_mod n⟩, fun address haddress => ?_⟩
  have hn := haddress.1
  have hmod := haddress.2
  unfold padTo8
  omega

theorem extractSignature_embedded (he : Embedded bytes blob layout kept out) : extractSignature out = .ok (some blob) := by
  have hends := he.ends
  have hlayout : parsePeLayout { bytes := out, format := kFormat } = .ok layout := parsePeLayout_of_shape he.shape
  have htable : validateCertificateTable { bytes := out, format := kFormat } layout = .ok (newTable kept blob.length) :=
    (validateCertificateTable_eq_ok he.shape.fits).mpr he.table
  have hdata := he.data
  simp only [newTable] at hends htable
  rw [extractSignature]
  simp only [hlayout, htable, ok_bind, if_true]
  rw [ByteSpan.sub_eq_ok.mpr ⟨?_, rfl⟩, ok_bind, ByteSpan.sub_eq_ok.mpr ⟨?_, rfl⟩, ok_bind]
  · simp only [Nat.add_sub_cancel_left, pure_eq_ok, Except.ok.injEq, Option.some.injEq]
    rw [slice_slice (by omega)]
    exact hdata
  · simp only
    rw [length_slice_of_le (by omega)]
    omega
  · simp only
    omega

/-- For every file with a layout and a table, or no table, that the signer accepts. -/
theorem embedding_well_placed (hlayout : parsePeLayout { bytes, format := kFormat } = .ok layout)
    (htable : validateCertificateTable { bytes, format := kFormat } layout = .ok table)
    (h : embedSignature bytes blob = .ok out) : ∃ newTable : CertificateTable,
      WellPlaced bytes blob layout (if table.present then table.address else bytes.length) out newTable := by
  obtain ⟨l, t, hl, ht, he⟩ := embedSignature_embedded h
  have hshape := parsePeLayout_eq_ok.mp hlayout
  obtain rfl := headerShape_unique hl hshape
  obtain rfl := tableShape_unique ht ((validateCertificateTable_eq_ok hshape.fits).mp htable)
  refine ⟨_, parsePeLayout_of_shape he.shape, (validateCertificateTable_eq_ok he.shape.fits).mpr he.table, rfl,
    padTo8_least _, he.ends.symm, extractSignature_embedded he, fun i hi hf => ?_, fun i hlow hhigh => ?_⟩
  · exact (SameBelow.getElem? he.same hi hf).symm
  · exact getElem?_of_zeros he.padding hlow hhigh

theorem smallProgram_well_placed : ∃ out newTable, embedSignature (smallProgram 0 0 [1]) [1, 2, 3] = .ok out ∧
    WellPlaced (smallProgram 0 0 [1]) [1, 2, 3] (layoutAt 2 false) 163 out newTable := by
  have hlayout : parsePeLayout { bytes := smallProgram 0 0 [1], format := kFormat } = .ok (layoutAt 2 false) := by
    decide +kernel
  have htable : validateCertificateTable { bytes := smallProgram 0 0 [1], format := kFormat } (layoutAt 2 false) =
      .ok {} := by decide +kernel
  have he : (embedSignature (smallProgram 0 0 [1]) [1, 2, 3]).isOk = true := by decide +kernel
  obtain ⟨out, hout⟩ := exists_of_isOk he
  obtain ⟨newTable, hwell⟩ := embedding_well_placed hlayout htable hout
  exact ⟨out, newTable, hout, hwell⟩

/-! Embedding, then stripping -/

/-- The program as it was, with the checksum that is calculated from it. -/
structure Restored (bytes : List UInt8) (layout : PeLayout) (out : List UInt8) : Prop where
  length : out.length = bytes.length
  content : ∀ i, ¬(layout.checksumOffset ≤ i ∧ i < layout.checksumOffset + 4) → out[i]? = bytes[i]?
  checksum : leValue (slice out layout.checksumOffset 4) =
    checksumOf (overwrite out layout.checksumOffset (leBytes 4 0)) layout.checksumOffset

/-- The entry of an unsigned file that says nothing at all. -/
def EntryClear (bytes : List UInt8) (layout : PeLayout) : Prop :=
  slice bytes layout.ddSecurityOffset 8 = List.replicate 8 0

theorem restored_withChecksum (hfits : layout.checksumOffset + 4 ≤ bytes.length) :
    Restored bytes layout (withChecksum bytes layout) := by
  have hsame : AgreeOutside (fun i => layout.checksumOffset ≤ i ∧ i < layout.checksumOffset + 4)
      (withChecksum bytes layout) bytes := by
    refine ⟨length_withChecksum bytes layout, fun i hi => ?_⟩
    rw [withChecksum, getElem?_overwrite, length_leBytes, if_neg (by omega)]
  have hsum : fileChecksum (withChecksum bytes layout) layout.checksumOffset =
      fileChecksum bytes layout.checksumOffset := by
    rw [fileChecksum, fileChecksum, withChecksum, overwrite_overwrite (by simp)]
  have hlt : fileChecksum bytes layout.checksumOffset < 256 ^ 4 := by
    rw [fileChecksum, checksumOf]
    exact Nat.mod_lt _ (by decide)
  refine ⟨hsame.1, hsame.2, ?_⟩
  rw [withChecksum, slice_overwrite_leBytes hfits, leValue_leBytes_of_lt hlt]
  exact hsum.symm

/-- What is before the padding ends in a byte that embedding leaves alone, when the entry is clear. -/
theorem last_kept (he : Embedded bytes blob layout bytes.length signed) (hclear : EntryClear bytes layout)
    (hlast : bytes[bytes.length - 1]? ≠ some 0) :
    layout.ddSecurityOffset + 8 < bytes.length ∧ signed[bytes.length - 1]? ≠ some 0 := by
  have hheaders := he.headers
  have hbehind : layout.ddSecurityOffset + 8 < bytes.length := by
    by_contra hend
    have hzero := getElem?_of_zeros hclear (by omega : layout.ddSecurityOffset ≤ bytes.length - 1) (by omega)
    exact hlast hzero
  have hcs := he.shape.checksum_fits
  refine ⟨hbehind, ?_⟩
  rw [← SameBelow.getElem? he.same (by omega) (by rw [InFields]; omega)]
  exact hlast

/-- The cut comes down to the old end exactly when no padding was added or the floor lets it. -/
theorem trimPadding_eq_iff (he : Embedded bytes blob layout bytes.length signed)
    (hlast : signed[bytes.length - 1]? ≠ some 0) :
    trimPadding signed floor 7 (bytes.length + padTo8 bytes.length) = bytes.length ↔
      bytes.length % 8 = 0 ∨ floor ≤ bytes.length := by
  have hheaders := he.headers
  have hpad := padTo8_lt bytes.length
  have hge : ¬trimPadding signed floor 7 (bytes.length + padTo8 bytes.length) < bytes.length := by
    rw [trimPadding_lt_iff signed floor 7 (Nat.le_add_right _ _)]
    rintro ⟨-, -, hall⟩
    exact hlast (hall _ (by omega) (by omega))
  have hle := trimPadding_le signed floor 7 (bytes.length + padTo8 bytes.length)
  by_cases haligned : bytes.length % 8 = 0
  · rw [padTo8_of_mod_eq_zero haligned] at hge hle ⊢
    exact ⟨fun _ => .inl haligned, fun _ => le_antisymm hle (not_lt.mp hge)⟩
  · have hsome : 0 < padTo8 bytes.length := by
      unfold padTo8
      omega
    have hcut := trimPadding_lt_iff signed floor 7
      (by omega : bytes.length + 1 ≤ bytes.length + padTo8 bytes.length)
    constructor
    · intro heq
      have hfloor := (hcut.mp (by omega)).1
      exact .inr (by omega)
    · rintro (hmod | hfloor)
      · exact absurd hmod haligned
      · have hlt := hcut.mpr ⟨by omega, by omega, fun i hlow hhigh =>
          getElem?_of_zeros he.padding (by omega) (by omega)⟩
        omega

theorem withEntry_of_clear (hclear : EntryClear bytes layout) (hfits : layout.ddSecurityOffset + 8 ≤ bytes.length) :
    withEntry bytes layout 0 0 = bytes := by
  have hfirst : slice bytes layout.ddSecurityOffset 4 = leBytes 4 0 := by
    rw [← Nat.add_zero layout.ddSecurityOffset, ← slice_slice (by omega : 0 + 4 ≤ 8), hclear]
    rfl
  have hsecond : slice bytes (layout.ddSecurityOffset + 4) 4 = leBytes 4 0 := by
    rw [← slice_slice (by omega : 4 + 4 ≤ 8), hclear]
    rfl
  have hkeep : overwrite bytes layout.ddSecurityOffset (leBytes 4 0) = bytes := by
    rw [← hfirst]
    exact overwrite_slice (by omega)
  rw [withEntry, hkeep, ← hsecond]
  exact overwrite_slice (by omega)

/-- A strip that cuts back to the old end gives the program back. -/
theorem stripImage_eq (he : Embedded bytes blob layout bytes.length signed) (hclear : EntryClear bytes layout)
    (hfits : layout.ddSecurityOffset + 8 ≤ bytes.length) :
    stripImage signed layout bytes.length = withChecksum bytes layout := by
  have hlong := he.ends
  simp only [newTable] at hlong
  have hagree : AgreeOutside (InFields layout) (signed.take bytes.length) bytes := by
    refine ⟨List.length_take_of_le (by omega), fun i hi => ?_⟩
    rw [List.getElem?_take]
    split
    · rename_i hlt
      exact (SameBelow.getElem? he.same hlt hi).symm
    · rename_i hge
      exact (List.getElem?_eq_none (not_lt.mp hge)).symm
  rw [stripImage]
  refine withChecksum_congr ?_
  have hentry : AgreeOutside _ (withEntry (signed.take bytes.length) layout 0 0) (withEntry bytes layout 0 0) :=
    withEntry_agree hagree
  rwa [withEntry_of_clear hclear hfits] at hentry

/-- Stripping clears the whole entry. -/
theorem entryClear_of_restored {cut : Nat} (hcut : layout.ddSecurityOffset + 8 ≤ cut) (hlong : cut ≤ signed.length)
    (hshape : HeaderShape signed layout) (hr : Restored bytes layout (stripImage signed layout cut)) :
    EntryClear bytes layout := by
  have hcs := hshape.checksum_fits
  have hlength : layout.ddSecurityOffset + 8 ≤ (signed.take cut).length := by
    rw [List.length_take]
    omega
  have hcleared : slice (stripImage signed layout cut) layout.ddSecurityOffset 8 = List.replicate 8 0 := by
    rw [stripImage, slice_withChecksum_of_disjoint (by omega),
      ← slice_append_slice _ layout.ddSecurityOffset 4 4, slice_withEntry_address _ _ hlength,
      slice_withEntry_size _ _ hlength]
    rfl
  rw [EntryClear, ← hcleared]
  apply List.ext_getElem?
  intro i
  rw [getElem?_slice, getElem?_slice]
  split
  · exact (hr.content _ (by omega)).symm
  · rfl

/-- For every unsigned program that ends in a byte that is not zero. -/
theorem strip_undoes_embed_iff (hlayout : parsePeLayout { bytes, format := kFormat } = .ok layout)
    (htable : validateCertificateTable { bytes, format := kFormat } layout = .ok table)
    (hunsigned : table.present = false) (hlast : bytes[bytes.length - 1]? ≠ some 0)
    (h : embedSignature bytes blob = .ok signed) :
    ∃ floor, stripFloor { bytes := signed, format := kFormat } layout = .ok floor ∧
      ((∃ out, stripSignature signed = .ok out ∧ Restored bytes layout out) ↔
        EntryClear bytes layout ∧ (bytes.length % 8 = 0 ∨ floor ≤ bytes.length)) := by
  obtain ⟨l, t, hl, ht, he⟩ := embedSignature_embedded h
  have hshape := parsePeLayout_eq_ok.mp hlayout
  obtain rfl := headerShape_unique hl hshape
  obtain rfl := tableShape_unique ht ((validateCertificateTable_eq_ok hshape.fits).mp htable)
  have hkept : keptSize bytes t = bytes.length := by rw [keptSize, if_neg (by rw [hunsigned]; decide)]
  rw [hkept] at he
  have hlong := he.ends
  have hfits := he.headers
  simp only [newTable] at hlong
  obtain ⟨floor, hfloor⟩ := stripFloor_ok { bytes := signed, format := kFormat } l
  refine ⟨floor, hfloor, ?_⟩
  constructor
  · rintro ⟨out, hstrip, hr⟩
    obtain ⟨l', t', f, hl', ht', hf, hout⟩ := stripSignature_eq_ok.mp hstrip
    obtain rfl := headerShape_unique hl' he.shape
    obtain rfl := tableShape_unique ht' he.table
    obtain rfl : f = floor := Except.ok.inj (hf.symm.trans hfloor)
    obtain ⟨hp, -⟩ | ⟨-, hcut, rfl⟩ := hout
    · cases hp
    · have hle := trimPadding_le signed f 7 (bytes.length + padTo8 bytes.length)
      have hlength : (stripImage signed l' (trimPadding signed f 7 (bytes.length + padTo8 bytes.length))).length =
          trimPadding signed f 7 (bytes.length + padTo8 bytes.length) := by
        simp only [stripImage, length_withChecksum, length_withEntry, List.length_take]
        omega
      have hclear := entryClear_of_restored hcut (by simp only [newTable]; omega) he.shape hr
      obtain ⟨-, hkeptLast⟩ := last_kept he hclear hlast
      exact ⟨hclear, (trimPadding_eq_iff he hkeptLast).mp (hlength.symm.trans hr.length)⟩
  · rintro ⟨hclear, hroom⟩
    obtain ⟨hbehind, hkeptLast⟩ := last_kept he hclear hlast
    have hcut : trimPadding signed floor 7 (newTable bytes.length blob.length).address = bytes.length :=
      (trimPadding_eq_iff he hkeptLast).mpr hroom
    have hcs := hshape.checksum_fits
    refine ⟨withChecksum bytes l, stripSignature_eq_ok.mpr ⟨l, _, floor, he.shape, he.table, hfloor,
      .inr ⟨rfl, by rw [hcut]; omega, ?_⟩⟩, restored_withChecksum (by omega)⟩
    rw [hcut]
    exact stripImage_eq he hclear hfits

theorem smallProgram_restored : ∃ signed, embedSignature (smallProgram 0 0 [1]) [5] = .ok signed ∧
    ∃ floor, stripFloor { bytes := signed, format := kFormat } (layoutAt 2 false) = .ok floor ∧
      ((∃ out, stripSignature signed = .ok out ∧ Restored (smallProgram 0 0 [1]) (layoutAt 2 false) out) ↔
        EntryClear (smallProgram 0 0 [1]) (layoutAt 2 false) ∧
          ((smallProgram 0 0 [1]).length % 8 = 0 ∨ floor ≤ (smallProgram 0 0 [1]).length)) := by
  have hlayout : parsePeLayout { bytes := smallProgram 0 0 [1], format := kFormat } = .ok (layoutAt 2 false) := by
    decide +kernel
  have htable : validateCertificateTable { bytes := smallProgram 0 0 [1], format := kFormat } (layoutAt 2 false) =
      .ok {} := by decide +kernel
  have hlast : (smallProgram 0 0 [1])[(smallProgram 0 0 [1]).length - 1]? ≠ some 0 := by decide +kernel
  have he : (embedSignature (smallProgram 0 0 [1]) [5]).isOk = true := by decide +kernel
  obtain ⟨signed, hsigned⟩ := exists_of_isOk he
  exact ⟨signed, hsigned, strip_undoes_embed_iff hlayout htable rfl hlast hsigned⟩

/-- A program of 163 bytes whose SizeOfHeaders is 512. -/
def shortProgram : List UInt8 := overwrite (smallProgram 0 0 [1]) 86 (leBytes 4 512)

/-- Stripping does not take the padding back from it. -/
theorem shortProgram_grows :
    ¬ ∀ (bytes blob signed : List UInt8) (layout : PeLayout) (table : CertificateTable),
      parsePeLayout { bytes, format := kFormat } = .ok layout →
      validateCertificateTable { bytes, format := kFormat } layout = .ok table →
      table.present = false → bytes[bytes.length - 1]? ≠ some 0 → embedSignature bytes blob = .ok signed →
        ∃ out, stripSignature signed = .ok out ∧ Restored bytes layout out := by
  intro h
  have hlayout : parsePeLayout { bytes := shortProgram, format := kFormat } = .ok (layoutAt 2 false) := by
    decide +kernel
  have htable : validateCertificateTable { bytes := shortProgram, format := kFormat } (layoutAt 2 false) =
      .ok {} := by decide +kernel
  have hlast : shortProgram[shortProgram.length - 1]? ≠ some 0 := by decide +kernel
  have he : (embedSignature shortProgram [5]).isOk = true := by decide +kernel
  obtain ⟨signed, hsigned⟩ := exists_of_isOk he
  obtain ⟨out, hout, hr⟩ := h shortProgram [5] signed _ _ hlayout htable rfl hlast hsigned
  have hlength : ((embedSignature shortProgram [5] >>= stripSignature).map List.length) = .ok 168 := by
    decide +kernel
  rw [hsigned, ok_bind, hout] at hlength
  have hshort : out.length = 168 := Except.ok.inj hlength
  have hsame : shortProgram.length = 163 := by decide +kernel
  rw [hr.length, hsame] at hshort
  omega

end TheSeed.PeRoundTrip
