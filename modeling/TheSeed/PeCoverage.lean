import TheSeed.PeHistory

namespace TheSeed.PeCoverage

open Bytes Checked BoundedBytes PeSigner PeShape PeEffects PeFingerprint PeHistory

/-! The fingerprint covers the whole program: two programs with one fingerprint differ in the CheckSum field, the certificate
directory entry and the certificates at most. -/

variable {layout layout' : PeLayout} {table table' : CertificateTable} {a b : List UInt8}

/-- The program that the fingerprint is taken of: what a signature keeps, with the padding to come. -/
def covered (table : CertificateTable) (bytes : List UInt8) : List UInt8 :=
  bytes.take (keptSize bytes table) ++ List.replicate (hashedPad bytes table) 0

/-- Two files whose headers have one layout, and which hold one program but for the two fields. -/
def SameProgram (a b : List UInt8) : Prop := ∃ layout table table',
  HeaderShape a layout ∧ TableShape a layout table ∧ HeaderShape b layout ∧ TableShape b layout table' ∧
    AgreeOutside (InFields layout) (covered table a) (covered table' b)

/-! What the two fields leave of a program determines the rest -/

theorem slice_eq_of_get {offset length : Nat} (h : ∀ i, offset ≤ i → i < offset + length → a[i]? = b[i]?) :
    slice a offset length = slice b offset length := by
  apply List.ext_getElem?
  intro i
  rw [getElem?_slice, getElem?_slice]
  by_cases hi : i < length
  · rw [if_pos hi, if_pos hi]
    exact h _ (Nat.le_add_right _ _) (by omega)
  · rw [if_neg hi, if_neg hi]

theorem get_of_slice_eq {offset length i : Nat} (h : slice a offset length = slice b offset length) (hlow : offset ≤ i)
    (hhigh : i < offset + length) : a[i]? = b[i]? := by
  have hget := congrArg (fun s : List UInt8 => s[i - offset]?) h
  simp only [getElem?_slice] at hget
  rw [if_pos (by omega), if_pos (by omega), Nat.add_sub_cancel' hlow] at hget
  exact hget

theorem outside_eq_iff (hc : layout.checksumOffset + 4 ≤ layout.ddSecurityOffset) (ha : layout.ddSecurityOffset + 8 ≤ a.length)
    (hb : layout.ddSecurityOffset + 8 ≤ b.length) :
    outsideFields layout a.length a = outsideFields layout b.length b ↔ AgreeOutside (InFields layout) a b := by
  constructor
  · intro h
    have hlength := congrArg List.length h
    rw [length_outsideFields (Nat.le_refl _) ha hc, length_outsideFields (Nat.le_refl _) hb hc] at hlength
    have hsame : a.length = b.length := by omega
    rw [outsideFields, outsideFields] at h
    obtain ⟨h, hlast⟩ := List.append_inj h (by
      rw [List.length_append, List.length_append, length_slice_of_le, length_slice_of_le, length_slice_of_le,
        length_slice_of_le] <;> omega)
    obtain ⟨hfirst, hmiddle⟩ := List.append_inj h (by
      rw [length_slice_of_le, length_slice_of_le] <;> omega)
    refine ⟨hsame, fun i hi => ?_⟩
    rw [InFields] at hi
    by_cases hbefore : i < layout.checksumOffset
    · exact get_of_slice_eq hfirst (Nat.zero_le _) (by omega)
    · by_cases hbetween : i < layout.ddSecurityOffset
      · exact get_of_slice_eq hmiddle (by omega) (by omega)
      · by_cases hend : i < a.length
        · rw [← hsame] at hlast
          exact get_of_slice_eq hlast (by omega) (by omega)
        · rw [List.getElem?_eq_none (by omega), List.getElem?_eq_none (by omega)]
  · rintro ⟨hsame, hagree⟩
    have hslice : ∀ offset length, (∀ i, offset ≤ i → i < offset + length → ¬InFields layout i) →
        slice a offset length = slice b offset length :=
      fun offset length hout => slice_eq_of_get fun i hlow hhigh => hagree i (hout i hlow hhigh)
    rw [outsideFields, outsideFields, hsame, hslice 0, hslice (layout.checksumOffset + 4), hslice (layout.ddSecurityOffset + 8)]
    all_goals
      intro i hlow hhigh
      rw [InFields]
      omega

theorem length_covered (hshape : HeaderShape a layout) (htable : TableShape a layout table) :
    (covered table a).length = keptSize a table + hashedPad a table ∧ layout.ddSecurityOffset + 8 ≤ keptSize a table ∧
      keptSize a table ≤ a.length := by
  obtain ⟨hlow, hhigh⟩ := keptSize_bounds hshape htable
  rw [covered, List.length_append, List.length_take_of_le hhigh, List.length_replicate]
  exact ⟨rfl, hlow, hhigh⟩

/-- What is hashed is the program without the two fields. -/
theorem hashed_eq (hshape : HeaderShape a layout) (htable : TableShape a layout table) :
    hashedBytes layout table a = outsideFields layout (covered table a).length (covered table a) := by
  obtain ⟨hlength, hlow, hhigh⟩ := length_covered hshape htable
  have hc := hshape.checksum_fits
  have htake : (a.take (keptSize a table)).length = keptSize a table := List.length_take_of_le hhigh
  have hpad : slice (covered table a) (keptSize a table) (hashedPad a table) = List.replicate (hashedPad a table) 0 := by
    rw [covered, slice_append_right htake.le, htake, Nat.sub_self, slice_replicate (Nat.zero_add _).le]
  have hkept : outsideFields layout (keptSize a table) (covered table a) = outsideFields layout (keptSize a table) a := by
    have hslice : ∀ offset length, offset + length ≤ keptSize a table →
        slice (covered table a) offset length = slice a offset length := by
      intro offset length hle
      rw [covered, slice_append_left (hle.trans htake.ge), slice_take hle]
    rw [outsideFields, outsideFields, hslice _ _ (by omega), hslice _ _ (by omega), hslice _ _ (by omega)]
  rw [hlength, outsideFields_add _ hlow, hpad, hkept, hashedBytes]

/-! The headers are among what is hashed -/

theorem hashed_start {length : Nat} (hle : length ≤ layout.checksumOffset) (hfits : layout.checksumOffset ≤ a.length) :
    slice (hashedBytes layout table a) 0 length = slice a 0 length := by
  have hfirst : (slice a 0 layout.checksumOffset).length = layout.checksumOffset := length_slice_of_le (by omega)
  rw [hashedBytes, outsideFields, List.append_assoc, List.append_assoc, slice_append_left (by omega), slice_slice (by omega),
    Nat.zero_add]

/-- Files that are hashed alike have their headers at one place. -/
theorem layout_eq (ha : HeaderShape a layout) (hb : HeaderShape b layout')
    (h : hashedBytes layout table a = hashedBytes layout' table' b) : layout = layout' := by
  obtain ⟨-, hca, hda, -⟩ := ha.offsets
  obtain ⟨-, hcb, hdb, -⟩ := hb.offsets
  have hfa := ha.fits
  have hfb := hb.fits
  have hsa := ha.checksum_fits
  have hsb := hb.checksum_fits
  have hstart : ∀ length, length ≤ layout.checksumOffset → length ≤ layout'.checksumOffset →
      slice a 0 length = slice b 0 length := by
    intro length hle hle'
    rw [← @hashed_start layout table a _ hle (by omega), h, hashed_start hle' (by omega)]
  have hfield : ∀ offset width, offset + width ≤ layout.checksumOffset → offset + width ≤ layout'.checksumOffset →
      slice a offset width = slice b offset width := by
    intro offset width hle hle'
    have hsame := congrArg (fun s => slice s offset width) (hstart _ hle hle')
    simp only [slice_slice (Nat.le_refl _), Nat.zero_add] at hsame
    exact hsame
  have hoffset : layout.peHeaderOffset = layout'.peHeaderOffset := by
    rw [← ha.lfanew, ← hb.lfanew, hfield 60 4 (by omega) (by omega)]
  have hmagic : (if layout.isPe32Plus then kImageNtOptionalHdr64Magic else kImageNtOptionalHdr32Magic) =
      if layout'.isPe32Plus then kImageNtOptionalHdr64Magic else kImageNtOptionalHdr32Magic := by
    rw [← ha.magic, ← hb.magic, hoffset, hfield _ 2 (by omega) (by omega)]
  have hformat : layout.isPe32Plus = layout'.isPe32Plus := by
    cases hp : layout.isPe32Plus <;> cases hp' : layout'.isPe32Plus <;> rw [hp, hp'] at hmagic
    · cases hmagic
    · cases hmagic
  rw [← ha.derived, ← hb.derived, hoffset, hformat]

theorem fed_eq_iff {input input' : DigestInput} (ha : digestInput a = .ok input) (hb : digestInput b = .ok input') :
    input.fed = input'.fed ↔ SameProgram a b := by
  obtain ⟨layout, table, hshape, htable, rfl⟩ := digestInput_eq_ok.1 ha
  obtain ⟨layout', table', hshape', htable', rfl⟩ := digestInput_eq_ok.1 hb
  constructor
  · intro h
    obtain rfl := layout_eq hshape hshape' h
    obtain ⟨hlength, hlow, -⟩ := length_covered hshape htable
    obtain ⟨hlength', hlow', -⟩ := length_covered hshape' htable'
    refine ⟨layout, table, table', hshape, htable, hshape', htable', ?_⟩
    apply (outside_eq_iff hshape.checksum_fits (by omega) (by omega)).1
    rw [← hashed_eq hshape htable, ← hashed_eq hshape' htable']
    exact h
  · rintro ⟨other, first, second, hother, hfirst, hother', hsecond, hagree⟩
    have ha' := digestInput_of_shape hother hfirst
    have hb' := digestInput_of_shape hother' hsecond
    rw [ha, Except.ok.injEq] at ha'
    rw [hb, Except.ok.injEq] at hb'
    obtain ⟨hlength, hlow, -⟩ := length_covered hother hfirst
    obtain ⟨hlength', hlow', -⟩ := length_covered hother' hsecond
    rw [ha', hb']
    dsimp only
    rw [hashed_eq hother hfirst, hashed_eq hother' hsecond]
    exact (outside_eq_iff hother.checksum_fits (by omega) (by omega)).2 hagree

theorem fed_format {input input' : DigestInput} (ha : digestInput a = .ok input) (hb : digestInput b = .ok input')
    (h : SameProgram a b) : input.isPe32Plus = input'.isPe32Plus := by
  obtain ⟨layout, table, table', hshape, htable, hshape', htable', -⟩ := h
  rw [digestInput_of_shape hshape htable, Except.ok.injEq] at ha
  rw [digestInput_of_shape hshape' htable', Except.ok.injEq] at hb
  rw [← ha, ← hb]

/-- The fingerprint of a program is that of every file which holds the same program, and of another program
only where the two strings that were hashed collide. -/
theorem fingerprint_covers {hash : List UInt8 → List UInt8} {da db : DigestResult}
    (ha : computeAuthenticodeDigest hash a = .ok da) (hb : computeAuthenticodeDigest hash b = .ok db) :
    (SameProgram a b → da = db) ∧
      (da.digest = db.digest → SameProgram a b ∨ ∃ input input', digestInput a = .ok input ∧ digestInput b = .ok input' ∧
        input.fed ≠ input'.fed ∧ hash input.fed = hash input'.fed) := by
  rw [computeAuthenticodeDigest] at ha hb
  obtain ⟨input, hinput, hout⟩ := bind_eq_ok.1 ha
  obtain ⟨input', hinput', hout'⟩ := bind_eq_ok.1 hb
  cases hout
  cases hout'
  have hsame := fed_eq_iff hinput hinput'
  constructor
  · intro h
    rw [hsame.2 h, fed_format hinput hinput' h]
  · intro hdigest
    by_cases hfed : input.fed = input'.fed
    · exact .inl (hsame.1 hfed)
    · exact .inr ⟨input, input', hinput, hinput', hfed, hdigest⟩

theorem fingerprint_covers_checksum_field :
    SameProgram (smallProgram 0 0 [1]) (overwrite (smallProgram 0 0 [1]) 90 [9]) := by
  have ha : (computeAuthenticodeDigest id (smallProgram 0 0 [1])).isOk = true := by decide +kernel
  have hb : (computeAuthenticodeDigest id (overwrite (smallProgram 0 0 [1]) 90 [9])).isOk = true := by decide +kernel
  have hsame : (computeAuthenticodeDigest id (smallProgram 0 0 [1])).map (·.digest) =
      (computeAuthenticodeDigest id (overwrite (smallProgram 0 0 [1]) 90 [9])).map (·.digest) := by decide +kernel
  obtain ⟨da, ha⟩ := exists_of_isOk ha
  obtain ⟨db, hb⟩ := exists_of_isOk hb
  rw [ha, hb] at hsame
  obtain hprogram | ⟨input, input', -, -, hne, heq⟩ := (fingerprint_covers ha hb).2 (Except.ok.inj hsame)
  · exact hprogram
  · exact absurd heq hne

end TheSeed.PeCoverage
