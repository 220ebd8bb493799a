import TheSeed.MachOSigner

namespace TheSeed.MachOSuperBlob

open Bytes Checked BoundedBytes MachOLayout MachOSigner

/-! Reading what `buildSuperBlob` writes. -/

def kSignatureFormat : String := "Mach-O code signature"

/-- The offset in the first index entry for a slot, after so many entries from the one with the number `i` on are
checked. -/
def findSlot (blob : ByteSpan) (slot indexEnd length : Nat) : Nat → Nat → Option Nat → Outcome (Option Nat)
  | 0, _, wanted => return wanted
  | remaining + 1, i, wanted => do
      let slotType ← blob.read 4 (12 + i * 8) .big "blob index slot"
      let blobOffset ← blob.read 4 (12 + i * 8 + 4) .big "blob index offset"
      rejectIf (blobOffset < indexEnd) kSignatureFormat
        ("blob index " ++ toString i ++ " offset " ++ toString blobOffset ++ " is inside the index (" ++
          toString indexEnd ++ " bytes)")
      rejectIf (rangeFits blobOffset 8 length = false) kSignatureFormat
        ("blob index " ++ toString i ++ " offset " ++ toString blobOffset ++ " is past the end of the SuperBlob (" ++
          toString length ++ " bytes)")
      findSlot blob slot indexEnd length remaining (i + 1) (if slotType = slot ∧ wanted = none then some blobOffset else wanted)

/-- Where the blob in a slot is, and how long it is. -/
def findSuperBlobSlot (superBlob : List UInt8) (slot blobMagic : Nat) (blobName : String) : Outcome (Option (Nat × Nat)) := do
  let data : ByteSpan := ⟨superBlob, kSignatureFormat, "the SuperBlob"⟩
  rejectIf (data.size < 12) kSignatureFormat
    ("SuperBlob header needs 12 bytes but only " ++ toString data.size ++ " are present")
  let magic ← data.read 4 0 .big "SuperBlob magic"
  rejectIf (magic ≠ csmagicEmbeddedSignature) kSignatureFormat "SuperBlob magic is not the embedded signature magic"
  let length ← data.read 4 4 .big "SuperBlob length"
  rejectIf (length < 12 ∨ data.size < length) kSignatureFormat
    ("SuperBlob length " ++ toString length ++ " is smaller than its header or past the " ++ toString data.size ++
      " bytes present")
  let count ← data.read 4 8 .big "SuperBlob count"
  let indexEnd := 12 + count * 8
  rejectIf (length < indexEnd) kSignatureFormat
    ("SuperBlob blob index of " ++ toString count ++ " entries does not fit in the SuperBlob length " ++ toString length)
  let blob ← data.sub 0 length "SuperBlob"
  let wanted ← findSlot blob slot indexEnd length count 0 none
  match wanted with
  | none => return none
  | some blobOffset => do
      let innerMagic ← blob.read 4 blobOffset .big "blob magic"
      rejectIf (innerMagic ≠ blobMagic) kSignatureFormat ("blob magic of the " ++ blobName ++ " is not the expected value")
      let innerLength ← blob.read 4 (blobOffset + 4) .big "blob length"
      rejectIf (innerLength < 8 ∨ rangeFits blobOffset innerLength length = false) kSignatureFormat
        ("blob length " ++ toString innerLength ++ " of the " ++ blobName ++ " is below 8 or runs past the SuperBlob")
      return some (blobOffset, innerLength)

def extractCmsFromSuperBlob (superBlob : List UInt8) : Outcome (Option (List UInt8)) := do
  let found ← findSuperBlobSlot superBlob csslotCmsSignature csmagicBlobWrapper "CMS blob"
  return found.map fun place => slice superBlob (place.1 + 8) (place.2 - 8)

def extractCodeDirectoryFromSuperBlob (superBlob : List UInt8) : Outcome (Option (List UInt8)) := do
  let found ← findSuperBlobSlot superBlob csslotCodeDirectory csmagicCodeDirectory "code directory"
  return found.map fun place => slice superBlob place.1 place.2

/-! What is written -/

variable {cd cms : List UInt8} {path : String} {universal : Bool} {index : Nat} {file : ByteSpan} {entry : ContainerEntry}
  {sig : CodeSignatureLayout}

def superBlobSize (cd cms : List UInt8) : Nat := 56 + cd.length + cms.length

/-- The header and the index. -/
def superBlobWords (cd cms : List UInt8) : List Nat :=
  [csmagicEmbeddedSignature, superBlobSize cd cms, 3, csslotCodeDirectory, 36, csslotRequirements, 36 + cd.length,
    csslotCmsSignature, 48 + cd.length]

theorem length_buildEmptyRequirements : buildEmptyRequirements.length = 12 := by
  simp only [buildEmptyRequirements, List.length_append, length_beBytes]

theorem buildSuperBlob_eq (cd cms : List UInt8) : buildSuperBlob cd cms =
    beWords (superBlobWords cd cms) ++
      (cd ++ (buildEmptyRequirements ++ (beBytes 4 csmagicBlobWrapper ++ beBytes 4 (8 + cms.length) ++ cms))) := by
  have hparts := @overwriteAll_fieldsFrom [] (List.replicate (superBlobSize cd cms) 0)
    ((superBlobWords cd cms).map (beBytes 4) ++
      [cd, buildEmptyRequirements, beBytes 4 csmagicBlobWrapper ++ beBytes 4 (8 + cms.length) ++ cms]) (by
      simp [superBlobWords, superBlobSize, length_buildEmptyRequirements]
      omega)
  rw [buildSuperBlob, beWords]
  simpa [superBlobWords, fieldsFrom, superBlobSize, length_buildEmptyRequirements, Nat.add_assoc, Nat.add_comm,
    Nat.add_left_comm] using hparts

theorem length_buildSuperBlob (cd cms : List UInt8) : (buildSuperBlob cd cms).length = superBlobSize cd cms := by
  rw [buildSuperBlob_eq, List.length_append, length_beWords]
  simp only [List.length_append, length_beBytes, length_buildEmptyRequirements, superBlobWords, superBlobSize,
    List.length_cons, List.length_nil]
  omega

/-! Reading it -/

section Read

variable (hsize : superBlobSize cd cms ≤ kUint32Max)
include hsize

theorem superBlobWords_lt : ∀ word ∈ superBlobWords cd cms, word < 2 ^ 32 := by
  intro word hin
  rw [kUint32Max, superBlobSize] at hsize
  simp only [superBlobWords, superBlobSize, csmagicEmbeddedSignature, csslotCodeDirectory, csslotRequirements,
    csslotCmsSignature, List.mem_cons, List.not_mem_nil, or_false] at hin
  omega

/-- A number of the header or the index. -/
theorem read_word {scope what : String} {i word : Nat} (hi : (superBlobWords cd cms)[i]? = some word) :
    (⟨buildSuperBlob cd cms, kSignatureFormat, scope⟩ : ByteSpan).read 4 (4 * i) .big what = .ok word := by
  have hlt := (List.getElem?_eq_some_iff.1 hi).1
  rw [show (superBlobWords cd cms).length = 9 from rfl] at hlt
  have hvalue : beValue (slice (buildSuperBlob cd cms) (4 * i) 4) = word := by
    rw [buildSuperBlob_eq]
    exact beValue_beWords hi (superBlobWords_lt hsize word (List.mem_of_getElem? hi))
  have hroom : 4 * i + 4 ≤ (buildSuperBlob cd cms).length := by
    rw [length_buildSuperBlob, superBlobSize]
    omega
  rw [ByteSpan.read_eq_ok]
  simp only [ByteOrder.value]
  exact ⟨hroom, hvalue⟩

omit hsize in
theorem findSlot_step {blob : ByteSpan} {slot indexEnd length remaining i slotType blobOffset : Nat} {wanted : Option Nat}
    (hslot : blob.read 4 (12 + i * 8) .big "blob index slot" = .ok slotType)
    (hoffset : blob.read 4 (12 + i * 8 + 4) .big "blob index offset" = .ok blobOffset) (hbehind : indexEnd ≤ blobOffset)
    (hfits : blobOffset + 8 ≤ length) : findSlot blob slot indexEnd length (remaining + 1) i wanted =
      findSlot blob slot indexEnd length remaining (i + 1) (if slotType = slot ∧ wanted = none then some blobOffset else wanted) := by
  rw [findSlot, hslot, ok_bind, hoffset, ok_bind, rejectIf_of_not (Nat.not_lt.2 hbehind), ok_bind,
    rejectIf_of_not (by rw [Bool.not_eq_false, rangeFits_iff]; exact hfits), ok_bind]

/-- The first entry for a slot. -/
theorem findSlot_superBlob (slot : Nat) :
    findSlot ⟨buildSuperBlob cd cms, kSignatureFormat, "SuperBlob"⟩ slot 36 (superBlobSize cd cms) 3 0 none =
      .ok (if slot = csslotCodeDirectory then some 36
        else if slot = csslotRequirements then some (36 + cd.length)
        else if slot = csslotCmsSignature then some (48 + cd.length)
        else none) := by
  have hwhole : superBlobSize cd cms = 56 + cd.length + cms.length := rfl
  have hfirst := @findSlot_step _ slot 36 (superBlobSize cd cms) 2 0 csslotCodeDirectory 36 none
    (@read_word cd cms hsize "SuperBlob" _ 3 _ rfl) (@read_word cd cms hsize "SuperBlob" _ 4 _ rfl) (by omega) (by omega)
  have hsecond := fun wanted => @findSlot_step _ slot 36 (superBlobSize cd cms) 1 1 csslotRequirements (36 + cd.length) wanted
    (@read_word cd cms hsize "SuperBlob" _ 5 _ rfl) (@read_word cd cms hsize "SuperBlob" _ 6 _ rfl) (by omega) (by omega)
  have hthird := fun wanted => @findSlot_step _ slot 36 (superBlobSize cd cms) 0 2 csslotCmsSignature (48 + cd.length) wanted
    (@read_word cd cms hsize "SuperBlob" _ 7 _ rfl) (@read_word cd cms hsize "SuperBlob" _ 8 _ rfl) (by omega) (by omega)
  refine (hfirst.trans (hsecond _)).trans ((hthird _).trans ?_)
  rw [findSlot]
  by_cases hcd : slot = csslotCodeDirectory
  · subst hcd
    rfl
  · by_cases hreq : slot = csslotRequirements
    · subst hreq
      rfl
    · by_cases hcms : slot = csslotCmsSignature
      · subst hcms
        rfl
      · simp [hcd, hreq, hcms, Ne.symm hcd, Ne.symm hreq, Ne.symm hcms]

/-- A blob in a slot, with its magic and its own length in front. -/
theorem findSuperBlobSlot_superBlob {slot blobMagic place : Nat} {blobName : String} {inner : List UInt8}
    (hslot : (if slot = csslotCodeDirectory then some 36
      else if slot = csslotRequirements then some (36 + cd.length)
      else if slot = csslotCmsSignature then some (48 + cd.length)
      else none) = some place)
    (hinner : slice (buildSuperBlob cd cms) place inner.length = inner) (hroom : place + inner.length ≤ superBlobSize cd cms)
    (hleast : 8 ≤ inner.length) (hmagic : beValue (slice inner 0 4) = blobMagic)
    (hlength : beValue (slice inner 4 4) = inner.length) :
    findSuperBlobSlot (buildSuperBlob cd cms) slot blobMagic blobName = .ok (some (place, inner.length)) := by
  have hwhole : superBlobSize cd cms = 56 + cd.length + cms.length := rfl
  have hlen : ∀ {scope}, (⟨buildSuperBlob cd cms, kSignatureFormat, scope⟩ : ByteSpan).size = superBlobSize cd cms := by
    intro scope
    rw [ByteSpan.size, length_buildSuperBlob]
  have hread : ∀ {offset : Nat} {what : String}, offset + 4 ≤ inner.length →
      (⟨buildSuperBlob cd cms, kSignatureFormat, "SuperBlob"⟩ : ByteSpan).read 4 (place + offset) .big what =
        .ok (beValue (slice inner offset 4)) := by
    intro offset what h
    have hvalue := @slice_slice (buildSuperBlob cd cms) place inner.length offset 4 h
    rw [hinner] at hvalue
    rw [ByteSpan.read_eq_ok]
    simp only [ByteOrder.value]
    rw [length_buildSuperBlob, hvalue]
    exact ⟨by omega, rfl⟩
  have hsub : (⟨buildSuperBlob cd cms, kSignatureFormat, "the SuperBlob"⟩ : ByteSpan).sub 0 (superBlobSize cd cms)
      "SuperBlob" = .ok ⟨buildSuperBlob cd cms, kSignatureFormat, "SuperBlob"⟩ := by
    rw [ByteSpan.sub_eq_ok]
    simp only
    rw [← length_buildSuperBlob, slice_all]
    exact ⟨by omega, rfl⟩
  rw [findSuperBlobSlot]
  simp only [hlen]
  rw [rejectIf_of_not (by omega), ok_bind, @read_word cd cms hsize _ _ 0 _ rfl, ok_bind, rejectIf_of_not (by simp), ok_bind,
    @read_word cd cms hsize _ _ 1 _ rfl, ok_bind, rejectIf_of_not (by omega), ok_bind, @read_word cd cms hsize _ _ 2 _ rfl,
    ok_bind, rejectIf_of_not (by omega), ok_bind, hsub, ok_bind, findSlot_superBlob hsize, hslot, ok_bind]
  simp only
  have hfirst := @hread 0 "blob magic" (by omega)
  rw [Nat.add_zero] at hfirst
  rw [hfirst, ok_bind, hmagic, rejectIf_of_not (by simp), ok_bind, @hread 4 "blob length" (by omega), ok_bind, hlength,
    rejectIf_of_not ?_, ok_bind]
  · rfl
  · rw [not_or, Nat.not_lt, Bool.not_eq_false, rangeFits_iff]
    exact ⟨hleast, hroom⟩

omit hsize in
theorem slice_codeDirectory : slice (buildSuperBlob cd cms) 36 cd.length = cd := by
  have hwords : (beWords (superBlobWords cd cms)).length = 36 := length_beWords _
  rw [buildSuperBlob_eq, slice_append_right (by rw [hwords]), hwords, slice_append_left (by omega)]
  exact slice_all cd

omit hsize in
theorem slice_cmsBlob : slice (buildSuperBlob cd cms) (48 + cd.length)
    (beBytes 4 csmagicBlobWrapper ++ beBytes 4 (8 + cms.length) ++ cms).length =
      beBytes 4 csmagicBlobWrapper ++ beBytes 4 (8 + cms.length) ++ cms := by
  have hwords : (beWords (superBlobWords cd cms)).length = 36 := length_beWords _
  have hreq := length_buildEmptyRequirements
  rw [buildSuperBlob_eq, slice_append_right (by omega), hwords, slice_append_right (by omega),
    slice_append_right (by omega), show 48 + cd.length - 36 - cd.length - buildEmptyRequirements.length = 0 by omega]
  exact slice_all _

end Read

/-- The region of a signature is cut to the length that the SuperBlob gives. -/
theorem regionLength_superBlob (hsize : superBlobSize cd cms ≤ kUint32Max) (zeros : Nat) (format scope : String) :
    regionLength ⟨buildSuperBlob cd cms ++ List.replicate zeros 0, format, scope⟩ = .ok (superBlobSize cd cms) := by
  have hwhole : superBlobSize cd cms = 56 + cd.length + cms.length := rfl
  have hlen : (⟨buildSuperBlob cd cms ++ List.replicate zeros 0, format, scope⟩ : ByteSpan).size =
      superBlobSize cd cms + zeros := by
    rw [ByteSpan.size, List.length_append, List.length_replicate, length_buildSuperBlob]
  have hread : ∀ {i word : Nat} {what : String}, (superBlobWords cd cms)[i]? = some word → 4 * i + 4 ≤ 56 →
      (⟨buildSuperBlob cd cms ++ List.replicate zeros 0, format, scope⟩ : ByteSpan).read 4 (4 * i) .big what = .ok word := by
    intro i word what hi hin
    have hvalue := (ByteSpan.read_eq_ok.1 (@read_word cd cms hsize scope what i word hi)).2
    rw [ByteSpan.read_eq_ok]
    simp only [ByteOrder.value] at hvalue ⊢
    rw [slice_append_left (by rw [length_buildSuperBlob]; omega), hvalue, List.length_append, length_buildSuperBlob]
    exact ⟨by omega, rfl⟩
  rw [regionLength, hlen, if_neg (by omega), @hread 0 _ _ rfl (by decide), ok_bind, if_neg (by simp),
    @hread 1 _ _ rfl (by decide), ok_bind, if_pos ⟨by omega, by omega⟩]
  rfl

/-- What is written is what is read, from the region with the padding behind it as well as on its own. -/
theorem superBlob_agrees (hleast : 8 ≤ cd.length) (hmagic : beValue (slice cd 0 4) = csmagicCodeDirectory)
    (hlength : beValue (slice cd 4 4) = cd.length) (hsize : (buildSuperBlob cd cms).length ≤ kUint32Max) :
    (∀ (path : String) (universal : Bool) (index : Nat) (file : ByteSpan) (entry : ContainerEntry)
        (sig : CodeSignatureLayout) (zeros : Nat), entry.slice.support = .supported → entry.slice.codesig = some sig →
      sig.dataoff ≠ 0 → entry.offset + sig.dataoff + sig.datasize ≤ file.bytes.length →
      slice file.bytes (entry.offset + sig.dataoff) sig.datasize = buildSuperBlob cd cms ++ List.replicate zeros 0 →
        signatureOfSlice path file universal index entry = .ok (some (buildSuperBlob cd cms))) ∧
      extractCodeDirectoryFromSuperBlob (buildSuperBlob cd cms) = .ok (some cd) ∧
      extractCmsFromSuperBlob (buildSuperBlob cd cms) = .ok (some cms) := by
  rw [length_buildSuperBlob] at hsize
  have hwhole : superBlobSize cd cms = 56 + cd.length + cms.length := rfl
  refine ⟨fun path universal index file entry sig zeros hsupport hsig hdataoff hfits hregion => ?_, ?_, ?_⟩
  · have hdatasize : sig.datasize ≠ 0 := by
      intro hzero
      have hlen := congrArg List.length hregion
      rw [hzero, slice_zero_length, List.length_append, length_buildSuperBlob, List.length_nil] at hlen
      omega
    have hfound : signatureRegion path file universal index entry =
        .ok (some ⟨buildSuperBlob cd cms ++ List.replicate zeros 0, file.format, "LC_CODE_SIGNATURE data"⟩) := by
      rw [signatureRegion, hsupport, hsig, refuseSliceIf, if_neg (by simp), ok_bind]
      simp only
      rw [if_neg (by simp [hdataoff, hdatasize]), ByteSpan.sub_eq_ok.2 ⟨hfits, rfl⟩, ok_bind, hregion]
      rfl
    rw [signatureOfSlice, hfound, ok_bind]
    simp only
    rw [regionLength_superBlob hsize, ok_bind, ← length_buildSuperBlob, List.take_left]
    rfl
  · rw [extractCodeDirectoryFromSuperBlob, findSuperBlobSlot_superBlob hsize rfl slice_codeDirectory (by omega) hleast
      hmagic hlength, ok_bind, Option.map_some, slice_codeDirectory]
    rfl
  · have hlen : (beBytes 4 csmagicBlobWrapper ++ beBytes 4 (8 + cms.length) ++ cms).length = 8 + cms.length := by
      rw [List.length_append, List.length_append, length_beBytes, length_beBytes]
    have hwords : beBytes 4 csmagicBlobWrapper ++ beBytes 4 (8 + cms.length) ++ cms =
        beWords [csmagicBlobWrapper, 8 + cms.length] ++ cms := by
      rw [beWords, List.map_cons, List.map_cons, List.map_nil, List.flatten_cons, List.flatten_cons, List.flatten_nil,
        List.append_nil]
    rw [kUint32Max] at hsize
    have hfirst := @beValue_beWords [csmagicBlobWrapper, 8 + cms.length] cms 0 _ rfl (by decide)
    have hsecond := @beValue_beWords [csmagicBlobWrapper, 8 + cms.length] cms 1 _ rfl (by omega)
    rw [← hwords] at hfirst hsecond
    rw [extractCmsFromSuperBlob, findSuperBlobSlot_superBlob (by rw [kUint32Max]; exact hsize) rfl slice_cmsBlob
      (by rw [hlen]; omega) (by rw [hlen]; omega) hfirst (by rw [hlen]; exact hsecond), ok_bind, Option.map_some, hlen,
      Nat.add_sub_cancel_left]
    have hinner := @slice_cmsBlob cd cms
    rw [hlen] at hinner
    have hcms : slice (buildSuperBlob cd cms) (48 + cd.length + 8) cms.length = cms := by
      have hpart := @slice_slice (buildSuperBlob cd cms) (48 + cd.length) (8 + cms.length) 8 cms.length (Nat.le_refl _)
      rw [hinner, slice_append_right (by simp), show 8 - (beBytes 4 csmagicBlobWrapper ++ beBytes 4 (8 + cms.length)).length =
        0 by simp, slice_all] at hpart
      exact hpart.symm
    rw [hcms]
    rfl

/-- A directory with an identity of three letters. -/
def namedDirectory : List UInt8 := beBytes 4 csmagicCodeDirectory ++ beBytes 4 12 ++ [0x61, 0x2E, 0x62, 0]

/-- A SuperBlob with a message of three bytes, and seven zeros behind it: what the second slice of a file reserves. -/
def paddedBlob : List UInt8 := buildSuperBlob namedDirectory [1, 2, 3] ++ List.replicate 7 0

def reservedAt : CodeSignatureLayout where
  commandOffset := 32
  dataoff := 48
  datasize := 78

def reservedEntry : ContainerEntry where
  offset := 16
  size := 126
  slice := { codesig := some reservedAt }

theorem namedDirectory_agrees :
    signatureOfSlice "a.out" ⟨List.replicate 64 0xEE ++ paddedBlob ++ [0xEE], kFormat, "a.out"⟩ true 1 reservedEntry =
        .ok (some (buildSuperBlob namedDirectory [1, 2, 3])) ∧
      extractCodeDirectoryFromSuperBlob (buildSuperBlob namedDirectory [1, 2, 3]) = .ok (some namedDirectory) ∧
      extractCmsFromSuperBlob (buildSuperBlob namedDirectory [1, 2, 3]) = .ok (some [1, 2, 3]) := by
  obtain ⟨hsignature, hrest⟩ := @superBlob_agrees namedDirectory [1, 2, 3] (by decide) (by decide) (by decide)
    (by decide +kernel)
  refine ⟨hsignature _ _ _ _ reservedEntry reservedAt 7 rfl rfl (by decide) (by decide +kernel) ?_, hrest⟩
  decide +kernel

end TheSeed.MachOSuperBlob
