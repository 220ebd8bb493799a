import TheSeed.MachOSigner
import TheSeed.MsiQueries
import TheSeed.PeShape

namespace TheSeed.SignatureQueries

open Bytes Checked BoundedBytes

/-! Asking whether a file has a signature agrees with extracting it, though the question reads the file in pages and
stops before the signature. -/

theorem pe_hasEmbeddedSignature_eq (bytes : List UInt8) :
    PeSigner.hasEmbeddedSignature (PagedFile.data bytes) = (PeSigner.extractSignature bytes).map Option.isSome := by
  rw [PagedFile.data_eq, PeSigner.hasEmbeddedSignature, PeSigner.extractSignature]
  cases hlayout : PeSigner.parsePeLayout { bytes, format := PeSigner.kFormat } with
  | error reason => rfl
  | ok layout =>
      simp only [ok_bind]
      cases htable : PeSigner.validateCertificateTable { bytes, format := PeSigner.kFormat } layout with
      | error reason => rfl
      | ok table =>
          simp only [ok_bind]
          have hshape := PeShape.parsePeLayout_shape hlayout
          have hvalid := (PeShape.validateCertificateTable_eq_ok hshape.fits).1 htable
          cases hpresent : table.present with
          | false => rfl
          | true =>
              have hfits : table.address + table.size ≤ bytes.length := hvalid.fits hpresent
              obtain ⟨hleast, hmost⟩ := hvalid.bounds hpresent
              have hcertificate : (⟨bytes, PeSigner.kFormat, "the file"⟩ : ByteSpan).sub table.address table.length
                  "WIN_CERTIFICATE" = .ok ⟨slice bytes table.address table.length, PeSigner.kFormat, "WIN_CERTIFICATE"⟩ :=
                ByteSpan.sub_eq_ok.2 ⟨by simp only; omega, rfl⟩
              have hblob : (⟨slice bytes table.address table.length, PeSigner.kFormat, "WIN_CERTIFICATE"⟩ : ByteSpan).sub
                  8 (table.length - 8) "PKCS#7 blob" = .ok ⟨slice (slice bytes table.address table.length) 8
                    (table.length - 8), PeSigner.kFormat, "PKCS#7 blob"⟩ := by
                refine ByteSpan.sub_eq_ok.2 ⟨?_, rfl⟩
                rw [length_slice_of_le (by omega)]
                omega
              rw [if_pos rfl, hcertificate, ok_bind, hblob]
              rfl

section MachO

open MachOLayout MachOSigner

variable {path : String} {file : ByteSpan} {universal : Bool} {entries : List ContainerEntry}

theorem regionLength_ok (region : ByteSpan) : ∃ length, regionLength region = .ok length := by
  rw [regionLength]
  by_cases hshort : region.size < 12
  · rw [if_pos hshort]
    exact ⟨_, rfl⟩
  · rw [if_neg hshort]
    have hmagic : region.read 4 0 .big "SuperBlob magic" = .ok (beValue (slice region.bytes 0 4)) :=
      ByteSpan.read_eq_ok.2 ⟨by rw [ByteSpan.size] at hshort; omega, rfl⟩
    have hown : region.read 4 4 .big "SuperBlob length" = .ok (beValue (slice region.bytes 4 4)) :=
      ByteSpan.read_eq_ok.2 ⟨by rw [ByteSpan.size] at hshort; omega, rfl⟩
    rw [hmagic, ok_bind, hown]
    split
    · exact ⟨_, rfl⟩
    · exact ⟨_, rfl⟩

/-- What is extracted of a slice is there when the slice has a place for it. -/
theorem signatureOfSlice_isSome (index : Nat) (entry : ContainerEntry) :
    (signatureOfSlice path file universal index entry).map Option.isSome =
      (signatureRegion path file universal index entry).map Option.isSome := by
  rw [signatureOfSlice]
  cases signatureRegion path file universal index entry with
  | error reason => rfl
  | ok found =>
      cases found with
      | none => rfl
      | some region =>
          obtain ⟨length, hlength⟩ := regionLength_ok region
          simp only [ok_bind, hlength]
          rfl

theorem allSigned_iff {i : Nat} : allSigned path file universal i entries = .ok true ↔
    ∃ found, signaturesOf path file universal i entries = .ok found ∧ ∀ signature ∈ found, signature.isSome = true := by
  induction entries generalizing i with
  | nil =>
      rw [allSigned, signaturesOf]
      exact ⟨fun _ => ⟨[], rfl, by simp⟩, fun _ => rfl⟩
  | cons entry entries ih =>
      have hsame := @signatureOfSlice_isSome path file universal i entry
      rw [allSigned, signaturesOf]
      cases hregion : signatureRegion path file universal i entry with
      | error reason =>
          cases hfound : signatureOfSlice path file universal i entry with
          | error _ => simp
          | ok signature =>
              rw [hregion, hfound] at hsame
              cases hsame
      | ok region =>
          cases hfound : signatureOfSlice path file universal i entry with
          | error _ =>
              rw [hregion, hfound] at hsame
              cases hsame
          | ok signature =>
              rw [hregion, hfound] at hsame
              have hsome : signature.isSome = region.isSome := Except.ok.inj hsame
              simp only [ok_bind]
              cases region with
              | none =>
                  constructor
                  · intro h
                    cases h
                  · rintro ⟨found, h, hall⟩
                    obtain ⟨rest, -, h⟩ := bind_eq_ok.1 h
                    cases h
                    have := hall signature List.mem_cons_self
                    rw [hsome] at this
                    cases this
              | some region =>
                  rw [if_neg (by simp), ih]
                  constructor
                  · rintro ⟨rest, hrest, hall⟩
                    exact ⟨signature :: rest, bind_eq_ok.2 ⟨rest, hrest, rfl⟩, List.forall_mem_cons.2 ⟨hsome, hall⟩⟩
                  · rintro ⟨found, h, hall⟩
                    obtain ⟨rest, hrest, h⟩ := bind_eq_ok.1 h
                    cases h
                    exact ⟨rest, hrest, (List.forall_mem_cons.1 hall).2⟩

theorem macho_hasEmbeddedSignature_iff (bytes : List UInt8) : hasEmbeddedSignature path bytes = .ok true ↔
    ∃ found, extractSignatures path bytes = .ok found ∧ ∀ signature ∈ found, signature.isSome = true := by
  rw [hasEmbeddedSignature, extractSignatures, PagedFile.data_eq]
  cases parseInput bytes with
  | error reason => simp
  | ok container => exact allSigned_iff

end MachO

/-- The quick query of each signer answers as its extraction does. -/
theorem presence_agrees_with_extraction (path : String) (bytes : List UInt8) :
    PeSigner.hasEmbeddedSignature (PagedFile.data bytes) = (PeSigner.extractSignature bytes).map Option.isSome ∧
    MsiQueries.hasEmbeddedSignature path bytes = (MsiQueries.extractSignature path bytes).map Option.isSome ∧
    (MachOSigner.hasEmbeddedSignature path bytes = .ok true ↔
      ∃ found, MachOSigner.extractSignatures path bytes = .ok found ∧ ∀ signature ∈ found, signature.isSome = true) :=
  ⟨pe_hasEmbeddedSignature_eq bytes, MsiQueries.hasEmbeddedSignature_eq path bytes, macho_hasEmbeddedSignature_iff bytes⟩

end TheSeed.SignatureQueries
