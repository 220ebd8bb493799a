import TheSeed.PeSigner

namespace TheSeed.PeShape

open Bytes Checked BoundedBytes PeSigner

/-- What `parsePeLayout` has checked of a file when it returns a layout. -/
structure HeaderShape (bytes : List UInt8) (layout : PeLayout) : Prop where
  dos : 64 ≤ bytes.length
  mz : leValue (slice bytes 0 2) = kImageDosSignature
  lfanew : leValue (slice bytes 60 4) = layout.peHeaderOffset
  nonneg : layout.peHeaderOffset < 2 ^ 31
  signature : leValue (slice bytes layout.peHeaderOffset 4) = kImageNtSignature
  magic : leValue (slice bytes (layout.peHeaderOffset + 24) 2) =
    if layout.isPe32Plus then kImageNtOptionalHdr64Magic else kImageNtOptionalHdr32Magic
  derived : layoutAt layout.peHeaderOffset layout.isPe32Plus = layout
  numRva : 5 ≤ leValue (slice bytes (numRvaOffset layout) 4)
  fits : layout.ddSecurityOffset + 8 ≤ bytes.length

theorem parsePeLayout_shape {file : ByteSpan} {layout : PeLayout}
    (h : parsePeLayout file = .ok layout) : HeaderShape file.bytes layout := by
  simp only [parsePeLayout, bind_eq_ok, ByteSpan.read_eq_ok, ByteSpan.sub_eq_ok, rejectIf_eq_ok,
    pure_eq_ok, Except.ok.injEq] at h
  obtain ⟨dos, ⟨hdos, rfl⟩, mz, ⟨-, hmz⟩, -, hmz', lfanew, ⟨-, hlf⟩, -, hneg, pe, ⟨hpe, rfl⟩,
    nt, ⟨-, hnt⟩, -, hnt', magic, ⟨-, hmagic⟩, -, hmagic', num, ⟨hnum, hnum'⟩, -, hfive,
    -, -, dd, ⟨hdd, -⟩, rfl⟩ := h
  rw [slice_slice (by omega)] at hmz hlf hnt hmagic
  simp only [ByteOrder.value, Nat.zero_add, Nat.add_zero] at hmz hlf hnt hmagic hnum'
  constructor
  · omega
  · omega
  · exact hlf
  · exact Nat.lt_of_not_le hneg
  · simp only [layoutAt]; omega
  · simp only [layoutAt, decide_eq_true_eq]
    split <;> omega
  · rfl
  · omega
  · exact hdd

/-- The offsets that `layoutAt` fixes, as equations. -/
theorem HeaderShape.offsets {bytes : List UInt8} {layout : PeLayout} (h : HeaderShape bytes layout) :
    layout.optionalHeaderOffset = layout.peHeaderOffset + 24 ∧
      layout.checksumOffset = layout.peHeaderOffset + 88 ∧
      layout.ddSecurityOffset = layout.peHeaderOffset + 24 + (if layout.isPe32Plus then 144 else 128) ∧
      numRvaOffset layout = layout.peHeaderOffset + 24 + (if layout.isPe32Plus then 108 else 92) := by
  have hd := h.derived
  rw [← hd]
  cases layout.isPe32Plus <;> exact ⟨rfl, rfl, rfl, rfl⟩

theorem HeaderShape.checksum_fits {bytes : List UInt8} {layout : PeLayout} (h : HeaderShape bytes layout) :
    layout.checksumOffset + 4 ≤ layout.ddSecurityOffset := by
  obtain ⟨-, hcs, hdd, -⟩ := h.offsets
  split at hdd <;> omega

theorem parsePeLayout_of_shape {file : ByteSpan} {layout : PeLayout}
    (h : HeaderShape file.bytes layout) : parsePeLayout file = .ok layout := by
  obtain ⟨hopt, hcs, hdd, hnum⟩ := h.offsets
  have hfits := h.fits
  have hdos := h.dos
  have hnonneg := h.nonneg
  have hplus : (if layout.isPe32Plus then 144 else 128) ≤ 144 ∧
      128 ≤ (if layout.isPe32Plus then 144 else 128) := by split <;> omega
  have hmagic : (decide ((if layout.isPe32Plus then kImageNtOptionalHdr64Magic
      else kImageNtOptionalHdr32Magic) = kImageNtOptionalHdr64Magic)) = layout.isPe32Plus := by
    cases layout.isPe32Plus <;> decide
  have hrva : numRvaOffset layout + 4 ≤ layout.ddSecurityOffset := by
    rw [hnum, hdd]
    split <;> omega
  simp only [parsePeLayout, bind_eq_ok, ByteSpan.read_eq_ok, ByteSpan.sub_eq_ok, rejectIf_eq_ok,
    pure_eq_ok, Except.ok.injEq, ByteOrder.value]
  refine ⟨_, ⟨by omega, rfl⟩, _, ⟨by rw [length_slice_of_le (by omega)]; omega, rfl⟩, (), ?_,
    layout.peHeaderOffset, ⟨by rw [length_slice_of_le (by omega)], ?_⟩, (), by omega,
    _, ⟨by omega, rfl⟩, _, ⟨by rw [length_slice_of_le (by omega)]; omega, rfl⟩, (), ?_,
    _, ⟨by rw [length_slice_of_le (by omega)], rfl⟩, (), ?_, ?_⟩
  · rw [slice_slice (by omega)]
    exact not_not.mpr h.mz
  · rw [slice_slice (by omega)]
    exact h.lfanew
  · rw [slice_slice (by omega)]
    exact not_not.mpr h.signature
  · rw [slice_slice (by omega), h.magic]
    split <;> simp
  · rw [slice_slice (by omega), h.magic, hmagic, h.derived]
    exact ⟨_, ⟨by omega, rfl⟩, (), by have := h.numRva; omega, _, ⟨by omega, rfl⟩, _, ⟨hfits, rfl⟩, rfl⟩

theorem parsePeLayout_eq_ok {file : ByteSpan} {layout : PeLayout} :
    parsePeLayout file = .ok layout ↔ HeaderShape file.bytes layout :=
  ⟨parsePeLayout_shape, parsePeLayout_of_shape⟩

/-- A table entry is unused, or describes a well-formed certificate table behind the headers. -/
structure TableShape (bytes : List UInt8) (layout : PeLayout) (table : CertificateTable) : Prop where
  address : leValue (slice bytes layout.ddSecurityOffset 4) = table.address
  size : leValue (slice bytes (layout.ddSecurityOffset + 4) 4) = table.size
  present : table.present = decide (table.address ≠ 0 ∧ table.size ≠ 0)
  absent : table.present = false → table.length = 0
  fits : table.present = true → table.address + table.size ≤ bytes.length
  behind : table.present = true → layout.ddSecurityOffset + 8 ≤ table.address
  length : table.present = true → leValue (slice bytes table.address 4) = table.length
  bounds : table.present = true → 8 ≤ table.length ∧ table.length ≤ table.size
  revision : table.present = true → leValue (slice bytes (table.address + 4) 2) = 0x0200
  type : table.present = true → leValue (slice bytes (table.address + 6) 2) = 0x0002

theorem validateCertificateTable_eq_ok {file : ByteSpan} {layout : PeLayout} {table : CertificateTable}
    (hfits : layout.ddSecurityOffset + 8 ≤ file.bytes.length) :
    validateCertificateTable file layout = .ok table ↔ TableShape file.bytes layout table := by
  have ha : file.read 4 layout.ddSecurityOffset .little "certificate directory address" =
      .ok (leValue (slice file.bytes layout.ddSecurityOffset 4)) :=
    ByteSpan.read_eq_ok.mpr ⟨by omega, rfl⟩
  have hs : file.read 4 (layout.ddSecurityOffset + 4) .little "certificate directory size" =
      .ok (leValue (slice file.bytes (layout.ddSecurityOffset + 4) 4)) :=
    ByteSpan.read_eq_ok.mpr ⟨by omega, rfl⟩
  rw [validateCertificateTable, ha, ok_bind, hs, ok_bind]
  generalize hav : leValue (slice file.bytes layout.ddSecurityOffset 4) = address
  generalize hsv : leValue (slice file.bytes (layout.ddSecurityOffset + 4) 4) = size
  by_cases hz : address = 0 ∨ size = 0
  · rw [if_pos hz]
    constructor
    · intro h
      cases h
      have hp : decide (address ≠ 0 ∧ size ≠ 0) = false := by simp; omega
      exact ⟨hav, hsv, hp.symm, fun _ => rfl, nofun, nofun, nofun, nofun, nofun, nofun⟩
    · intro h
      obtain ⟨present, a, s, len⟩ := table
      obtain rfl : address = a := hav.symm.trans h.address
      obtain rfl : size = s := hsv.symm.trans h.size
      have hp : present = false := by
        have hp : present = decide (address ≠ 0 ∧ size ≠ 0) := h.present
        rw [hp, decide_eq_false_iff_not]
        omega
      have hl := h.absent hp
      simp_all
  · rw [if_neg hz]
    simp only [bind_eq_ok, ByteSpan.read_eq_ok, ByteSpan.sub_eq_ok, rejectIf_eq_ok, pure_eq_ok,
      Except.ok.injEq, ByteOrder.value]
    constructor
    · rintro ⟨span, ⟨hfit, rfl⟩, -, hbehind, -, hsize, length, ⟨-, hlen⟩, -, hlen8, -, hlens,
        revision, ⟨-, hrev⟩, type, ⟨-, htype⟩, -, hrt, rfl⟩
      rw [slice_slice (by omega)] at hlen hrev htype
      have hp : decide (address ≠ 0 ∧ size ≠ 0) = true := by simp; omega
      exact ⟨hav, hsv, hp.symm, nofun, fun _ => hfit, fun _ => by simp only; omega, fun _ => hlen,
        fun _ => by simp only; omega, fun _ => by simp only; omega, fun _ => by simp only; omega⟩
    · intro h
      obtain ⟨present, a, s, len⟩ := table
      obtain rfl : address = a := hav.symm.trans h.address
      obtain rfl : size = s := hsv.symm.trans h.size
      have hp : present = true := by
        have hp : present = decide (address ≠ 0 ∧ size ≠ 0) := h.present
        rw [hp, decide_eq_true_eq]
        omega
      subst hp
      have hfit := h.fits rfl
      have hbehind := h.behind rfl
      have hlen := h.length rfl
      have hbounds := h.bounds rfl
      have hrev := h.revision rfl
      have htype := h.type rfl
      simp only at hfit hbehind hlen hbounds hrev htype
      refine ⟨_, ⟨hfit, rfl⟩, (), by omega, (), by omega, len, ⟨?_, ?_⟩, (), by omega, (), by omega,
        0x0200, ⟨?_, ?_⟩, 0x0002, ⟨?_, ?_⟩, (), by omega, rfl⟩
      · rw [length_slice_of_le hfit]; omega
      · rw [slice_slice (by omega)]; exact hlen
      · rw [length_slice_of_le hfit]; omega
      · rw [slice_slice (by omega)]; exact hrev
      · rw [length_slice_of_le hfit]; omega
      · rw [slice_slice (by omega)]; exact htype

end TheSeed.PeShape
