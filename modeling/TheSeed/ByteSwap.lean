import TheSeed.BoundedBytes

namespace TheSeed.ByteSwap

open Bytes BoundedBytes

/-! The fields of a structure that is copied from a file, and swapped one by one when the host has the other order. -/

/-- `ByteSwap` of an unsigned number of `width` bytes. -/
def byteSwap (width input : Nat) : Nat :=
  if width = 2 then ((input &&& 0x00FF) <<< 8) ||| ((input &&& 0xFF00) >>> 8)
  else if width = 4 then
    ((input &&& 0x000000FF) <<< 24) ||| ((input &&& 0x0000FF00) <<< 8) ||| ((input &&& 0x00FF0000) >>> 8) |||
      ((input &&& 0xFF000000) >>> 24)
  else if width = 8 then
    ((input &&& 0x00000000000000FF) <<< 56) ||| ((input &&& 0x000000000000FF00) <<< 40) |||
      ((input &&& 0x0000000000FF0000) <<< 24) ||| ((input &&& 0x00000000FF000000) <<< 8) |||
      ((input &&& 0x000000FF00000000) >>> 8) ||| ((input &&& 0x0000FF0000000000) >>> 24) |||
      ((input &&& 0x00FF000000000000) >>> 40) ||| ((input &&& 0xFF00000000000000) >>> 56)
  else input

/-- `host` is the order of the machine, `order` that of the file. -/
def byteSwapIfNeeded (host order : ByteOrder) (width value : Nat) : Nat :=
  if host = order then value else byteSwap width value

/-- A byte of a number, from the least one on. -/
def byteAt (v i : Nat) : Nat := v / 2 ^ (8 * i) % 256

theorem byteAt_lt (v i : Nat) : byteAt v i < 256 := Nat.mod_lt _ (by decide)

theorem mask_eq (v i : Nat) : v &&& (255 <<< (8 * i)) = byteAt v i * 2 ^ (8 * i) := by
  have hmask : v &&& (255 <<< (8 * i)) = ((v >>> (8 * i)) &&& 255) <<< (8 * i) := by
    apply Nat.eq_of_testBit_eq
    intro j
    simp only [Nat.testBit_and, Nat.testBit_shiftLeft, Nat.testBit_shiftRight]
    by_cases hj : 8 * i ≤ j
    · simp [hj]
    · simp [hj]
  have hmod : v >>> (8 * i) &&& 255 = v >>> (8 * i) % 256 := Nat.and_two_pow_sub_one_eq_mod _ 8
  rw [hmask, hmod, Nat.shiftRight_eq_div_pow, Nat.shiftLeft_eq, byteAt]

/-- Bytes that do not overlap are joined by `|||`. -/
theorem or_next {a b : Nat} (k : Nat) (hb : b < 256) : a * 2 ^ (k + 8) ||| b * 2 ^ k = (a * 256 + b) * 2 ^ k := by
  have hlt : b * 2 ^ k < 2 ^ (k + 8) := by
    rw [Nat.pow_add, Nat.mul_comm (2 ^ k)]
    exact Nat.mul_lt_mul_of_pos_right hb (Nat.two_pow_pos k)
  have hor := Nat.two_pow_add_eq_or_of_lt hlt a
  rw [Nat.mul_comm (2 ^ (k + 8)) a] at hor
  rw [← hor, Nat.pow_add]
  ring

theorem shiftRight_byte (b k m : Nat) : (b * 2 ^ (k + m)) >>> m = b * 2 ^ k := by
  rw [Nat.shiftRight_eq_div_pow, Nat.pow_add, ← Nat.mul_assoc]
  exact Nat.mul_div_cancel _ (Nat.two_pow_pos m)

theorem byteSwap_two (v : Nat) : byteSwap 2 v = byteAt v 0 * 256 + byteAt v 1 := by
  have h0 : v &&& 0x00FF = byteAt v 0 * 2 ^ 0 := mask_eq v 0
  have h1 : v &&& 0xFF00 = byteAt v 1 * 2 ^ (0 + 8) := mask_eq v 1
  have hjoin := @or_next (byteAt v 0) (byteAt v 1) 0 (byteAt_lt v 1)
  rw [byteSwap, if_pos rfl, h0, h1, shiftRight_byte, Nat.pow_zero, Nat.mul_one, Nat.shiftLeft_eq]
  simpa using hjoin

theorem byteSwap_four (v : Nat) :
    byteSwap 4 v = ((byteAt v 0 * 256 + byteAt v 1) * 256 + byteAt v 2) * 256 + byteAt v 3 := by
  have h0 : v &&& 0x000000FF = byteAt v 0 * 2 ^ 0 := mask_eq v 0
  have h1 : v &&& 0x0000FF00 = byteAt v 1 * 2 ^ 8 := mask_eq v 1
  have h2 : v &&& 0x00FF0000 = byteAt v 2 * 2 ^ (8 + 8) := mask_eq v 2
  have h3 : v &&& 0xFF000000 = byteAt v 3 * 2 ^ (0 + 24) := mask_eq v 3
  rw [byteSwap, if_neg (by decide), if_pos rfl, h0, h1, h2, h3, shiftRight_byte, shiftRight_byte, Nat.shiftLeft_eq,
    Nat.shiftLeft_eq, Nat.mul_assoc, Nat.mul_assoc, ← Nat.pow_add, ← Nat.pow_add]
  rw [show 0 + 24 = 16 + 8 from rfl, show 8 + 8 = 16 from rfl, or_next 16 (byteAt_lt v 1), show 16 = 8 + 8 from rfl,
    or_next 8 (byteAt_lt v 2), show 8 = 0 + 8 from rfl, or_next 0 (byteAt_lt v 3), Nat.pow_zero, Nat.mul_one]

theorem byteSwap_eight (v : Nat) :
    byteSwap 8 v = ((((((byteAt v 0 * 256 + byteAt v 1) * 256 + byteAt v 2) * 256 + byteAt v 3) * 256 + byteAt v 4) * 256 +
      byteAt v 5) * 256 + byteAt v 6) * 256 + byteAt v 7 := by
  have h0 : v &&& 0x00000000000000FF = byteAt v 0 * 2 ^ 0 := mask_eq v 0
  have h1 : v &&& 0x000000000000FF00 = byteAt v 1 * 2 ^ 8 := mask_eq v 1
  have h2 : v &&& 0x0000000000FF0000 = byteAt v 2 * 2 ^ 16 := mask_eq v 2
  have h3 : v &&& 0x00000000FF000000 = byteAt v 3 * 2 ^ 24 := mask_eq v 3
  have h4 : v &&& 0x000000FF00000000 = byteAt v 4 * 2 ^ (24 + 8) := mask_eq v 4
  have h5 : v &&& 0x0000FF0000000000 = byteAt v 5 * 2 ^ (16 + 24) := mask_eq v 5
  have h6 : v &&& 0x00FF000000000000 = byteAt v 6 * 2 ^ (8 + 40) := mask_eq v 6
  have h7 : v &&& 0xFF00000000000000 = byteAt v 7 * 2 ^ (0 + 56) := mask_eq v 7
  have hleft (b k m : Nat) : (b * 2 ^ k) <<< m = b * 2 ^ (k + m) := by
    rw [Nat.shiftLeft_eq, Nat.mul_assoc, ← Nat.pow_add]
  rw [byteSwap, if_neg (by decide), if_neg (by decide), if_pos rfl, h0, h1, h2, h3, h4, h5, h6, h7]
  simp only [shiftRight_byte, hleft]
  have e1 := fun a => @or_next a (byteAt v 1) 48 (byteAt_lt v 1)
  have e2 := fun a => @or_next a (byteAt v 2) 40 (byteAt_lt v 2)
  have e3 := fun a => @or_next a (byteAt v 3) 32 (byteAt_lt v 3)
  have e4 := fun a => @or_next a (byteAt v 4) 24 (byteAt_lt v 4)
  have e5 := fun a => @or_next a (byteAt v 5) 16 (byteAt_lt v 5)
  have e6 := fun a => @or_next a (byteAt v 6) 8 (byteAt_lt v 6)
  have e7 := fun a => @or_next a (byteAt v 7) 0 (byteAt_lt v 7)
  simp only [Nat.reduceAdd] at e1 e2 e3 e4 e5 e6 e7 ⊢
  rw [e1, e2, e3, e4, e5, e6, e7, Nat.pow_zero, Nat.mul_one]

theorem byteAt_leValue (bs : List UInt8) (i : Nat) : byteAt (leValue bs) i = (bs.getD i 0).toNat := by
  induction bs generalizing i with
  | nil => simp [byteAt, leValue]
  | cons b bs ih =>
    have hb := b.toNat_lt
    cases i with
    | zero =>
      rw [byteAt, leValue, List.getD_cons_zero]
      omega
    | succ i =>
      rw [List.getD_cons_succ, ← ih, byteAt, byteAt, leValue, Nat.mul_succ, Nat.add_comm (8 * i), Nat.pow_add,
        ← Nat.div_div_eq_div_mul]
      congr 2
      omega

/-- The widths of the fields that are swapped. -/
def Swapped (width : Nat) : Prop := width = 2 ∨ width = 4 ∨ width = 8

theorem leValue_eq_foldr (bs : List UInt8) : leValue bs = bs.foldr (fun b acc => acc * 256 + b.toNat) 0 := by
  induction bs with
  | nil => rfl
  | cons b bs ih =>
    rw [leValue, List.foldr_cons, ← ih]
    omega

theorem beValue_eq_foldl (bs : List UInt8) : beValue bs = bs.foldl (fun acc b => acc * 256 + b.toNat) 0 := by
  rw [beValue, leValue_eq_foldr, List.foldr_reverse]

theorem byteSwap_eq_foldl {width : Nat} (h : Swapped width) (v : Nat) :
    byteSwap width v = (List.range width).foldl (fun acc i => acc * 256 + byteAt v i) 0 := by
  rcases h with rfl | rfl | rfl
  · rw [byteSwap_two]
    simp [List.range_succ]
  · rw [byteSwap_four]
    simp [List.range_succ]
  · rw [byteSwap_eight]
    simp [List.range_succ]

theorem map_getD_range (bs : List UInt8) : (List.range bs.length).map (fun i => bs.getD i 0) = bs := by
  apply List.ext_getElem
  · rw [List.length_map, List.length_range]
  · intro i hi hi'
    rw [List.getElem_map, List.getElem_range, List.getD_eq_getElem?_getD, List.getElem?_eq_getElem hi', Option.getD_some]

theorem byteSwap_leValue {bs : List UInt8} (h : Swapped bs.length) : byteSwap bs.length (leValue bs) = beValue bs := by
  rw [byteSwap_eq_foldl h, beValue_eq_foldl]
  simp only [byteAt_leValue]
  nth_rewrite 3 [← map_getD_range bs]
  rw [List.foldl_map]

theorem byteSwap_beValue {bs : List UInt8} (h : Swapped bs.length) : byteSwap bs.length (beValue bs) = leValue bs := by
  have hreverse : Swapped bs.reverse.length := by rwa [List.length_reverse]
  have hswap := byteSwap_leValue hreverse
  rwa [List.length_reverse, beValue, List.reverse_reverse] at hswap

/-- A field of a copied structure. -/
structure Field where
  offset : Nat
  width : Nat

/-- The field as the host has it after the copy, in the order of the file. -/
def Field.get (f : Field) (host order : ByteOrder) (bytes : List UInt8) : Nat :=
  byteSwapIfNeeded host order f.width (host.value (slice bytes f.offset f.width))

/-- Whatever the host, a field is read in the order of the file. -/
theorem Field.get_eq {f : Field} {host order : ByteOrder} {bytes : List UInt8} (hw : Swapped f.width)
    (hf : f.offset + f.width ≤ bytes.length) : f.get host order bytes = order.value (slice bytes f.offset f.width) := by
  have hlength : (slice bytes f.offset f.width).length = f.width := length_slice_of_le hf
  have hswapped : Swapped (slice bytes f.offset f.width).length := by rwa [hlength]
  have hle := byteSwap_leValue hswapped
  have hbe := byteSwap_beValue hswapped
  rw [hlength] at hle hbe
  unfold Field.get byteSwapIfNeeded
  by_cases hsame : host = order
  · rw [if_pos hsame, hsame]
  · rw [if_neg hsame]
    cases host <;> cases order
    · exact absurd rfl hsame
    · exact hle
    · exact hbe
    · exact absurd rfl hsame

/-- `Read` of a structure: a copy of its bytes. -/
def readStructure (span : ByteSpan) (size offset : Nat) (field : String) : Outcome (List UInt8) :=
  if rangeFits offset size span.size then .ok (slice span.bytes offset size)
  else throwMalformed span.format (pastTheEnd field offset span.scope span.size)

/-- A number of `width` bytes as a signed one. -/
def signed (width value : Nat) : Int :=
  if value < 2 ^ (8 * width - 1) then (value : Int) else (value : Int) - 2 ^ (8 * width)

/-- The bytes of a field of a structure hold the number. -/
def Holds (bytes : List UInt8) (order : ByteOrder) (base : Nat) (f : Field) (v : Nat) : Prop :=
  v < 256 ^ f.width ∧ slice bytes (base + f.offset) f.width = order.bytes f.width v

instance {bytes : List UInt8} {order : ByteOrder} {base : Nat} {f : Field} {v : Nat} :
    Decidable (Holds bytes order base f v) :=
  inferInstanceAs (Decidable (_ ∧ _))

section fields

variable {bytes : List UInt8} {order : ByteOrder} {base size v : Nat} {f : Field}

/-- A field that the host can swap, inside its structure. -/
def Fits (f : Field) (size : Nat) : Prop := Swapped f.width ∧ f.offset + f.width ≤ size

instance decidableFits (f : Field) (size : Nat) : Decidable (Fits f size) :=
  inferInstanceAs (Decidable ((f.width = 2 ∨ f.width = 4 ∨ f.width = 8) ∧ f.offset + f.width ≤ size))

/-- A number below the sign bit is itself as a signed one, and no other is. -/
theorem signed_eq_iff {width v c : Nat} (hw : Swapped width) (hv : v < 256 ^ width) (hc : c < 128) :
    signed width v = (c : Int) ↔ v = c := by
  rcases hw with rfl | rfl | rfl <;>
  · simp only [signed] at *
    norm_num at *
    split <;> omega

/-- The field of a copied structure is the number that the file holds. -/
theorem Holds.get (h : Holds bytes order base f v) (host : ByteOrder) (hf : Fits f size)
    (hbase : base + size ≤ bytes.length) :
    f.get host order (slice bytes base size) = v := by
  have hlength : (slice bytes base size).length = size := length_slice_of_le hbase
  have hinside : f.offset + f.width ≤ (slice bytes base size).length := by rw [hlength]; exact hf.2
  rw [Field.get_eq hf.1 hinside, slice_slice hf.2, h.2]
  exact order.value_bytes h.1

theorem readStructure_ok {span : ByteSpan} {size offset : Nat} (h : offset + size ≤ span.bytes.length) (field : String) :
    readStructure span size offset field = .ok (slice span.bytes offset size) := by
  rw [readStructure, if_pos]
  exact rangeFits_iff.mpr h

theorem readStructure_eq_ok {span : ByteSpan} {size offset : Nat} {field : String} {structureBytes : List UInt8}
    (h : readStructure span size offset field = .ok structureBytes) : offset + size ≤ span.size := by
  unfold readStructure at h
  split at h
  · next hfits => exact rangeFits_iff.mp hfits
  · cases h

/-- A view holds the number too, at its place in the view. -/
theorem Holds.view {inner : Nat} (h : Holds bytes order (base + inner) f v) (hf : inner + f.offset + f.width ≤ size) :
    Holds (slice bytes base size) order inner f v := by
  refine ⟨h.1, ?_⟩
  rw [slice_slice hf, ← Nat.add_assoc]
  exact h.2

/-- A number of a view is the number that the bytes hold. -/
theorem Holds.read (h : Holds bytes order base f v) (hbase : base + f.offset + f.width ≤ bytes.length)
    (format scope field : String) :
    ByteSpan.read ⟨bytes, format, scope⟩ f.width (base + f.offset) order field = .ok v := by
  rw [ByteSpan.read_eq_ok, h.2]
  exact ⟨hbase, order.value_bytes h.1⟩

end fields

end TheSeed.ByteSwap
