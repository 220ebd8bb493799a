import Mathlib.Data.List.GetD
import TheSeed.PicoSha2

namespace TheSeed.PicoSha2Exact

open Bytes PicoSha2
open Sha256 (Eight Word absorb compress blockWords nextWord extend pad)

/-! The hasher is SHA-256, however its message is cut into pieces: of its words of 64 bits only the lower 32 are ever
set where a shift to the right could bring others in. -/

variable {h : Eight Word} {x y z : Word} {u v : WordT} {n : Nat} {digits : List WordT} {block buffer message piece : List UInt8}
  {s : Hasher}

/-! Words -/

/-- The 32 bits that are meant. -/
def low (u : WordT) : Word := u.setWidth 32

def wide (x : Word) : WordT := x.setWidth 64

theorem low_wide : low (wide x) = x := by
  rw [low, wide, BitVec.setWidth_setWidth_of_le _ (by decide), BitVec.setWidth_eq]

theorem toNat_wide : (wide x).toNat = x.toNat := by
  have hx := x.isLt
  rw [wide, BitVec.toNat_setWidth, Nat.mod_eq_of_lt (by omega)]

theorem mask_eq : mask32bit u = wide (low u) := by
  apply BitVec.eq_of_toNat_eq
  have hmask := Nat.and_two_pow_sub_one_eq_mod u.toNat 32
  rw [toNat_wide, low, BitVec.toNat_setWidth, mask32bit, BitVec.toNat_and]
  exact hmask

theorem low_add : low (u + v) = low u + low v := BitVec.setWidth_add u v (by decide)

theorem wide_xor : wide x ^^^ wide y = wide (x ^^^ y) := BitVec.setWidth_xor.symm

theorem rotr_wide (hpos : 0 < n) (hn : n < 32) : rotr (wide x) n = wide (x.rotateRight n) := by
  rw [rotr, mask_eq]
  congr 1
  apply BitVec.eq_of_getLsbD_eq
  intro i hi
  rw [BitVec.getLsbD_rotateRight]
  simp only [low, wide, BitVec.getLsbD_setWidth, BitVec.getLsbD_or, BitVec.getLsbD_ushiftRight, BitVec.getLsbD_shiftLeft,
    Nat.mod_eq_of_lt hn]
  by_cases hlt : i < 32 - n
  · simp [hi, hlt, show n + i < 64 by omega]
  · have hout := BitVec.getLsbD_of_ge x (n + i) (by omega)
    simp [hi, hlt, hout, show i < 64 by omega, show i - (32 - n) < 64 by omega]

theorem shr_wide (n : Nat) : shr (wide x) n = wide (x >>> n) := by
  apply BitVec.eq_of_toNat_eq
  rw [shr, BitVec.toNat_ushiftRight, toNat_wide, toNat_wide, BitVec.toNat_ushiftRight]

theorem bsig0_wide : bsig0 (wide x) = wide (Sha256.bigSigma0 x) := by
  rw [bsig0, rotr_wide (by decide) (by decide), rotr_wide (by decide) (by decide), rotr_wide (by decide) (by decide), wide_xor,
    wide_xor, Sha256.bigSigma0]

theorem bsig1_wide : bsig1 (wide x) = wide (Sha256.bigSigma1 x) := by
  rw [bsig1, rotr_wide (by decide) (by decide), rotr_wide (by decide) (by decide), rotr_wide (by decide) (by decide), wide_xor,
    wide_xor, Sha256.bigSigma1]

theorem ssig0_wide : ssig0 (wide x) = wide (Sha256.smallSigma0 x) := by
  rw [ssig0, rotr_wide (by decide) (by decide), rotr_wide (by decide) (by decide), shr_wide, wide_xor, wide_xor,
    Sha256.smallSigma0]

theorem ssig1_wide : ssig1 (wide x) = wide (Sha256.smallSigma1 x) := by
  rw [ssig1, rotr_wide (by decide) (by decide), rotr_wide (by decide) (by decide), shr_wide, wide_xor, wide_xor,
    Sha256.smallSigma1]

/-- The complement sets the upper bits, and the word that it is put together with clears them again. -/
theorem low_ch : low (ch (wide x) (wide y) (wide z)) = Sha256.ch x y z := by
  have hnot : low (~~~wide x) = ~~~x := by
    have hlow := @low_wide x
    rw [low] at hlow ⊢
    rw [BitVec.setWidth_not (by decide), hlow]
  have hx := @low_wide x
  have hy := @low_wide y
  have hz := @low_wide z
  rw [low] at hx hy hz hnot
  rw [low, ch, BitVec.setWidth_xor, BitVec.setWidth_and, BitVec.setWidth_and, hx, hy, hz, hnot, Sha256.ch]

theorem low_maj : low (maj (wide x) (wide y) (wide z)) = Sha256.maj x y z := by
  have hx := @low_wide x
  have hy := @low_wide y
  have hz := @low_wide z
  rw [low] at hx hy hz
  rw [low, maj, BitVec.setWidth_xor, BitVec.setWidth_xor, BitVec.setWidth_and, BitVec.setWidth_and, BitVec.setWidth_and, hx, hy,
    hz, Sha256.maj]

/-! One block -/

theorem addConstant_eq : addConstant = Sha256.constants.map wide := by decide +kernel

theorem initialMessageDigest_eq : initialMessageDigest = Sha256.initial.map wide := by decide +kernel

theorem byteAt_toNat (i : Nat) : (byteAt block i).toNat = (block.getD i 0).toNat := by
  have hbyte := (block.getD i 0).toNat_lt
  rw [byteAt, BitVec.toNat_ofNat, Nat.mod_eq_of_lt (by omega)]

/-- Four bytes are put together to a number. -/
theorem wordAt_toNat (i : Nat) : (wordAt block i).toNat =
    ((((block.getD (i * 4) 0).toNat * 256 + (block.getD (i * 4 + 1) 0).toNat) * 256 + (block.getD (i * 4 + 2) 0).toNat) * 256 +
      (block.getD (i * 4 + 3) 0).toNat) := by
  have h0 := (block.getD (i * 4) 0).toNat_lt
  have h1 := (block.getD (i * 4 + 1) 0).toNat_lt
  have h2 := (block.getD (i * 4 + 2) 0).toNat_lt
  have h3 := (block.getD (i * 4 + 3) 0).toNat_lt
  have hshift : ∀ (j k : Nat), k ≤ 24 → (byteAt block j <<< k).toNat = (block.getD j 0).toNat <<< k := by
    intro j k hk
    have hj := (block.getD j 0).toNat_lt
    have hpow : 2 ^ k ≤ 2 ^ 24 := Nat.pow_le_pow_right (by decide) hk
    have hbound : (block.getD j 0).toNat * 2 ^ k ≤ 255 * 2 ^ 24 := Nat.mul_le_mul (by omega) hpow
    rw [BitVec.toNat_shiftLeft, byteAt_toNat, Nat.shiftLeft_eq, Nat.mod_eq_of_lt (by omega)]
  have hor : ∀ a b k : Nat, b < 2 ^ k → (a <<< k) ||| b = a * 2 ^ k + b := by
    intro a b k hb
    rw [← Nat.shiftLeft_add_eq_or_of_lt hb, Nat.shiftLeft_eq]
  rw [wordAt, BitVec.toNat_or, BitVec.toNat_or, BitVec.toNat_or, hshift _ 24 (by decide), hshift _ 16 (by decide),
    hshift _ 8 (by decide), byteAt_toNat, Nat.or_assoc, Nat.or_assoc, hor _ _ 8 (by omega),
    hor _ _ 16 (by rw [Nat.pow_succ]; omega), hor _ _ 24 (by omega)]
  omega

theorem beValue_four (b0 b1 b2 b3 : UInt8) :
    beValue [b0, b1, b2, b3] = ((b0.toNat * 256 + b1.toNat) * 256 + b2.toNat) * 256 + b3.toNat := by
  simp only [beValue, List.reverse_cons, List.reverse_nil, List.nil_append, List.cons_append, leValue]
  omega

theorem wordAt_eq (hblock : block.length = 64) {i : Nat} (hi : i < 16) :
    wordAt block i = wide (BitVec.ofNat 32 (beValue (slice block (4 * i) 4))) := by
  have hslice : slice block (4 * i) 4 =
      [block.getD (i * 4) 0, block.getD (i * 4 + 1) 0, block.getD (i * 4 + 2) 0, block.getD (i * 4 + 3) 0] := by
    apply List.ext_getElem?
    intro k
    rw [getElem?_slice, Nat.mul_comm 4]
    rcases k with _ | _ | _ | _ | k
    · rw [if_pos (by decide), Nat.add_zero, List.getElem?_cons_zero, List.getD_eq_getElem _ _ (by omega),
        List.getElem?_eq_getElem (by omega)]
    · rw [if_pos (by decide), List.getElem?_cons_succ, List.getElem?_cons_zero, List.getD_eq_getElem _ _ (by omega),
        List.getElem?_eq_getElem (by omega)]
    · rw [if_pos (by decide), List.getElem?_cons_succ, List.getElem?_cons_succ, List.getElem?_cons_zero,
        List.getD_eq_getElem _ _ (by omega), List.getElem?_eq_getElem (by omega)]
    · rw [if_pos (by decide), List.getElem?_cons_succ, List.getElem?_cons_succ, List.getElem?_cons_succ, List.getElem?_cons_zero,
        List.getD_eq_getElem _ _ (by omega), List.getElem?_eq_getElem (by omega)]
    · rw [if_neg (by omega), List.getElem?_eq_none (by simp)]
  have h0 := (block.getD (i * 4) 0).toNat_lt
  have h1 := (block.getD (i * 4 + 1) 0).toNat_lt
  have h2 := (block.getD (i * 4 + 2) 0).toNat_lt
  have h3 := (block.getD (i * 4 + 3) 0).toNat_lt
  apply BitVec.eq_of_toNat_eq
  rw [toNat_wide, wordAt_toNat, hslice, beValue_four, BitVec.toNat_ofNat, Nat.mod_eq_of_lt (by omega)]

theorem getD_map_wide (w : List Word) (i : Nat) : (w.map wide).getD i 0 = wide (w.getD i 0) := by
  rw [List.getD_eq_getElem?_getD, List.getD_eq_getElem?_getD, List.getElem?_map]
  cases w[i]? <;> rfl

theorem scheduleLoop_wide (turns : Nat) (w : List Word) : scheduleLoop turns (w.map wide) = (extend turns w).map wide := by
  induction turns generalizing w with
  | zero => rfl
  | succ turns ih =>
      rw [scheduleLoop, extend, ← ih, List.map_append, List.map_singleton, nextWord]
      simp only [List.length_map, getD_map_wide, ssig1_wide, ssig0_wide, mask_eq, low_add, low_wide]

theorem roundStep_wide (t : Eight Word) (key : Word × Word) :
    roundStep (t.map wide) (wide key.1, wide key.2) = (Sha256.round t key).map wide := by
  simp only [roundStep, Sha256.round, Eight.map, bsig1_wide, bsig0_wide, mask_eq, low_add, low_wide, low_ch, low_maj]

theorem rounds_wide (keys : List (Word × Word)) (t : Eight Word) :
    (keys.map fun key => (wide key.1, wide key.2)).foldl roundStep (t.map wide) = (keys.foldl Sha256.round t).map wide := by
  induction keys generalizing t with
  | nil => rfl
  | cons key rest ih => rw [List.map_cons, List.foldl_cons, List.foldl_cons, roundStep_wide, ih]

theorem hash256Block_wide (hblock : block.length = 64) : hash256Block (h.map wide) block = (compress h block).map wide := by
  have hwords : (List.range 16).map (wordAt block) = (blockWords block).map wide := by
    rw [blockWords, List.map_map]
    apply List.map_congr_left
    intro i hi
    exact wordAt_eq hblock (List.mem_range.1 hi)
  have hkeys : ∀ w : List Word, addConstant.zip (w.map wide) =
      (Sha256.constants.zip w).map fun key => (wide key.1, wide key.2) := by
    intro w
    rw [addConstant_eq, List.zip_map]
    rfl
  rw [hash256Block, hwords, scheduleLoop_wide, hkeys, rounds_wide, compress]
  simp only [Eight.map, Eight.zipWith, mask_eq, low_add, low_wide]

/-! The length -/

/-- The number that digits of 16 bits stand for, the lowest first. -/
def valueOf : List WordT → Nat
  | [] => 0
  | digit :: rest => digit.toNat + 65536 * valueOf rest

theorem valueOf_lt (h : ∀ digit ∈ digits, digit.toNat < 65536) : valueOf digits < 65536 ^ digits.length := by
  induction digits with
  | nil => exact Nat.one_pos
  | cons digit rest ih =>
      obtain ⟨hdigit, hrest⟩ := List.forall_mem_cons.1 h
      have hlt := ih hrest
      rw [valueOf, List.length_cons, Nat.pow_succ]
      omega

theorem low16 (u : WordT) : (u &&& 65535).toNat = u.toNat % 65536 := by
  have hmask := Nat.and_two_pow_sub_one_eq_mod u.toNat 16
  rw [BitVec.toNat_and]
  exact hmask

/-- The digits of a number of bytes. -/
structure Counts (digits : List WordT) (n : Nat) : Prop where
  count : digits.length = 4
  small : ∀ digit ∈ digits, digit.toNat < 65536
  value : valueOf digits = n % 2 ^ 64

/-- A carry goes as far as it has to. -/
theorem carryLoop_spec {digit carry : WordT} {rest : List WordT} (hsmall : ∀ other ∈ rest, other.toNat < 65536)
    (hfirst : digit.toNat + carry.toNat < 2 ^ 64) : (carryLoop (digit :: rest) carry).length = rest.length + 1 ∧
      (∀ other ∈ carryLoop (digit :: rest) carry, other.toNat < 65536) ∧
      valueOf (carryLoop (digit :: rest) carry) = (valueOf (digit :: rest) + carry.toNat) % 65536 ^ (rest.length + 1) := by
  have hsum : (digit + carry).toNat = digit.toNat + carry.toNat := by
    rw [BitVec.toNat_add, Nat.mod_eq_of_lt hfirst]
  induction rest generalizing digit carry with
  | nil =>
      rw [carryLoop]
      by_cases hbig : 65536 ≤ (digit + carry).toNat
      · rw [if_pos hbig, carryLoop]
        refine ⟨rfl, ?_, ?_⟩
        · rw [List.forall_mem_singleton, low16]
          exact Nat.mod_lt _ (by decide)
        · simp only [valueOf, low16, hsum, List.length_nil, Nat.zero_add, Nat.pow_one, Nat.mul_zero, Nat.add_zero]
      · rw [if_neg hbig]
        refine ⟨rfl, ?_, ?_⟩
        · rw [List.forall_mem_singleton]
          omega
        · simp only [valueOf, hsum, List.length_nil, Nat.zero_add, Nat.pow_one, Nat.mul_zero, Nat.add_zero]
          omega
  | cons next rest ih =>
      obtain ⟨hnext, hrest⟩ := List.forall_mem_cons.1 hsmall
      have hvalue := valueOf_lt hsmall
      have hcons : valueOf (digit :: next :: rest) = digit.toNat + 65536 * valueOf (next :: rest) := rfl
      rw [List.length_cons] at hvalue
      rw [carryLoop]
      by_cases hbig : 65536 ≤ (digit + carry).toNat
      · have hcarry : ((digit + carry) >>> 16).toNat = (digit.toNat + carry.toNat) / 65536 := by
          rw [BitVec.toNat_ushiftRight, hsum, Nat.shiftRight_eq_div_pow]
        have hsum' : (next + (digit + carry) >>> 16).toNat = next.toNat + ((digit + carry) >>> 16).toNat := by
          rw [BitVec.toNat_add, Nat.mod_eq_of_lt (by omega)]
        obtain ⟨hlength, hdigits, hspec⟩ := ih hrest (by omega) hsum'
        rw [if_pos hbig]
        refine ⟨by rw [List.length_cons, hlength, List.length_cons], ?_, ?_⟩
        · rw [List.forall_mem_cons, low16]
          exact ⟨Nat.mod_lt _ (by decide), hdigits⟩
        · have hmod : ∀ v, v % 65536 ^ (rest.length + 1 + 1) = v % 65536 + 65536 * (v / 65536 % 65536 ^ (rest.length + 1)) := by
            intro v
            rw [Nat.pow_succ', Nat.mod_mul]
          rw [valueOf, low16, hspec, hsum, hcarry, hcons, List.length_cons, hmod]
          congr 1
          · omega
          · congr 2
            omega
      · rw [if_neg hbig]
        refine ⟨rfl, ?_, ?_⟩
        · rw [List.forall_mem_cons]
          exact ⟨by omega, hsmall⟩
        · rw [valueOf, hsum, hcons, List.length_cons, Nat.mod_eq_of_lt]
          · omega
          · rw [Nat.pow_succ']
            omega

theorem Counts.add {n m : Nat} (h : Counts digits n) (hm : m < 2 ^ 64 - 65536) :
    Counts (addToDataLength digits (BitVec.ofNat 64 m)) (n + m) := by
  have hcount := h.count
  cases digits with
  | nil => cases hcount
  | cons digit rest =>
      obtain ⟨hdigit, hrest⟩ := List.forall_mem_cons.1 h.small
      have hn : (BitVec.ofNat 64 m).toNat = m := by
        rw [BitVec.toNat_ofNat, Nat.mod_eq_of_lt (by omega)]
      have hsum : (digit + BitVec.ofNat 64 m).toNat = digit.toNat + m := by
        rw [BitVec.toNat_add, hn, Nat.mod_eq_of_lt (by omega)]
      have hzero : (0 : WordT).toNat = 0 := rfl
      obtain ⟨hlength, hsmall, hvalue⟩ := @carryLoop_spec (digit + BitVec.ofNat 64 m) 0 rest hrest (by omega)
      rw [List.length_cons] at hcount
      have hwhole := h.value
      rw [valueOf] at hwhole
      refine ⟨hlength.trans hcount, hsmall, ?_⟩
      rw [addToDataLength, hvalue, hcount, valueOf, hsum, hzero]
      omega

theorem shiftLoop_spec {carry : WordT} (hsmall : ∀ digit ∈ digits, digit.toNat < 65536) (hcarry : carry.toNat < 8) :
    (shiftLoop digits carry).length = digits.length ∧ (∀ digit ∈ shiftLoop digits carry, digit.toNat < 65536) ∧
      valueOf (shiftLoop digits carry) = (8 * valueOf digits + carry.toNat) % 65536 ^ digits.length := by
  induction digits generalizing carry with
  | nil => exact ⟨rfl, fun _ h => absurd h List.not_mem_nil, (Nat.mod_one _).symm⟩
  | cons digit rest ih =>
      obtain ⟨hdigit, hrest⟩ := List.forall_mem_cons.1 hsmall
      have hshift : ((digit <<< 3) ||| carry).toNat = digit.toNat * 8 + carry.toNat := by
        have hplace : (digit <<< 3).toNat = digit.toNat <<< 3 := by
          rw [BitVec.toNat_shiftLeft, Nat.shiftLeft_eq, Nat.mod_eq_of_lt (by omega)]
        rw [BitVec.toNat_or, hplace, ← Nat.shiftLeft_add_eq_or_of_lt hcarry, Nat.shiftLeft_eq]
      have hnext : ((digit >>> (16 - 3)) &&& 65535).toNat = digit.toNat / 8192 := by
        rw [low16, BitVec.toNat_ushiftRight, Nat.shiftRight_eq_div_pow]
        omega
      obtain ⟨hlength, hdigits, hspec⟩ := @ih ((digit >>> (16 - 3)) &&& 65535) hrest (by omega)
      rw [shiftLoop]
      refine ⟨by rw [List.length_cons, hlength, List.length_cons], ?_, ?_⟩
      · rw [List.forall_mem_cons, low16]
        exact ⟨Nat.mod_lt _ (by decide), hdigits⟩
      · rw [valueOf, low16, hspec, hshift, hnext, valueOf, List.length_cons, Nat.pow_succ', Nat.mod_mul]
        congr 1
        · omega
        · congr 2
          omega

theorem ofNat_mod (n : Nat) : UInt8.ofNat (n % 256) = UInt8.ofNat n := by
  apply UInt8.toNat_inj.1
  simp

/-- The digits as bytes, the highest first. -/
theorem digitBytes (h : ∀ digit ∈ digits, digit.toNat < 65536) :
    (digits.reverse.flatMap fun (digit : WordT) => [byteOf (digit >>> 8), byteOf digit]) =
      beBytes (2 * digits.length) (valueOf digits) := by
  induction digits with
  | nil => rfl
  | cons digit rest ih =>
      obtain ⟨hdigit, hrest⟩ := List.forall_mem_cons.1 h
      have hhigh : byteOf (digit >>> 8) = UInt8.ofNat (valueOf (digit :: rest) / 256) := by
        rw [byteOf, BitVec.toNat_ushiftRight, Nat.shiftRight_eq_div_pow, valueOf, ← ofNat_mod (digit.toNat / 2 ^ 8),
          ← ofNat_mod ((digit.toNat + _) / 256)]
        congr 1
        omega
      have hlow : byteOf digit = UInt8.ofNat (valueOf (digit :: rest)) := by
        rw [byteOf, valueOf, ← ofNat_mod digit.toNat, ← ofNat_mod (digit.toNat + _)]
        congr 1
        omega
      have hrest' : valueOf (digit :: rest) / 256 / 256 = valueOf rest := by
        rw [valueOf]
        omega
      rw [List.reverse_cons, List.flatMap_append, ih hrest, List.flatMap_singleton, hhigh, hlow, List.length_cons,
        Nat.mul_succ, beBytes, beBytes, leBytes, leBytes, hrest', List.reverse_cons, List.reverse_cons, List.append_assoc]
      rfl

theorem beBytes_mod (w n : Nat) : beBytes w (n % 256 ^ w) = beBytes w n := by
  have hsame : leBytes w (n % 256 ^ w) = leBytes w n := by
    have hback := leBytes_leValue (leBytes w n)
    rwa [length_leBytes, leValue_leBytes] at hback
  rw [beBytes, beBytes, hsame]

theorem writeDataBitLength_eq {n : Nat} (h : Counts digits n) : writeDataBitLength digits = beBytes 8 (8 * n) := by
  obtain ⟨hlength, hsmall, hvalue⟩ := @shiftLoop_spec digits 0 h.small (by decide)
  have hzero : (0 : WordT).toNat = 0 := rfl
  rw [writeDataBitLength, digitBytes hsmall, hlength, h.count, hvalue, h.count, h.value, hzero, ← beBytes_mod 8 (8 * n)]
  congr 1
  omega

/-! The message -/

theorem blockLoop_eq {bound : Nat} (hbound : buffer.length ≤ bound) : blockLoop bound (h.map wide) buffer =
    ((absorb h (buffer.length / 64) buffer).map wide, buffer.drop (64 * (buffer.length / 64))) := by
  induction bound generalizing h buffer with
  | zero =>
      have hnone : buffer.length = 0 := by omega
      rw [blockLoop, hnone, Nat.zero_div, absorb, Nat.mul_zero, List.drop_zero]
  | succ bound ih =>
      rw [blockLoop]
      by_cases hblock : 64 ≤ buffer.length
      · have hcount : buffer.length / 64 = (buffer.drop 64).length / 64 + 1 := by
          rw [List.length_drop]
          omega
        rw [if_pos hblock, hash256Block_wide (by rw [List.length_take]; omega), ih (by rw [List.length_drop]; omega), hcount, absorb,
          List.drop_drop]
        congr 2
        omega
      · have hnone : buffer.length / 64 = 0 := by omega
        rw [if_neg hblock, hnone, absorb, Nat.mul_zero, List.drop_zero]

/-- The hasher after the pieces of a message. -/
structure Given (s : Hasher) (message : List UInt8) : Prop where
  h : s.h = (absorb Sha256.initial (message.length / 64) message).map wide
  buffer : s.buffer = message.drop (64 * (message.length / 64))
  digits : Counts s.dataLengthDigits message.length

theorem given_init : Given init [] := by
  refine ⟨?_, rfl, rfl, ?_, rfl⟩
  · rw [List.length_nil, Nat.zero_div, absorb]
    exact initialMessageDigest_eq
  · intro digit hdigit
    have hzero : digit = 0 := by
      simp only [init, List.mem_cons, List.not_mem_nil, or_false, or_self] at hdigit
      exact hdigit
    rw [hzero]
    decide

/-- One more piece. -/
theorem Given.process (hs : Given s message) (hpiece : piece.length < 2 ^ 64 - 65536) :
    Given (process s piece) (message ++ piece) := by
  have hlength : (message.drop (64 * (message.length / 64)) ++ piece).length =
      message.length % 64 + piece.length := by
    rw [List.length_append, List.length_drop]
    omega
  have hrest : message.drop (64 * (message.length / 64)) ++ piece = (message ++ piece).drop (64 * (message.length / 64)) := by
    rw [List.drop_append_of_le_length (by omega)]
  have hcount : (message ++ piece).length / 64 = message.length / 64 + (message.length % 64 + piece.length) / 64 := by
    rw [List.length_append]
    omega
  have hblocks := @blockLoop_eq (absorb Sha256.initial (message.length / 64) message)
    (message.drop (64 * (message.length / 64)) ++ piece) _ (Nat.le_refl _)
  refine ⟨?_, ?_, ?_⟩
  · rw [PicoSha2.process, hs.h, hs.buffer, hblocks, hlength, hcount, Sha256.absorb_add,
      @Sha256.absorb_append _ message piece _ (by omega), hrest]
  · rw [PicoSha2.process, hs.h, hs.buffer, hblocks, hlength, hcount, hrest, List.drop_drop, Nat.mul_add]
  · rw [List.length_append]
    exact hs.digits.add hpiece

theorem given_pieces {pieces : List (List UInt8)} (hs : Given s message) (hall : ∀ piece ∈ pieces, piece.length < 2 ^ 64 - 65536) :
    Given (pieces.foldl PicoSha2.process s) (message ++ pieces.flatten) := by
  induction pieces generalizing s message with
  | nil =>
      rw [List.flatten_nil, List.append_nil]
      exact hs
  | cons piece rest ih =>
      obtain ⟨hpiece, hrest⟩ := List.forall_mem_cons.1 hall
      rw [List.foldl_cons, List.flatten_cons, ← List.append_assoc]
      exact ih (hs.process hpiece) hrest

/-! The end -/

/-- What is left of a message, and a one bit behind it. -/
theorem marked {rest : List UInt8} (hrest : rest.length < 64) :
    overwrite (overwrite (List.replicate 64 0) 0 rest) rest.length [0x80] =
      rest ++ 0x80 :: List.replicate (63 - rest.length) 0 := by
  obtain ⟨gap, hgap⟩ := Nat.exists_eq_add_of_lt hrest
  have hstart : overwrite (List.replicate 64 0) 0 rest = rest ++ List.replicate (64 - rest.length) 0 := by
    rw [overwrite_start (by rw [List.length_replicate]; omega), List.drop_replicate]
  rw [hstart, show rest.length = rest.length + 0 from rfl, overwrite_append_right, Nat.add_zero, show 64 - rest.length =
    63 - rest.length + 1 by omega, List.replicate_succ, overwrite_start (by simp)]
  rfl

/-- Zeros over zeros. -/
theorem cleared {front : List UInt8} {count zeros : Nat} (h : count ≤ zeros) :
    overwrite (front ++ List.replicate zeros 0) front.length (List.replicate count 0) = front ++ List.replicate zeros 0 := by
  have hwrite := overwrite_append_right front (List.replicate zeros 0) (List.replicate count 0) 0
  rw [Nat.add_zero] at hwrite
  rw [hwrite, overwrite_start (by rw [List.length_replicate, List.length_replicate]; exact h), List.length_replicate,
    List.drop_replicate, List.replicate_append_replicate, Nat.add_sub_cancel' h]

theorem last_eight {front back bits : List UInt8} (hfront : front.length = 56) (hback : back.length = 8)
    (hbits : bits.length = 8) : overwrite (front ++ back) 56 bits = front ++ bits := by
  have hwrite := overwrite_append_right front back bits 0
  rw [hfront, Nat.add_zero] at hwrite
  rw [hwrite, overwrite_start (by omega), hbits, ← hback, List.drop_length, List.append_nil]

/-- The last block, or the last two, end the padded message. -/
theorem finish_h (hs : Given s message) : (finish s).h =
    (absorb Sha256.initial ((pad message).length / 64) (pad message)).map wide := by
  obtain ⟨rest, hrest⟩ : ∃ rest, rest = message.drop (64 * (message.length / 64)) := ⟨_, rfl⟩
  obtain ⟨bits, hbits⟩ : ∃ bits, bits = beBytes 8 (8 * message.length) := ⟨_, rfl⟩
  have hlength : rest.length = message.length % 64 := by
    rw [hrest, List.length_drop]
    omega
  have height : bits.length = 8 := by rw [hbits, length_beBytes]
  have hlt : message.length % 64 < 64 := Nat.mod_lt _ (by decide)
  -- what stands behind the whole blocks of the message
  have htail : (pad message).drop (64 * (message.length / 64)) =
      rest ++ (0x80 :: List.replicate ((119 - message.length % 64) % 64) 0) ++ bits := by
    rw [pad, List.append_assoc, List.append_assoc, List.drop_append_of_le_length (by omega), hrest, hbits]
  have hfirst : absorb Sha256.initial (message.length / 64) (pad message) =
      absorb Sha256.initial (message.length / 64) message := by
    rw [pad, List.append_assoc, Sha256.absorb_append (by omega)]
  have hone : ∀ digest block, absorb digest 1 block = compress digest (block.take 64) := fun _ _ => rfl
  have hsmall : ¬64 ≤ rest.length := by omega
  rw [finish, hs.buffer, writeDataBitLength_eq hs.digits, ← hrest, ← hbits, if_neg hsmall, marked (by omega), hs.h]
  rw [Sha256.length_pad, Nat.mul_div_cancel_left _ (by decide)]
  dsimp only
  by_cases hlong : 55 < rest.length
  · have hzeros : (119 - message.length % 64) % 64 = 63 - rest.length + 56 := by omega
    have hblocks : (message.length + 8) / 64 + 1 = message.length / 64 + (1 + 1) := by omega
    have hmark : (rest ++ [0x80]).length = rest.length + 1 := by rw [List.length_append, List.length_singleton]
    have hblock : (rest ++ 0x80 :: List.replicate (63 - rest.length) (0 : UInt8)).length = 64 := by
      rw [List.length_append, List.length_cons, List.length_replicate]
      omega
    have hclear : overwrite (rest ++ 0x80 :: List.replicate (63 - rest.length) 0) (rest.length + 1)
        (List.replicate (64 - (rest.length + 1)) 0) = rest ++ 0x80 :: List.replicate (63 - rest.length) 0 := by
      rw [List.append_cons, ← hmark, cleared (by omega)]
    have hlast : overwrite (overwrite (rest ++ 0x80 :: List.replicate (63 - rest.length) 0) 0 (List.replicate (64 - 4) 0)) 56 bits =
        List.replicate 56 0 ++ bits := by
      rw [overwrite_start (by rw [List.length_replicate, hblock]; decide), List.length_replicate,
        show List.replicate (64 - 4) (0 : UInt8) = List.replicate 56 0 ++ List.replicate 4 0 from rfl, List.append_assoc,
        last_eight List.length_replicate (by rw [List.length_append, List.length_replicate, List.length_drop, hblock]) height]
    rw [if_pos hlong, hclear, hlast, hash256Block_wide hblock,
      hash256Block_wide (by rw [List.length_append, List.length_replicate, height])]
    dsimp only
    have hsplit : rest ++ (0x80 :: List.replicate (63 - rest.length + 56) 0) ++ bits =
        (rest ++ 0x80 :: List.replicate (63 - rest.length) 0) ++ (List.replicate 56 0 ++ bits) := by
      rw [← List.replicate_append_replicate]
      simp only [List.append_assoc, List.cons_append]
    rw [hblocks, Sha256.absorb_add, hfirst, htail, hzeros, hsplit, Sha256.absorb_add, hone, hone, ← hblock, List.take_left',
      List.drop_left']
    · rw [List.take_of_length_le]
      rw [List.length_append, List.length_replicate, height, hblock]
    · rw [hblock]
    · rfl
  · have hzeros : (119 - message.length % 64) % 64 = 55 - rest.length := by omega
    have hblocks : (message.length + 8) / 64 + 1 = message.length / 64 + 1 := by omega
    have hmark : (rest ++ [0x80]).length = rest.length + 1 := by rw [List.length_append, List.length_singleton]
    have hclear : overwrite (rest ++ 0x80 :: List.replicate (63 - rest.length) 0) (rest.length + 1)
        (List.replicate (64 - 4 - (rest.length + 1)) 0) = rest ++ 0x80 :: List.replicate (63 - rest.length) 0 := by
      rw [List.append_cons, ← hmark, cleared (by omega)]
    have hfront : (rest ++ 0x80 :: List.replicate (55 - rest.length) (0 : UInt8)).length = 56 := by
      rw [List.length_append, List.length_cons, List.length_replicate]
      omega
    have hlast : overwrite (rest ++ 0x80 :: List.replicate (63 - rest.length) 0) 56 bits =
        (rest ++ 0x80 :: List.replicate (55 - rest.length) 0) ++ bits := by
      rw [show 63 - rest.length = 55 - rest.length + 8 by omega, ← List.replicate_append_replicate, ← List.cons_append,
        ← List.append_assoc, last_eight hfront List.length_replicate height]
    have hblock : ((rest ++ 0x80 :: List.replicate (55 - rest.length) 0) ++ bits).length = 64 := by
      rw [List.length_append, hfront, height]
    rw [if_neg hlong, hclear, hlast, hash256Block_wide hblock]
    dsimp only
    rw [hblocks, Sha256.absorb_add, hfirst, htail, hzeros, hone, List.take_of_length_le hblock.le]

theorem word_bytes (x : Word) : ((List.range 4).map fun i => byteOf (wide x >>> (24 - 8 * i))) = beBytes 4 x.toNat := by
  have hbyte : ∀ i, byteOf (wide x >>> i) = UInt8.ofNat (x.toNat / 2 ^ i) := by
    intro i
    rw [byteOf, BitVec.toNat_ushiftRight, Nat.shiftRight_eq_div_pow, toNat_wide]
  have hfour : List.range 4 = [0, 1, 2, 3] := rfl
  simp only [hbyte, hfour, List.map_cons, List.map_nil, beBytes, leBytes, List.reverse_cons, List.reverse_nil, List.nil_append,
    List.cons_append, Nat.div_div_eq_div_mul, Nat.mul_zero, Nat.sub_self, Nat.pow_zero, Nat.div_one]
  rfl

/-- The hasher gives the SHA-256 of its pieces, one behind the other. -/
theorem hashPieces_eq {pieces : List (List UInt8)} (hall : ∀ piece ∈ pieces, piece.length < 2 ^ 64 - 65536) :
    hashPieces pieces = Sha256.sha256 pieces.flatten := by
  have hgiven := given_pieces given_init hall
  rw [List.nil_append] at hgiven
  rw [hashPieces, getHashBytes, finish_h hgiven, Eight.toList_map, List.flatMap_map, Sha256.sha256]
  simp only [word_bytes]

/-- Three blocks, the last of padding alone, from pieces that end inside blocks. -/
theorem hashPieces_three_blocks : hashPieces [List.replicate 70 0x61, [], List.replicate 50 0x62, [0x63]] =
    [0xB6, 0x5A, 0x54, 0xED, 0x66, 0x84, 0x6C, 0x67, 0x10, 0xEC, 0x6F, 0x0F, 0x34, 0xD1, 0x19, 0xAC, 0x06, 0x96, 0x6E,
      0x02, 0x0C, 0x62, 0xA6, 0xCA, 0xE4, 0x11, 0x2B, 0xFE, 0xCC, 0xA7, 0xDD, 0xCD] := by
  refine (hashPieces_eq ?_).trans ?_
  · simp only [List.mem_cons, List.not_mem_nil, or_false, forall_eq_or_imp, forall_eq]
    decide
  · decide +kernel

end TheSeed.PicoSha2Exact
