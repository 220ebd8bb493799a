import Mathlib.Algebra.BigOperators.Group.List.Basic
import Mathlib.Data.Nat.ModEq

namespace TheSeed.CarrySum

/-! Sums in which what goes out at the end comes in again at the start: folded after every number, or once. -/

variable {radix sum word : Nat} {words : List Nat}

def fold (radix sum : Nat) : Nat := sum % radix + sum / radix

theorem fold_lt_self (h : radix ≤ sum ∧ 2 ≤ radix) : fold radix sum < sum := by
  have hdiv := Nat.div_add_mod sum radix
  have hpos := Nat.div_pos h.1 (by omega)
  have hmul := Nat.mul_le_mul_right (sum / radix) h.2
  rw [fold]
  omega

/-- Folded until it fits. -/
def foldOut (radix sum : Nat) : Nat :=
  if _h : radix ≤ sum ∧ 2 ≤ radix then foldOut radix (fold radix sum) else sum
termination_by sum
decreasing_by exact fold_lt_self ‹_›

/-- Folded after every number. -/
def carrySum (radix : Nat) (words : List Nat) : Nat := words.foldl (fun sum word => fold radix (sum + word)) 0

theorem fold_of_lt (h : sum < radix) : fold radix sum = sum := by
  rw [fold, Nat.mod_eq_of_lt h, Nat.div_eq_of_lt h, Nat.add_zero]

theorem fold_lt (hsum : sum < radix) (hword : word < radix) : fold radix (sum + word) < radix := by
  rw [fold]
  by_cases h : sum + word < radix
  · rw [Nat.mod_eq_of_lt h, Nat.div_eq_of_lt h]
    omega
  · have hsplit : sum + word = sum + word - radix + radix := by omega
    rw [hsplit, Nat.add_mod_right, Nat.add_div_right _ (by omega), Nat.mod_eq_of_lt (by omega),
      Nat.div_eq_of_lt (by omega)]
    omega

/-- What goes out at the end counts one where it comes in. -/
theorem fold_modEq (hradix : 2 ≤ radix) : fold radix sum ≡ sum [MOD radix - 1] := by
  have hone : radix ≡ 1 [MOD radix - 1] := by
    have hsplit : radix = 1 + (radix - 1) * 1 := by omega
    conv_lhs => rw [hsplit]
    exact (Nat.modEq_iff_dvd' (by omega)).2 ⟨1, by omega⟩ |>.symm
  calc fold radix sum = sum % radix + 1 * (sum / radix) := by rw [fold, Nat.one_mul]
    _ ≡ sum % radix + radix * (sum / radix) [MOD radix - 1] := Nat.ModEq.add_left _ (hone.symm.mul_right _)
    _ = sum := Nat.mod_add_div sum radix

theorem fold_eq_zero (hradix : 0 < radix) : fold radix sum = 0 ↔ sum = 0 := by
  constructor
  · intro h
    rw [fold] at h
    have hdiv := Nat.mod_add_div sum radix
    obtain ⟨hmod, hquot⟩ := Nat.add_eq_zero_iff.1 h
    rw [hmod, hquot, Nat.mul_zero] at hdiv
    exact hdiv.symm
  · rintro rfl
    exact fold_of_lt hradix

/-- A value that stands for a sum: it fits, it is the same up to the folding, and it is zero only with the sum. -/
structure StandsFor (radix value sum : Nat) : Prop where
  fits : value < radix
  same : value ≡ sum [MOD radix - 1]
  zero : value = 0 ↔ sum = 0

theorem StandsFor.unique {value other : Nat} (h : StandsFor radix value sum) (h' : StandsFor radix other sum) :
    value = other := by
  have hfits := h.fits
  have hfits' := h'.fits
  have hzero : value = 0 ↔ other = 0 := h.zero.trans h'.zero.symm
  have hsame : value ≡ other [MOD radix - 1] := h.same.trans h'.same.symm
  -- the two ends of the range are the same up to the folding, and zero tells them apart
  rcases Nat.eq_zero_or_pos value with hv | hv
  · rw [hv, hzero.1 hv]
  · have ho : 0 < other := Nat.pos_of_ne_zero fun ho => by omega
    have hless : value - 1 ≡ other - 1 [MOD radix - 1] := by
      refine Nat.ModEq.add_right_cancel' 1 ?_
      rw [Nat.sub_add_cancel hv, Nat.sub_add_cancel ho]
      exact hsame
    have heq := hless.eq_of_lt_of_lt (by omega) (by omega)
    omega

theorem foldOut_standsFor (hradix : 2 ≤ radix) (sum : Nat) : StandsFor radix (foldOut radix sum) sum := by
  induction sum using Nat.strongRecOn with
  | ind sum ih =>
      rw [foldOut]
      by_cases h : radix ≤ sum ∧ 2 ≤ radix
      · rw [dif_pos h]
        have hfolded := ih _ (fold_lt_self h)
        exact ⟨hfolded.fits, hfolded.same.trans (fold_modEq hradix), hfolded.zero.trans (fold_eq_zero (by omega))⟩
      · rw [dif_neg h]
        exact ⟨by omega, .refl _, .rfl⟩

/-- After every number the sum so far stands for the sum without folding. -/
theorem foldl_standsFor (hradix : 2 ≤ radix) {value : Nat} (hwords : ∀ word ∈ words, word < radix)
    (h : StandsFor radix value sum) :
    StandsFor radix (words.foldl (fun sum word => fold radix (sum + word)) value) (sum + words.sum) := by
  induction words generalizing value sum with
  | nil => simpa using h
  | cons word words ih =>
      obtain ⟨hword, hrest⟩ := List.forall_mem_cons.1 hwords
      rw [List.foldl_cons, List.sum_cons, ← Nat.add_assoc]
      refine ih hrest ⟨fold_lt h.fits hword, (fold_modEq hradix).trans (h.same.add_right _), ?_⟩
      rw [fold_eq_zero (by omega), Nat.add_eq_zero_iff, Nat.add_eq_zero_iff, h.zero]

theorem carrySum_standsFor (hradix : 2 ≤ radix) (hwords : ∀ word ∈ words, word < radix) :
    StandsFor radix (carrySum radix words) words.sum := by
  have hzero : StandsFor radix 0 0 := ⟨by omega, .refl _, .rfl⟩
  simpa [carrySum] using foldl_standsFor hradix hwords hzero

/-- Folding after every number is folding the whole sum once and for all. -/
theorem carrySum_eq_foldOut (hradix : 2 ≤ radix) (hwords : ∀ word ∈ words, word < radix) :
    carrySum radix words = foldOut radix words.sum :=
  (carrySum_standsFor hradix hwords).unique (foldOut_standsFor hradix _)

end TheSeed.CarrySum
