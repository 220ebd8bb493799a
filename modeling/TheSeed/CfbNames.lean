import Mathlib.Data.List.Lex
import TheSeed.Library.SortedBy
import TheSeed.MsiAuthenticode

namespace TheSeed.CfbNames

open Checked BoundedBytes CfbReader MsiAuthenticode SortedBy

/-! Both orders of names are the order of keys: a number for each place that is compared. -/

/-- The length, then the units in upper case. -/
def nameKey (name : CfbName) : List Nat := name.1.length :: name.1.map fun unit => (upperCase unit).toNat

/-- The low and the high byte of each unit. -/
def rawKey (name : CfbName) : List Nat := name.1.flatMap fun unit => [unit.toNat % 256, unit.toNat / 256]

theorem compareUnits_compares {as bs : List UInt16} (h : as.length = bs.length) :
    (compareUnits as bs).Compares (as.map fun unit => (upperCase unit).toNat)
      (bs.map fun unit => (upperCase unit).toNat) := by
  induction as generalizing bs with
  | nil =>
      cases bs with
      | nil => rfl
      | cons b bs => cases h
  | cons a as ih =>
      cases bs with
      | nil => cases h
      | cons b bs =>
          rw [compareUnits, List.map_cons, List.map_cons]
          by_cases heq : upperCase a = upperCase b
          · rw [if_neg (not_not.2 heq), heq]
            have hrest := ih (Nat.succ.inj h)
            cases hc : compareUnits as bs with
            | lt =>
                rw [hc] at hrest
                exact List.cons_lt_cons_iff.2 (.inr ⟨rfl, hrest⟩)
            | eq =>
                rw [hc] at hrest
                exact congrArg _ hrest
            | gt =>
                rw [hc] at hrest
                exact List.cons_lt_cons_iff.2 (.inr ⟨rfl, hrest⟩)
          · rw [if_pos heq]
            have hne : (upperCase a).toNat ≠ (upperCase b).toNat := fun h => heq (UInt16.toNat_inj.1 h)
            by_cases hlt : upperCase a < upperCase b
            · rw [if_pos hlt]
              exact List.cons_lt_cons_iff.2 (.inl hlt)
            · rw [if_neg hlt]
              have hle : (upperCase b).toNat ≤ (upperCase a).toNat := UInt16.not_lt.1 hlt
              exact List.cons_lt_cons_iff.2 (.inl (lt_of_le_of_ne hle hne.symm))

theorem compareNames_compares (a b : CfbName) : (compareNames a b).Compares (nameKey a) (nameKey b) := by
  rw [compareNames, nameKey, nameKey]
  by_cases heq : a.1.length = b.1.length
  · rw [if_neg (not_not.2 heq), heq]
    have hunits := compareUnits_compares heq
    cases hc : compareUnits a.1 b.1 with
    | lt =>
        rw [hc] at hunits
        exact List.cons_lt_cons_iff.2 (.inr ⟨rfl, hunits⟩)
    | eq =>
        rw [hc] at hunits
        exact congrArg _ hunits
    | gt =>
        rw [hc] at hunits
        exact List.cons_lt_cons_iff.2 (.inr ⟨rfl, hunits⟩)
  · rw [if_pos heq]
    by_cases hlt : a.1.length < b.1.length
    · rw [if_pos hlt]
      exact List.cons_lt_cons_iff.2 (.inl hlt)
    · rw [if_neg hlt]
      exact List.cons_lt_cons_iff.2 (.inl (lt_of_le_of_ne (not_lt.1 hlt) (Ne.symm heq)))

theorem compareNames_eq_lt {a b : CfbName} : compareNames a b = .lt ↔ nameKey a < nameKey b :=
  (compareNames_compares a b).eq_lt

theorem compareNames_eq_gt {a b : CfbName} : compareNames a b = .gt ↔ nameKey b < nameKey a :=
  (compareNames_compares a b).eq_gt

theorem compareNames_eq_eq {a b : CfbName} : compareNames a b = .eq ↔ nameKey a = nameKey b :=
  (compareNames_compares a b).eq_eq

theorem compareNames_ne_gt {a b : CfbName} : compareNames a b ≠ .gt ↔ nameKey a ≤ nameKey b := by
  rw [ne_eq, compareNames_eq_gt, not_lt]

theorem rawUnitsLess_iff (as bs : List UInt16) : rawUnitsLess as bs = true ↔
    (as.flatMap fun unit => [unit.toNat % 256, unit.toNat / 256]) <
      bs.flatMap fun unit => [unit.toNat % 256, unit.toNat / 256] := by
  induction as generalizing bs with
  | nil => cases bs <;> simp [rawUnitsLess]
  | cons a as ih =>
      cases bs with
      | nil => simp [rawUnitsLess]
      | cons b bs =>
          simp only [rawUnitsLess, List.flatMap_cons, List.cons_append, List.nil_append, List.cons_lt_cons_iff]
          by_cases heq : a = b
          · rw [if_pos heq, ih, heq]
            simp
          · rw [if_neg heq]
            have hne : a.toNat ≠ b.toNat := fun h => heq (UInt16.toNat_inj.1 h)
            by_cases hlow : a.toNat % 256 = b.toNat % 256
            · have hhigh : a.toNat / 256 ≠ b.toNat / 256 := by omega
              simp [hlow, hhigh]
            · simp [hlow]

theorem rawNameLess_iff {a b : CfbName} : rawNameLess a b = true ↔ rawKey a < rawKey b := rawUnitsLess_iff _ _

theorem rawUnits_injective {as bs : List UInt16}
    (h : (as.flatMap fun unit => [unit.toNat % 256, unit.toNat / 256]) =
      bs.flatMap fun unit => [unit.toNat % 256, unit.toNat / 256]) : as = bs := by
  induction as generalizing bs with
  | nil =>
      cases bs with
      | nil => rfl
      | cons b bs => cases h
  | cons a as ih =>
      cases bs with
      | nil => cases h
      | cons b bs =>
          simp only [List.flatMap_cons, List.cons_append, List.nil_append, List.cons.injEq] at h
          obtain ⟨hlow, hhigh, hrest⟩ := h
          have heq : a = b := UInt16.toNat_inj.1 (by omega)
          rw [heq, ih hrest]

theorem rawKey_injective {a b : CfbName} (h : rawKey a = rawKey b) : a = b := Subtype.ext (rawUnits_injective h)

/-- The check passes when no two names are one to the order. -/
theorem rejectEqualNames_eq_ok {reason : String} {names : List CfbName} {r : Unit} :
    rejectEqualNames reason names = .ok r ↔ Distinct nameKey names := by
  have hsorted : (names.insertionSort fun a b => compareNames a b ≠ .gt) = sortBy nameKey names :=
    insertionSort_eq_sortBy nameKey (fun _ _ => compareNames_ne_gt) names
  have hperm : Distinct nameKey names ↔ Distinct nameKey (sortBy nameKey names) :=
    ⟨fun h => h.perm (sortBy_perm _ _).symm, fun h => h.perm (sortBy_perm _ _)⟩
  rw [hperm, distinct_iff_neighbours (pairwise_sortBy _ _), rejectEqualNames, hsorted]
  cases hfind : ((sortBy nameKey names).zip (sortBy nameKey names).tail).find? fun pair =>
      compareNames pair.1 pair.2 = .eq with
  | none =>
      simp only [true_iff]
      intro pair hpair heq
      have hnot := List.find?_eq_none.1 hfind pair hpair
      rw [decide_eq_true_eq, compareNames_eq_eq] at hnot
      exact hnot heq
  | some pair =>
      simp only [throwMalformed_ne_ok, false_iff]
      intro hall
      have hpair := List.find?_some hfind
      rw [decide_eq_true_eq, compareNames_eq_eq] at hpair
      exact hall pair (List.mem_of_find?_eq_some hfind) hpair

theorem distinct_names_nodup {α : Type} {name : α → CfbName} {xs : List α}
    (h : Distinct (fun x => nameKey (name x)) xs) : Distinct (fun x => rawKey (name x)) xs :=
  List.Pairwise.imp (fun hne hraw => hne (congrArg nameKey (rawKey_injective hraw))) h

end TheSeed.CfbNames
