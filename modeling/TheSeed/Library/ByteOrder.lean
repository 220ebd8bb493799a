import Mathlib.Data.List.Lex
import TheSeed.Library.SortedBy

namespace TheSeed.ByteOrder

/-! The order of byte strings, which is that of their bytes, and sorted lists of them. -/

scoped instance byteLinearOrder : LinearOrder UInt8 where
  le_refl := UInt8.le_refl
  le_trans _ _ _ := UInt8.le_trans
  le_antisymm _ _ := UInt8.le_antisymm
  le_total := UInt8.le_total
  lt_iff_le_not_ge _ _ := by rw [UInt8.lt_iff_toNat_lt, UInt8.le_iff_toNat_le, UInt8.le_iff_toNat_le]; omega
  toDecidableLE := inferInstance
  toDecidableLT := inferInstance
  toDecidableEq := inferInstance

section unique

variable {α : Type} [LinearOrder α]

/-- The list with one of each run of equal elements. -/
def unique : List α → List α
  | a :: b :: rest => if a = b then unique (b :: rest) else a :: unique (b :: rest)
  | xs => xs

def sortUnique (xs : List α) : List α := unique (SortedBy.sortBy id xs)

@[simp] theorem mem_unique {a : α} {xs : List α} : a ∈ unique xs ↔ a ∈ xs := by
  fun_induction unique xs with
  | case1 b rest ih => simp [ih]
  | case2 b c rest hne ih => simp [ih]
  | case3 xs h => rfl

theorem unique_strict {xs : List α} (h : xs.Pairwise (· ≤ ·)) : (unique xs).Pairwise (· < ·) := by
  fun_induction unique xs with
  | case1 b rest ih => exact ih (List.pairwise_cons.1 h).2
  | case2 b c rest hne ih =>
    rw [List.pairwise_cons] at h ⊢
    refine ⟨fun d hd => ?_, ih h.2⟩
    have hbc : b < c := lt_of_le_of_ne (h.1 c List.mem_cons_self) hne
    rcases List.mem_cons.1 (mem_unique.1 hd) with rfl | hd
    · exact hbc
    · exact lt_of_lt_of_le hbc ((List.pairwise_cons.1 h.2).1 d hd)
  | case3 xs hshort =>
    match xs, hshort with
    | [], _ => exact .nil
    | [a], _ => exact List.pairwise_singleton _ _
    | a :: b :: rest, hshort => exact absurd rfl (hshort a b rest)

@[simp] theorem mem_sortUnique {a : α} {xs : List α} : a ∈ sortUnique xs ↔ a ∈ xs := by
  rw [sortUnique, mem_unique, (SortedBy.sortBy_perm id xs).mem_iff]

theorem sortUnique_strict (xs : List α) : (sortUnique xs).Pairwise (· < ·) :=
  unique_strict (SortedBy.pairwise_sortBy id xs)

end unique

end TheSeed.ByteOrder
