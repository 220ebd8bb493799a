import Mathlib.Data.List.Pairwise
import Mathlib.Data.List.Sort

namespace TheSeed.SortedBy

/-! Lists in the order of a key. -/

variable {α β κ : Type} {key : α → κ} {xs ys : List α}

/-- No two elements have the same key. -/
def Distinct (key : α → κ) (xs : List α) : Prop := xs.Pairwise fun a b => key a ≠ key b

theorem Distinct.perm (h : Distinct key xs) (hp : xs.Perm ys) : Distinct key ys :=
  (hp.pairwise_iff fun hne => hne.symm).1 h

theorem Distinct.sublist (h : Distinct key ys) (hs : xs.Sublist ys) : Distinct key xs := List.Pairwise.sublist hs h

theorem distinct_map {f : β → α} {zs : List β} : Distinct key (zs.map f) ↔ Distinct (fun z => key (f z)) zs :=
  List.pairwise_map

variable [LinearOrder κ]

def sortBy (key : α → κ) (xs : List α) : List α := xs.insertionSort fun a b => key a ≤ key b

theorem sortBy_perm (key : α → κ) (xs : List α) : (sortBy key xs).Perm xs := List.perm_insertionSort _ _

theorem pairwise_sortBy (key : α → κ) (xs : List α) : (sortBy key xs).Pairwise fun a b => key a ≤ key b := by
  have : Std.Total fun a b : α => key a ≤ key b := ⟨fun a b => le_total (key a) (key b)⟩
  have : IsTrans α fun a b => key a ≤ key b := ⟨fun a b c => le_trans⟩
  exact List.pairwise_insertionSort _ _

/-- A sort by any relation that agrees with the key. -/
theorem insertionSort_eq_sortBy (key : α → κ) {r : α → α → Prop} [DecidableRel r] (h : ∀ a b, r a b ↔ key a ≤ key b)
    (xs : List α) : xs.insertionSort r = sortBy key xs := by
  have hr : r = fun a b => key a ≤ key b := by
    funext a b
    exact propext (h a b)
  subst hr
  rw [sortBy]
  congr

theorem sortBy_strict (h : Distinct key xs) : (sortBy key xs).Pairwise fun a b => key a < key b :=
  (pairwise_sortBy key xs).imp₂ (fun _ _ hle hne => lt_of_le_of_ne hle hne) (h.perm (sortBy_perm key xs).symm)

theorem distinct_of_strict (h : xs.Pairwise fun a b => key a < key b) : Distinct key xs := h.imp ne_of_lt

theorem eq_of_strict (hx : xs.Pairwise fun a b => key a < key b) (hy : ys.Pairwise fun a b => key a < key b)
    (hp : xs.Perm ys) : xs = ys :=
  hp.eq_of_pairwise (fun _ _ _ _ hab hba => absurd hab (lt_asymm hba)) hx hy

/-- The order a list comes in does not count, when keys tell its elements apart. -/
theorem sortBy_eq_of_perm (h : Distinct key xs) (hp : xs.Perm ys) : sortBy key xs = sortBy key ys := by
  refine eq_of_strict (sortBy_strict h) (sortBy_strict (h.perm hp)) ?_
  exact (sortBy_perm key xs).trans (hp.trans (sortBy_perm key ys).symm)

theorem sortBy_map (f : β → α) (zs : List β) : sortBy key (zs.map f) = (sortBy (fun z => key (f z)) zs).map f :=
  (List.map_insertionSort _ _ f zs fun _ _ _ _ => Iff.rfl).symm

theorem sortBy_eq_self (h : xs.Pairwise fun a b => key a ≤ key b) : sortBy key xs = xs := h.insertionSort_eq

/-- Neighbours in the order are enough to find two elements with one key. -/
theorem distinct_iff_neighbours (h : xs.Pairwise fun a b => key a ≤ key b) :
    Distinct key xs ↔ ∀ pair ∈ xs.zip xs.tail, key pair.1 ≠ key pair.2 := by
  induction xs with
  | nil => simp [Distinct]
  | cons a xs ih =>
      cases xs with
      | nil => simp [Distinct]
      | cons b xs =>
          rw [List.pairwise_cons] at h
          have htail := ih h.2
          simp only [List.tail_cons, List.zip_cons_cons, List.forall_mem_cons] at htail ⊢
          rw [← htail, Distinct, List.pairwise_cons]
          constructor
          · rintro ⟨hne, hd⟩
            exact ⟨hne b List.mem_cons_self, hd⟩
          · rintro ⟨hne, hd⟩
            refine ⟨fun c hc hk => ?_, hd⟩
            rcases List.mem_cons.1 hc with rfl | hc
            · exact hne hk
            · have hab := h.1 b List.mem_cons_self
              have hbc := (List.pairwise_cons.1 h.2).1 c hc
              exact hne (le_antisymm hab (hk ▸ hbc))

end TheSeed.SortedBy
