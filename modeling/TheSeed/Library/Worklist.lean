import Mathlib.Data.List.Dedup
import Mathlib.Data.List.Perm.Subperm
import Mathlib.Logic.Relation

namespace TheSeed.Worklist

open Relation

/-! A walk over a queue that grows at its end while it is read from its start. -/

variable {α : Type} [DecidableEq α] {next : α → List α} {whole queue news : List α} {a b : α} {head : Nat}

/-- Those that are not in the queue yet join it. -/
def join (queue : List α) : List α → List α
  | [] => queue
  | a :: news => if a ∈ queue then join queue news else join (queue ++ [a]) news

def walk (next : α → List α) : Nat → List α → Nat → Option (List α)
  | 0, _, _ => none
  | fuel + 1, queue, head =>
      match queue[head]? with
      | none => some queue
      | some a => walk next fuel (join queue (next a)) (head + 1)

theorem join_grows (queue news : List α) : queue <+: join queue news := by
  induction news generalizing queue with
  | nil => exact List.prefix_rfl
  | cons a news ih =>
    unfold join
    split
    · exact ih queue
    · exact (List.prefix_append queue [a]).trans (ih _)

theorem mem_join : a ∈ join queue news ↔ a ∈ queue ∨ a ∈ news := by
  induction news generalizing queue with
  | nil => simp [join]
  | cons b news ih =>
    unfold join
    split
    · next hb =>
      rw [ih, List.mem_cons]
      constructor
      · tauto
      · rintro (h | rfl | h)
        · exact .inl h
        · exact .inl hb
        · exact .inr h
    · rw [ih, List.mem_append, List.mem_singleton, List.mem_cons, or_assoc]

theorem join_nodup (h : queue.Nodup) (news : List α) : (join queue news).Nodup := by
  induction news generalizing queue with
  | nil => exact h
  | cons b news ih =>
    unfold join
    split
    · exact ih h
    · next hb => exact ih (List.nodup_append.mpr ⟨h, List.nodup_singleton b, by grind⟩)

/-- Each element before the head has had its successors join. -/
def Walked (next : α → List α) (queue : List α) (head : Nat) : Prop :=
  ∀ i a, i < head → queue[i]? = some a → ∀ b ∈ next a, b ∈ queue

theorem Walked.step (h : Walked next queue head) (ha : queue[head]? = some a) :
    Walked next (join queue (next a)) (head + 1) := by
  intro i b hi hb c hc
  have hat (j : Nat) (x : α) (hx : queue[j]? = some x) : (join queue (next a))[j]? = some x := by
    obtain ⟨rest, hrest⟩ := join_grows queue (next a)
    rw [← hrest, List.getElem?_append_left (List.getElem?_eq_some_iff.mp hx).1, hx]
  rcases Nat.lt_succ_iff_lt_or_eq.mp hi with hi | rfl
  · have hlt : i < queue.length := Nat.lt_trans hi (List.getElem?_eq_some_iff.mp ha).1
    have hold := hat i _ (List.getElem?_eq_getElem hlt)
    rw [hold] at hb
    cases hb
    exact mem_join.mpr (.inl (h i _ hi (List.getElem?_eq_getElem hlt) c hc))
  · rw [hat i a ha] at hb
    cases hb
    exact mem_join.mpr (.inr hc)

theorem walk_grows (fuel : Nat) : ∀ {queue order : List α} {head : Nat}, walk next fuel queue head = some order →
    queue <+: order := by
  induction fuel with
  | zero => exact fun h => nomatch h
  | succ fuel ih =>
    intro queue order head h
    unfold walk at h
    split at h
    · cases h
      exact List.prefix_rfl
    · exact (join_grows queue _).trans (ih h)

theorem walk_nodup (fuel : Nat) : ∀ {queue order : List α} {head : Nat}, queue.Nodup →
    walk next fuel queue head = some order → order.Nodup := by
  induction fuel with
  | zero => exact fun _ h => nomatch h
  | succ fuel ih =>
    intro queue order head hnodup h
    unfold walk at h
    split at h
    · cases h
      exact hnodup
    · exact ih (join_nodup hnodup _) h

/-- A walk inside a finite whole that it cannot leave stops, with the elements that the queue leads to. -/
theorem walk_spec (hclosed : ∀ a ∈ whole, ∀ b ∈ next a, b ∈ whole) (fuel : Nat) : ∀ {queue : List α} {head : Nat},
    queue.Nodup → (∀ a ∈ queue, a ∈ whole) → head ≤ queue.length → whole.length + 1 ≤ fuel + head →
    Walked next queue head →
    ∃ order, walk next fuel queue head = some order ∧
      ∀ a, a ∈ order ↔ ∃ b ∈ queue, ReflTransGen (fun x y => y ∈ next x) b a := by
  induction fuel with
  | zero =>
    intro queue head hnodup hmem hhead hfuel hwalked
    have hle := (List.subperm_of_subset hnodup fun a ha => hmem a ha).length_le
    omega
  | succ fuel ih =>
    intro queue head hnodup hmem hhead hfuel hwalked
    unfold walk
    cases hat : queue[head]? with
    | none =>
      refine ⟨queue, rfl, fun a => ⟨fun ha => ⟨a, ha, .refl⟩, ?_⟩⟩
      rintro ⟨b, hb, hsteps⟩
      have hall (i : Nat) (x : α) (hx : queue[i]? = some x) : i < head :=
        Nat.lt_of_lt_of_le (List.getElem?_eq_some_iff.mp hx).1 (List.getElem?_eq_none_iff.mp hat)
      induction hsteps with
      | refl => exact hb
      | tail _ hstep ihsteps =>
        obtain ⟨i, hi⟩ := List.mem_iff_getElem?.mp ihsteps
        exact hwalked i _ (hall i _ hi) hi _ hstep
    | some a =>
      have ha : a ∈ queue := List.mem_of_getElem? hat
      have hjoined : ∀ b ∈ join queue (next a), b ∈ whole := fun b hb =>
        (mem_join.mp hb).elim (hmem b) (hclosed a (hmem a ha) b)
      have hlong : head + 1 ≤ (join queue (next a)).length :=
        Nat.le_trans (List.getElem?_eq_some_iff.mp hat).1 (join_grows queue (next a)).length_le
      obtain ⟨order, horder, hspec⟩ :=
        ih (join_nodup hnodup _) hjoined hlong (by omega) (hwalked.step hat)
      refine ⟨order, horder, fun c => (hspec c).trans ⟨?_, ?_⟩⟩
      · rintro ⟨b, hb, hsteps⟩
        rcases mem_join.mp hb with hb | hb
        · exact ⟨b, hb, hsteps⟩
        · exact ⟨a, ha, .head hb hsteps⟩
      · rintro ⟨b, hb, hsteps⟩
        exact ⟨b, mem_join.mpr (.inl hb), hsteps⟩

end TheSeed.Worklist
