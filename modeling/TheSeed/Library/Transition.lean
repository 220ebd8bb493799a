import Mathlib.Logic.Relation

namespace TheSeed.Transition

open Relation

variable {σ τ : Type}

/-- A system given by its initial states and its atomic steps. -/
structure System (σ : Type) where
  init : σ → Prop
  step : σ → σ → Prop

namespace System

def Reachable (M : System σ) (s : σ) : Prop :=
  ∃ s₀, M.init s₀ ∧ ReflTransGen M.step s₀ s

/-- The runs of a system all of whose steps meet a condition. -/
def restrict (M : System σ) (P : σ → σ → Prop) : System σ :=
  ⟨M.init, fun s t => M.step s t ∧ P s t⟩

/-- A property the initial states have and every step keeps. -/
structure Invariant (M : System σ) (I : σ → Prop) : Prop where
  init : ∀ s, M.init s → I s
  step : ∀ s t, I s → M.step s t → I t

/-- Every step of `M` from a state that meets `I` is seen as a step of `N` or not at all. -/
structure Refines (M : System σ) (N : System τ) (view : σ → τ) (I : σ → Prop) : Prop where
  init : ∀ s, M.init s → N.init (view s)
  step : ∀ s t, I s → M.step s t → view t = view s ∨ N.step (view s) (view t)

variable {M : System σ} {N : System τ} {I J : σ → Prop} {P : σ → σ → Prop} {s t : σ}

theorem Reachable.start (h : M.init s) : M.Reachable s := ⟨s, h, .refl⟩

theorem Reachable.next (h : M.Reachable s) (hst : M.step s t) : M.Reachable t := by
  obtain ⟨s₀, h₀, hs⟩ := h
  exact ⟨s₀, h₀, hs.tail hst⟩

theorem Invariant.steps (h : M.Invariant I) (hs : I s) (hst : ReflTransGen M.step s t) : I t := by
  induction hst with
  | refl => exact hs
  | tail _ hstep ih => exact h.step _ _ ih hstep

theorem Invariant.reachable (h : M.Invariant I) (hs : M.Reachable s) : I s := by
  obtain ⟨s₀, h₀, hst⟩ := hs
  exact h.steps (h.init s₀ h₀) hst

theorem Invariant.and (hI : M.Invariant I) (hJ : ∀ s, M.init s → J s)
    (hstep : ∀ s t, I s → J s → M.step s t → J t) : M.Invariant fun s => I s ∧ J s where
  init s h := ⟨hI.init s h, hJ s h⟩
  step s t hs hst := ⟨hI.step s t hs.1 hst, hstep s t hs.1 hs.2 hst⟩

theorem Reachable.of_restrict (h : (M.restrict P).Reachable s) : M.Reachable s := by
  obtain ⟨s₀, h₀, hst⟩ := h
  induction hst with
  | refl => exact .start h₀
  | tail _ hstep ih => exact ih.next hstep.1

/-- A condition that holds before a step when it holds after it held in the whole run. -/
theorem Reachable.restrict (hback : ∀ s t, M.step s t → I t → I s) (h : M.Reachable s) (hs : I s) :
    (M.restrict fun _ t => I t).Reachable s := by
  obtain ⟨s₀, h₀, hst⟩ := h
  induction hst with
  | refl => exact .start h₀
  | tail _ hstep ih => exact (ih (hback _ _ hstep hs)).next ⟨hstep, hs⟩

theorem Refines.reachable {view : σ → τ} (h : M.Refines N view I) (hI : M.Invariant I)
    (hs : M.Reachable s) : N.Reachable (view s) := by
  obtain ⟨s₀, h₀, hst⟩ := hs
  induction hst with
  | refl => exact .start (h.init s₀ h₀)
  | @tail b c hb hbc ih =>
      have hIb : I b := hI.steps (hI.init s₀ h₀) hb
      rcases h.step b c hIb hbc with heq | hN
      · rw [heq]
        exact ih
      · exact ih.next hN

end System

end TheSeed.Transition
