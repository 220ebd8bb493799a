import Mathlib.Logic.Function.Basic
import TheSeed.Library.Transition

namespace TheSeed.SingleFlight

open TheSeed.Transition Function

/-! Callers that ask for values by name, where one caller loads and a loaded value is kept. -/

variable {ι ν α φ : Type} [DecidableEq ι] [DecidableEq ν]

inductive Role (ν α φ : Type)
  | absent
  | asking (name : ν)
  | loading (name : ν)
  | settled (name : ν) (outcome : Except φ α)

structure State (ι ν α φ : Type) where
  role : ι → Role ν α φ
  flight : ν → Option ι
  kept : ν → Option (ι × α)

inductive Step : State ι ν α φ → State ι ν α φ → Prop
  | ask (s i n) (h : s.role i = .absent) : Step s { s with role := update s.role i (.asking n) }
  | own (s i n) (h : s.role i = .asking n) (hf : s.flight n = none) (hk : s.kept n = none) :
      Step s { s with role := update s.role i (.loading n), flight := update s.flight n (some i) }
  | succeed (s i n a) (h : s.role i = .loading n) :
      Step s ⟨update s.role i (.settled n (.ok a)), update s.flight n none, update s.kept n (some (i, a))⟩
  | fail (s i n e) (h : s.role i = .loading n) :
      Step s { s with role := update s.role i (.settled n (.error e)), flight := update s.flight n none }

def init : State ι ν α φ := ⟨fun _ => .absent, fun _ => none, fun _ => none⟩

def system : System (State ι ν α φ) := ⟨fun s => s = init, Step⟩

/-- A record exists exactly while its caller loads; what is kept was loaded and is not loaded again. -/
structure Inv (s : State ι ν α φ) : Prop where
  flight : ∀ n i, s.flight n = some i ↔ s.role i = .loading n
  kept : ∀ n i a, s.kept n = some (i, a) → s.role i = .settled n (.ok a) ∧ s.flight n = none

variable {s t : State ι ν α φ} {i j : ι} {n : ν} {a : α} {o : Except φ α}

omit [DecidableEq ι] [DecidableEq ν] in
theorem Inv.loading_unique (h : Inv s) (hi : s.role i = .loading n) (hj : s.role j = .loading n) : i = j := by
  have hfi := (h.flight n i).2 hi
  have hfj := (h.flight n j).2 hj
  exact Option.some.inj (hfi.symm.trans hfj)

omit [DecidableEq ι] [DecidableEq ν] in
theorem Inv.not_loading_of_kept (h : Inv s) {x : ι × α} (hk : s.kept n = some x) : s.role i ≠ .loading n := by
  intro hi
  have hf := (h.kept n x.1 x.2 hk).2
  rw [(h.flight n i).2 hi] at hf
  cases hf

theorem step_settled (hst : Step s t) (hi : s.role i = .settled n o) : t.role i = .settled n o := by
  cases hst with
  | ask j m h | own j m h | succeed j m b h | fail j m e h =>
      have hne : i ≠ j := by
        rintro rfl
        rw [h] at hi
        cases hi
      exact (update_of_ne hne _ _).trans hi

theorem step_loading (hst : Step s t) (hi : s.role i = .loading n) :
    t.role i = .loading n ∨ ∃ o, t.role i = .settled n o := by
  cases hst with
  | ask j m h | own j m h =>
      have hne : i ≠ j := by
        rintro rfl
        rw [h] at hi
        cases hi
      exact .inl ((update_of_ne hne _ _).trans hi)
  | succeed j m b h | fail j m b h =>
      by_cases hij : i = j
      · subst hij
        rw [h] at hi
        cases hi
        exact .inr ⟨_, update_self ..⟩
      · exact .inl ((update_of_ne hij _ _).trans hi)

theorem step_kept (h : Inv s) (hst : Step s t) {x : ι × α} (hk : s.kept n = some x) : t.kept n = some x := by
  cases hst with
  | ask | own | fail => exact hk
  | succeed j m b hj =>
      have hne : n ≠ m := by
        rintro rfl
        exact h.not_loading_of_kept hk hj
      exact (update_of_ne hne _ _).trans hk

theorem step_kept_new (hst : Step s t) {x : ι × α} (hs : s.kept n = none) (ht : t.kept n = some x) :
    s.role x.1 = .loading n ∧ t.role x.1 = .settled n (.ok x.2) := by
  cases hst with
  | ask | own | fail =>
      rw [hs] at ht
      cases ht
  | succeed j m b hj =>
      by_cases hnm : n = m
      · subst hnm
        simp only [update_self, Option.some.injEq] at ht
        subst ht
        exact ⟨hj, update_self ..⟩
      · simp only [update_of_ne hnm, hs] at ht
        cases ht

omit [DecidableEq ν] in
theorem flight_iff_update {r : Role ν α φ} (h : Inv s) (hi : ∀ m, s.role i ≠ .loading m) (hr : ∀ m, r ≠ .loading m) :
    ∀ m j, s.flight m = some j ↔ update s.role i r j = .loading m := by
  intro m j
  by_cases hij : j = i
  · subst hij
    rw [update_self, h.flight]
    exact iff_of_false (hi m) (hr m)
  · rw [update_of_ne hij]
    exact h.flight m j

theorem flight_iff_own (h : Inv s) (hi : s.role i = .asking n) (hf : s.flight n = none) :
    ∀ m j, update s.flight n (some i) m = some j ↔ update s.role i (.loading n) j = .loading m := by
  intro m j
  by_cases hij : j = i
  · subst hij
    rw [update_self]
    by_cases hmn : m = n
    · subst hmn
      simp
    · rw [update_of_ne hmn, h.flight, hi]
      simp [Ne.symm hmn]
  · rw [update_of_ne hij]
    by_cases hmn : m = n
    · subst hmn
      rw [update_self]
      refine iff_of_false (by simpa using Ne.symm hij) fun hj => ?_
      rw [(h.flight m j).2 hj] at hf
      cases hf
    · rw [update_of_ne hmn]
      exact h.flight m j

theorem flight_iff_settle (h : Inv s) (hi : s.role i = .loading n) (o : Except φ α) :
    ∀ m j, update s.flight n none m = some j ↔ update s.role i (.settled n o) j = .loading m := by
  intro m j
  by_cases hmn : m = n
  · subst hmn
    rw [update_self]
    refine iff_of_false (by simp) ?_
    by_cases hij : j = i
    · subst hij
      simp
    · rw [update_of_ne hij]
      exact fun hj => hij (h.loading_unique hj hi)
  · rw [update_of_ne hmn, h.flight]
    by_cases hij : j = i
    · subst hij
      rw [update_self, hi]
      simp [Ne.symm hmn]
    · rw [update_of_ne hij]

omit [DecidableEq ν] in
theorem kept_of_settled (h : Inv s) {r : Role ν α φ} (hi : ∀ m o, s.role i ≠ .settled m o) {m : ν} {b : α}
    (hk : s.kept m = some (j, b)) : update s.role i r j = .settled m (.ok b) := by
  have hj := (h.kept m j b hk).1
  have hne : j ≠ i := by
    rintro rfl
    exact hi _ _ hj
  exact (update_of_ne hne _ _).trans hj

theorem step_inv (h : Inv s) (hst : Step s t) : Inv t := by
  cases hst with
  | ask i n hi =>
      refine ⟨flight_iff_update h (by simp [hi]) (by simp), fun m j b hk => ⟨?_, (h.kept m j b hk).2⟩⟩
      exact kept_of_settled h (by simp [hi]) hk
  | own i n hi hf hk =>
      refine ⟨flight_iff_own h hi hf, fun m j b hkm => ⟨kept_of_settled h (by simp [hi]) hkm, ?_⟩⟩
      have hmn : m ≠ n := by
        rintro rfl
        rw [hk] at hkm
        cases hkm
      exact (update_of_ne hmn _ _).trans (h.kept m j b hkm).2
  | succeed i n a hi =>
      refine ⟨flight_iff_settle h hi _, fun m j b hkm => ?_⟩
      by_cases hmn : m = n
      · subst hmn
        simp only [update_self, Option.some.injEq, Prod.mk.injEq] at hkm
        obtain ⟨rfl, rfl⟩ := hkm
        exact ⟨update_self .., update_self ..⟩
      · simp only [update_of_ne hmn] at hkm ⊢
        exact ⟨kept_of_settled h (by simp [hi]) hkm, (h.kept m j b hkm).2⟩
  | fail i n e hi =>
      refine ⟨flight_iff_settle h hi _, fun m j b hkm => ⟨kept_of_settled h (by simp [hi]) hkm, ?_⟩⟩
      by_cases hmn : m = n
      · subst hmn
        exact update_self ..
      · exact (update_of_ne hmn _ _).trans (h.kept m j b hkm).2

theorem inv : (system : System (State ι ν α φ)).Invariant Inv where
  init s hs := by
    subst hs
    exact ⟨by simp [init], by simp [init]⟩
  step _ _ h hst := step_inv h hst

/-- What a caller loaded itself is kept. -/
theorem step_settled_kept (h : Inv s) (hk : ∀ i n a, s.role i = .settled n (.ok a) → s.kept n = some (i, a))
    (hst : Step s t) : ∀ i n a, t.role i = .settled n (.ok a) → t.kept n = some (i, a) := by
  intro j m b hj
  cases hst with
  | ask i n hi | own i n hi hf hk' | fail i n e hi =>
      by_cases hij : j = i
      · subst hij
        simp only [update_self] at hj
        cases hj
      · simp only [update_of_ne hij] at hj
        exact hk j m b hj
  | succeed i n a hi =>
      by_cases hij : j = i
      · subst hij
        simp only [update_self, Role.settled.injEq, Except.ok.injEq] at hj
        obtain ⟨rfl, rfl⟩ := hj
        exact update_self ..
      · simp only [update_of_ne hij] at hj
        have hkept := hk j m b hj
        have hmn : m ≠ n := by
          rintro rfl
          exact h.not_loading_of_kept hkept hi
        exact (update_of_ne hmn _ _).trans hkept

theorem settled_kept : (system : System (State ι ν α φ)).Invariant fun s =>
    Inv s ∧ ∀ i n a, s.role i = .settled n (.ok a) → s.kept n = some (i, a) :=
  inv.and (fun s hs => by subst hs; simp [init]) fun _ _ h hk hst => step_settled_kept h hk hst

/-- At most one caller ever loads a value. -/
theorem succeeded_unique {b : α} (h : (system : System (State ι ν α φ)).Reachable s) (hi : s.role i = .settled n (.ok a))
    (hj : s.role j = .settled n (.ok b)) : i = j := by
  have hk := (settled_kept.reachable h).2
  exact (Prod.mk.inj (Option.some.inj ((hk i n a hi).symm.trans (hk j n b hj)))).1

end TheSeed.SingleFlight
