import Mathlib.Algebra.Order.Floor.Div
import Mathlib.Order.Bounds.Basic

namespace TheSeed.Climb

/-! A step on numbers, repeated from below until it changes nothing: it climbs to the least fixed point, in a few
rounds when it brings numbers closer to each other. -/

variable {step : Nat → Nat} {c k low top stop x y : Nat}

/-- The repetition that finds, within some rounds, the number the step leaves as it is. -/
inductive Stops (step : Nat → Nat) : Nat → Nat → Nat → Prop
  | here {rounds low : Nat} (h : step low = low) : Stops step (rounds + 1) low low
  | onward {rounds low stop : Nat} (hne : step low ≠ low) (h : Stops step rounds (step low) stop) :
      Stops step (rounds + 1) low stop

theorem Stops.fixed {rounds : Nat} (h : Stops step rounds low stop) : step stop = stop := by
  induction h with
  | here h => exact h
  | onward _ _ ih => exact ih

/-- From below a number that the step does not raise, a monotone step stays below it. -/
theorem Stops.le {rounds : Nat} (h : Stops step rounds low stop) (hmono : Monotone step) (htop : step top ≤ top)
    (hat : low ≤ top) : stop ≤ top := by
  induction h with
  | here _ => exact hat
  | onward _ _ ih => exact ih ((hmono hat).trans htop)

theorem Stops.isLeast {rounds : Nat} (h : Stops step rounds 0 stop) (hmono : Monotone step) :
    IsLeast {x | step x = x} stop :=
  ⟨h.fixed, fun _ hfixed => h.le hmono (le_of_eq hfixed) (Nat.zero_le _)⟩

/-- The least fixed point of a monotone step lies below every number the step does not raise. -/
theorem exists_least (hmono : Monotone step) (htop : step top ≤ top) : ∃ stop ≤ top, IsLeast {x | step x = x} stop := by
  classical
  have hsome : ∃ x, step x ≤ x := ⟨top, htop⟩
  have hlow : step (Nat.find hsome) ≤ Nat.find hsome := Nat.find_spec hsome
  have hfixed : step (Nat.find hsome) = Nat.find hsome := le_antisymm hlow (Nat.find_min' hsome (hmono hlow))
  exact ⟨_, Nat.find_min' hsome htop, hfixed, fun x hx => Nat.find_min' hsome (le_of_eq hx)⟩

/-- The distance of two values of the step is that of the numbers divided by `c`, rounded up. -/
def Contracts (step : Nat → Nat) (c : Nat) : Prop := ∀ x d, step (x + d) ≤ step x + d ⌈/⌉ c

theorem le_pow_of_ceilDiv {d : Nat} (hc : 0 < c) (h : d ≤ c ^ (k + 1)) : d ⌈/⌉ c ≤ c ^ k := by
  rw [ceilDiv_le_iff_le_mul hc, ← Nat.pow_succ']
  exact h

/-- One round for each power of `c`, one for the last step and one to see that nothing changes. -/
theorem stops_of_distance (hmono : Monotone step) (hcontracts : Contracts step c) (hc : 0 < c)
    (hleast : IsLeast {x | step x = x} top) : ∀ k low : Nat, low ≤ top → low ≤ step low → top - low ≤ c ^ k →
      Stops step (k + 2) low top
  | k, low, hat, hup, hnear => by
      by_cases hstill : step low = low
      · have htop : low = top := le_antisymm hat (hleast.2 hstill)
        subst htop
        exact .here hstill
      have hbelow : step low ≤ top := (hmono hat).trans (le_of_eq hleast.1)
      have hstrict : low < step low := lt_of_le_of_ne hup (Ne.symm hstill)
      refine .onward hstill ?_
      cases k with
      | zero =>
          have hlast : step low = top := by
            rw [pow_zero] at hnear
            omega
          rw [hlast]
          exact .here hleast.1
      | succ k =>
          have hnext := hcontracts low (top - low)
          rw [Nat.add_sub_cancel' hat, hleast.1] at hnext
          have hclose := le_pow_of_ceilDiv hc hnear
          exact stops_of_distance hmono hcontracts hc hleast k (step low) hbelow (hmono hup) (by omega)

theorem stops_of_contracts (hmono : Monotone step) (hcontracts : Contracts step c) (hc : 0 < c) (htop : step top ≤ top)
    (hfew : top ≤ c ^ k) : ∃ stop ≤ top, Stops step (k + 2) 0 stop := by
  obtain ⟨stop, hle, hleast⟩ := exists_least hmono htop
  exact ⟨stop, hle, stops_of_distance hmono hcontracts hc hleast k 0 (Nat.zero_le _) (Nat.zero_le _) (by omega)⟩

theorem ceilDiv_add_le {a b : Nat} (hc : 0 < c) : (a + b) ⌈/⌉ c ≤ a ⌈/⌉ c + b ⌈/⌉ c := by
  have ha : a ≤ c * (a ⌈/⌉ c) := (ceilDiv_le_iff_le_mul hc).1 le_rfl
  have hb : b ≤ c * (b ⌈/⌉ c) := (ceilDiv_le_iff_le_mul hc).1 le_rfl
  rw [ceilDiv_le_iff_le_mul hc, Nat.mul_add]
  exact Nat.add_le_add ha hb

theorem ceilDiv_mono {a b : Nat} (hc : 0 < c) (h : a ≤ b) : a ⌈/⌉ c ≤ b ⌈/⌉ c := (gc_mul_ceilDiv hc).monotone_l h

end TheSeed.Climb
