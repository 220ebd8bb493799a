import Mathlib.Logic.Function.Basic
import Mathlib.Data.List.Nodup

namespace TheSeed.LinkedChain

open Function

/-! Chains of units in a table of links, and walks that give each unit they visit an owner. -/

variable {ε : Type}

/-- A table of links, with the failures a walk through it reports. -/
structure Table (ε : Type) where
  stop : Nat
  check : Nat → Except ε Unit
  next : Nat → Except ε Nat
  loop : Nat → ε
  shared : Nat → ε
  unending : ε

/-- The owner of each unit; zero is none. -/
abbrev Owners := Nat → Nat

def claim (owner : Owners) (chain : List Nat) (id : Nat) : Owners :=
  fun unit => if unit ∈ chain then id else owner unit

def walk (T : Table ε) (id : Nat) : Nat → Nat → Owners → Except ε (List Nat) × Owners
  | 0, _, owner => (.error T.unending, owner)
  | fuel + 1, current, owner =>
      if current = T.stop then (.ok [], owner)
      else
        match T.check current with
        | .error e => (.error e, owner)
        | .ok _ =>
            if owner current = id then (.error (T.loop current), owner)
            else if owner current ≠ 0 then (.error (T.shared current), owner)
            else
              match T.next current with
              | .error e => (.error e, update owner current id)
              | .ok next =>
                  let walked := walk T id fuel next (update owner current id)
                  (walked.1.map (current :: ·), walked.2)

/-- The units from `start` to the end of its chain. -/
inductive Chain (T : Table ε) : Nat → List Nat → Prop
  | stop : Chain T T.stop []
  | link {unit next : Nat} {rest : List Nat} (hne : unit ≠ T.stop) (hc : T.check unit = .ok ())
      (hn : T.next unit = .ok next) (h : Chain T next rest) : Chain T unit (unit :: rest)

variable {T : Table ε} {id fuel start unit : Nat} {owner : Owners} {chain : List Nat}

@[simp] theorem claim_nil : claim owner [] id = owner := by
  funext unit
  simp [claim]

theorem claim_cons : claim (update owner unit id) chain id = claim owner (unit :: chain) id := by
  funext other
  by_cases h : other = unit
  · simp [claim, h]
  · simp [claim, h]

theorem claim_of_mem (h : unit ∈ chain) : claim owner chain id unit = id := if_pos h

theorem claim_of_not_mem (h : unit ∉ chain) : claim owner chain id unit = owner unit := if_neg h

theorem claim_eq_zero (hid : chain ≠ [] → id ≠ 0) : claim owner chain id unit = 0 ↔ unit ∉ chain ∧ owner unit = 0 := by
  by_cases h : unit ∈ chain
  · rw [claim_of_mem h]
    exact ⟨fun hz => absurd hz (hid (List.ne_nil_of_mem h)), fun hz => absurd h hz.1⟩
  · rw [claim_of_not_mem h]
    exact ⟨fun hz => ⟨h, hz⟩, fun hz => hz.2⟩

theorem Chain.unique {other : List Nat} (h : Chain T start chain) (h' : Chain T start other) : chain = other := by
  induction h generalizing other with
  | stop =>
      cases h' with
      | stop => rfl
      | link hne => exact absurd rfl hne
  | link hne hc hn _ ih =>
      cases h' with
      | stop => exact absurd rfl hne
      | link _ _ hn' h' =>
          rw [hn] at hn'
          cases hn'
          rw [ih h']

/-- Consecutive units, each linked to the next one, are a chain. -/
theorem Chain.run {first count : Nat} (hpos : 0 < count) (hne : ∀ unit, first ≤ unit → unit < first + count → unit ≠ T.stop)
    (hcheck : ∀ unit, first ≤ unit → unit < first + count → T.check unit = .ok ())
    (hnext : ∀ unit, first ≤ unit → unit < first + count →
      T.next unit = .ok (if unit + 1 = first + count then T.stop else unit + 1)) :
    Chain T first (List.range' first count) := by
  induction count generalizing first with
  | zero => exact absurd hpos (Nat.lt_irrefl 0)
  | succ count ih =>
      have hlink := hnext first (Nat.le_refl _) (by omega)
      rw [List.range'_succ]
      apply Chain.link (hne first (Nat.le_refl _) (by omega)) (hcheck first (Nat.le_refl _) (by omega)) hlink
      cases count with
      | zero =>
          rw [if_pos rfl]
          exact .stop
      | succ count =>
          rw [if_neg (by omega)]
          apply ih (Nat.succ_pos _)
          · exact fun unit hlow hhigh => hne unit (by omega) (by omega)
          · exact fun unit hlow hhigh => hcheck unit (by omega) (by omega)
          · intro unit hlow hhigh
            rw [hnext unit (by omega) (by omega)]
            have hend : first + 1 + (count + 1) = first + (count + 1 + 1) := by omega
            rw [hend]

theorem Chain.suffix (h : Chain T start chain) (hm : unit ∈ chain) :
    ∃ rest, Chain T unit rest ∧ rest.length ≤ chain.length := by
  induction h with
  | stop => cases hm
  | @link first next rest hne hc hn h ih =>
      rcases List.mem_cons.1 hm with rfl | hm
      · exact ⟨_, .link hne hc hn h, Nat.le_refl _⟩
      · obtain ⟨tail, ht, hlen⟩ := ih hm
        exact ⟨tail, ht, Nat.le_succ_of_le hlen⟩

/-- A chain that ends comes to no unit twice. -/
theorem Chain.nodup (h : Chain T start chain) : chain.Nodup := by
  induction h with
  | stop => exact List.nodup_nil
  | @link first next rest hne hc hn h ih =>
      refine List.nodup_cons.2 ⟨fun hm => ?_, ih⟩
      obtain ⟨tail, ht, hlen⟩ := h.suffix hm
      have heq := ht.unique (.link hne hc hn h)
      rw [heq, List.length_cons] at hlen
      omega

theorem Chain.ne_stop (h : Chain T start chain) : ∀ unit ∈ chain, unit ≠ T.stop := by
  induction h with
  | stop => exact fun unit hunit => absurd hunit List.not_mem_nil
  | link hne _ _ _ ih => exact List.forall_mem_cons.2 ⟨hne, ih⟩

theorem Chain.check (h : Chain T start chain) : ∀ unit ∈ chain, T.check unit = .ok () := by
  induction h with
  | stop => nofun
  | link _ hc _ _ ih =>
      intro unit hm
      rcases List.mem_cons.1 hm with rfl | hm
      · exact hc
      · exact ih unit hm

theorem walk_succ_eq_ok {owner' : Owners} : walk T id (fuel + 1) start owner = (.ok chain, owner') ↔
    start = T.stop ∧ chain = [] ∧ owner' = owner ∨
    (start ≠ T.stop ∧ T.check start = .ok () ∧ owner start = 0 ∧ id ≠ 0) ∧
      ∃ next rest, T.next start = .ok next ∧ chain = start :: rest ∧
        walk T id fuel next (update owner start id) = (.ok rest, owner') := by
  rw [walk]
  by_cases hstop : start = T.stop
  · simp [hstop, eq_comm]
  · rw [if_neg hstop]
    cases hcheck : T.check start with
    | error e => simp [hstop]
    | ok u =>
        by_cases hid : owner start = id
        · simp only [if_pos hid, Prod.mk.injEq, reduceCtorEq, false_and, false_iff]
          rintro (⟨h, -⟩ | ⟨⟨-, -, h, h'⟩, -⟩)
          · exact hstop h
          · exact h' (hid.symm.trans h)
        · by_cases hzero : owner start = 0
          · have hid0 : id ≠ 0 := fun h => hid (hzero.trans h.symm)
            simp only [if_neg hid, if_neg (not_not.2 hzero)]
            cases hnext : T.next start with
            | error e => simp [hstop, hzero]
            | ok next =>
                rcases hw : walk T id fuel next (update owner start id) with ⟨r, owner''⟩
                cases r with
                | error e => simp [Except.map, hstop, hw]
                | ok rest => simp [Except.map, hstop, hzero, hid0, hw, eq_comm]
          · simp [hid, hzero, hstop]

theorem walk_eq_ok {owner' : Owners} : walk T id fuel start owner = (.ok chain, owner') ↔
    Chain T start chain ∧ chain.length < fuel ∧ (chain ≠ [] → id ≠ 0) ∧ (∀ unit ∈ chain, owner unit = 0) ∧
      owner' = claim owner chain id := by
  induction fuel generalizing start owner chain with
  | zero => simp [walk]
  | succ fuel ih =>
      rw [walk_succ_eq_ok]
      constructor
      · rintro (⟨rfl, rfl, rfl⟩ | ⟨⟨hne, hc, hfree, hid⟩, next, rest, hnext, rfl, hw⟩)
        · exact ⟨.stop, Nat.succ_pos _, by simp, by simp, claim_nil.symm⟩
        · obtain ⟨hchain, hlen, -, hrest, rfl⟩ := ih.1 hw
          refine ⟨.link hne hc hnext hchain, Nat.succ_lt_succ hlen, fun _ => hid, ?_, claim_cons⟩
          intro unit hm
          rcases List.mem_cons.1 hm with rfl | hm
          · exact hfree
          · have hu := hrest unit hm
            by_cases heq : unit = start
            · rw [heq, hfree]
            · rwa [update_of_ne heq] at hu
      · rintro ⟨hchain, hlen, hid, hfree, rfl⟩
        have hnodup := hchain.nodup
        cases hchain with
        | stop => exact .inl ⟨rfl, rfl, claim_nil⟩
        | @link _ next rest hne hc hnext hchain =>
            refine .inr ⟨⟨hne, hc, hfree start List.mem_cons_self, hid (by simp)⟩, next, rest, hnext, rfl, ?_⟩
            refine ih.2 ⟨hchain, Nat.lt_of_succ_lt_succ hlen, fun _ => hid (by simp), ?_, claim_cons.symm⟩
            intro unit hm
            have heq : unit ≠ start := fun heq => (List.nodup_cons.1 hnodup).1 (heq ▸ hm)
            rw [update_of_ne heq]
            exact hfree unit (List.mem_cons_of_mem _ hm)

/-- A walk never takes a unit from its owner, whether it ends well or not. -/
theorem walk_keeps (T : Table ε) (id fuel start : Nat) (owner : Owners) (h : owner unit ≠ 0) :
    (walk T id fuel start owner).2 unit = owner unit := by
  induction fuel generalizing start owner with
  | zero => rfl
  | succ fuel ih =>
      rw [walk]
      by_cases hstop : start = T.stop
      · rw [if_pos hstop]
      · rw [if_neg hstop]
        cases T.check start with
        | error e => rfl
        | ok u =>
            by_cases hid : owner start = id
            · rw [if_pos hid]
            · by_cases hzero : owner start ≠ 0
              · simp only [if_neg hid, if_pos hzero]
              · simp only [if_neg hid, if_neg hzero]
                have hne : unit ≠ start := by
                  rintro rfl
                  exact hzero h
                have hu : update owner start id unit = owner unit := update_of_ne hne _ _
                cases T.next start with
                | error e => exact hu
                | ok next => exact (ih next _ (by rwa [hu])).trans hu

end TheSeed.LinkedChain
