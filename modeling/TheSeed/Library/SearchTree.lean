import Mathlib.Data.List.Nodup

namespace TheSeed.SearchTree

/-! Binary search trees whose nodes are numbers: their order, and the search for one of them. -/

/-- Two links for each node; `stop` is the link to no node. -/
structure Links where
  left : Nat → Nat
  right : Nat → Nat
  stop : Nat

/-- The nodes below a link, in order. -/
inductive InOrder (L : Links) : Nat → List Nat → Prop
  | stop : InOrder L L.stop []
  | node {id : Nat} {before after : List Nat} (hne : id ≠ L.stop) (hl : InOrder L (L.left id) before)
      (hr : InOrder L (L.right id) after) : InOrder L id (before ++ id :: after)

/-- The nodes that links lead to. -/
inductive Reached (L : Links) (start : Nat) : Nat → Prop
  | start (hne : start ≠ L.stop) : Reached L start start
  | left {id : Nat} (h : Reached L start id) (hne : L.left id ≠ L.stop) : Reached L start (L.left id)
  | right {id : Nat} (h : Reached L start id) (hne : L.right id ≠ L.stop) : Reached L start (L.right id)

/-- The nodes below a link are in a range, each between those of its two subtrees; a subtree without nodes
can leave a gap. -/
inductive Spans (L : Links) (gap : Nat → Nat → Prop) : Nat → Nat → Nat → Prop
  | stop {low high : Nat} (h : gap low high) : Spans L gap L.stop low high
  | node {position low high : Nat} (hne : position ≠ L.stop) (hlow : low ≤ position) (hhigh : position < high)
      (hl : Spans L gap (L.left position) low position) (hr : Spans L gap (L.right position) (position + 1) high) :
      Spans L gap position low high

/-- The search in at most so many steps, with how what is sought compares with each node. -/
def search (L : Links) (compare : Nat → Ordering) : Nat → Nat → Option Nat
  | 0, _ => none
  | steps + 1, position =>
      if position = L.stop then none
      else
        match compare position with
        | .eq => some position
        | .lt => search L compare steps (L.left position)
        | .gt => search L compare steps (L.right position)

variable {L L' : Links} {gap : Nat → Nat → Prop} {compare : Nat → Ordering} {start id position low high steps : Nat}
  {ids order : List Nat}

theorem InOrder.unique {other : List Nat} (h : InOrder L start ids) (h' : InOrder L start other) : ids = other := by
  induction h generalizing other with
  | stop =>
      cases h' with
      | stop => rfl
      | node hne => exact absurd rfl hne
  | node hne _ _ ihl ihr =>
      cases h' with
      | stop => exact absurd rfl hne
      | node _ hl' hr' => rw [ihl hl', ihr hr']

theorem Reached.trans {mid : Nat} (h : Reached L start mid) (h' : Reached L mid id) : Reached L start id := by
  induction h' with
  | start => exact h
  | left _ hne ih => exact .left ih hne
  | right _ hne ih => exact .right ih hne

theorem InOrder.ne_stop (h : InOrder L start ids) (hid : id ∈ ids) : start ≠ L.stop := by
  cases h with
  | stop => cases hid
  | node hne => exact hne

theorem InOrder.reached (h : InOrder L start ids) (hid : id ∈ ids) : Reached L start id := by
  induction h with
  | stop => cases hid
  | node hne hl hr ihl ihr =>
      rcases List.mem_append.1 hid with hid | hid
      · exact (Reached.left (.start hne) (hl.ne_stop hid)).trans (ihl hid)
      · rcases List.mem_cons.1 hid with rfl | hid
        · exact .start hne
        · exact (Reached.right (.start hne) (hr.ne_stop hid)).trans (ihr hid)

theorem Spans.mono {gap' : Nat → Nat → Prop} (h : Spans L gap start low high)
    (hgap : ∀ low high, gap low high → gap' low high) : Spans L gap' start low high := by
  induction h with
  | stop hg => exact .stop (hgap _ _ hg)
  | node hne hlow hhigh _ _ ihl ihr => exact .node hne hlow hhigh ihl ihr

/-! The kept nodes of a tree, numbered in order -/

/-- The places of the kept nodes of an order, and the links between the places. -/
structure Placed (L L' : Links) (kept : Nat → Bool) (order : List Nat) (place : Nat → Nat) : Prop where
  at_place : ∀ p id, (order.filter kept)[p]? = some id → place id = p
  valid : ∀ p id, (order.filter kept)[p]? = some id → p ≠ L'.stop
  left : ∀ p id, (order.filter kept)[p]? = some id → L'.left p = place (L.left id)
  right : ∀ p id, (order.filter kept)[p]? = some id → L'.right p = place (L.right id)
  outside : ∀ id, id ∉ order.filter kept → place id = L'.stop
  stop : L.stop ∉ order

/-- The places span a range, without gaps where all the nodes are kept. -/
theorem InOrder.spans {kept : Nat → Bool} {place : Nat → Nat} (hp : Placed L L' kept order place)
    (h : InOrder L start ids) {pre post : List Nat} (horder : order = pre ++ ids ++ post) :
    Spans L' (fun low high => (∀ id ∈ order, kept id = true) → low = high) (place start)
      (pre.filter kept).length ((pre ++ ids).filter kept).length := by
  induction h generalizing pre post with
  | stop =>
      rw [hp.outside _ fun h => hp.stop (List.mem_filter.1 h).1, List.append_nil]
      exact .stop fun _ => rfl
  | @node id before after hne hl hr ihl ihr =>
      by_cases hkept : kept id = true
      · have hget : (order.filter kept)[((pre ++ before).filter kept).length]? = some id := by
          have hsplit : order = pre ++ before ++ (id :: (after ++ post)) := by simp [horder]
          rw [hsplit, List.filter_append, List.getElem?_append_right (Nat.le_refl _), Nat.sub_self,
            List.filter_cons_of_pos hkept]
          rfl
        have hleft := ihl (by simp [horder] : order = pre ++ before ++ (id :: after ++ post))
        have hright := ihr (by simp [horder] : order = pre ++ before ++ [id] ++ after ++ post)
        have hnext : ((pre ++ before ++ [id]).filter kept).length = ((pre ++ before).filter kept).length + 1 := by
          rw [List.filter_append, List.length_append, List.filter_cons_of_pos hkept]
          rfl
        have hall : pre ++ before ++ [id] ++ after = pre ++ (before ++ id :: after) := by simp
        rw [hnext, hall, ← hp.right _ _ hget] at hright
        rw [← hp.left _ _ hget] at hleft
        rw [hp.at_place _ _ hget]
        have hend : (pre.filter kept).length + (before.filter kept).length + 1 + (after.filter kept).length =
            ((pre ++ (before ++ id :: after)).filter kept).length := by
          simp only [List.filter_append, List.length_append, List.filter_cons_of_pos hkept, List.length_cons]
          omega
        have hhere : ((pre ++ before).filter kept).length = (pre.filter kept).length + (before.filter kept).length := by
          rw [List.filter_append, List.length_append]
        exact .node (hp.valid _ _ hget) (by omega) (by omega) hleft hright
      · rw [hp.outside _ fun h => hkept (List.mem_filter.1 h).2]
        refine .stop fun hall => absurd (hall id ?_) hkept
        simp [horder]

/-! The search -/

theorem search_sound (h : search L compare steps start = some position) : compare position = .eq := by
  induction steps generalizing start with
  | zero => cases h
  | succ steps ih =>
      rw [search] at h
      split at h
      · cases h
      · split at h
        case h_1 heq =>
          cases h
          exact heq
        case h_2 => exact ih h
        case h_3 => exact ih h

/-- Enough steps are not cut off. -/
theorem Spans.search_steps (h : Spans L gap start low high) {more : Nat} (hsteps : high - low < steps)
    (hmore : high - low < more) : search L compare steps start = search L compare more start := by
  induction h generalizing steps more with
  | stop =>
      obtain ⟨steps, rfl⟩ := Nat.exists_eq_add_of_lt hsteps
      obtain ⟨more, rfl⟩ := Nat.exists_eq_add_of_lt hmore
      rw [search, search, if_pos rfl, if_pos rfl]
  | @node position low high hne hlow hhigh _ _ ihl ihr =>
      obtain ⟨steps, rfl⟩ := Nat.exists_eq_add_of_lt hsteps
      obtain ⟨more, rfl⟩ := Nat.exists_eq_add_of_lt hmore
      rw [search, search, if_neg hne, if_neg hne, @ihl (high - low + steps) (high - low + more) (by omega) (by omega),
        @ihr (high - low + steps) (high - low + more) (by omega) (by omega)]

/-- What is sought is above the nodes before any that it is not below. -/
def Separates (compare : Nat → Ordering) (low high : Nat) : Prop :=
  ∀ i j, low ≤ i → i < j → j < high → compare j ≠ .lt → compare i = .gt

theorem Separates.mono {low' high' : Nat} (h : Separates compare low high) (hlow : low ≤ low') (hhigh : high' ≤ high) :
    Separates compare low' high' :=
  fun i j hi hij hj => h i j (Nat.le_trans hlow hi) hij (Nat.lt_of_lt_of_le hj hhigh)

/-- The search of a tree without gaps finds exactly what is there. -/
theorem Spans.search_eq_some_iff (h : Spans L (· = ·) start low high) (hsep : Separates compare low high)
    (hsteps : high - low < steps) :
    search L compare steps start = some id ↔ low ≤ id ∧ id < high ∧ compare id = .eq := by
  induction h generalizing steps with
  | stop heq =>
      obtain ⟨steps, rfl⟩ := Nat.exists_eq_add_of_lt hsteps
      rw [search, if_pos rfl]
      constructor
      · intro h
        cases h
      · omega
  | @node position low high hne hlow hhigh _ _ ihl ihr =>
      obtain ⟨steps, rfl⟩ := Nat.exists_eq_add_of_lt hsteps
      rw [search, if_neg hne]
      cases hc : compare position with
      | eq =>
          simp only [Option.some.injEq]
          constructor
          · rintro rfl
            exact ⟨hlow, hhigh, hc⟩
          · rintro ⟨hl, hh, heq⟩
            rcases Nat.lt_trichotomy position id with hlt | rfl | hlt
            · have hgt := hsep position id hlow hlt hh (by simp [heq])
              simp [hc] at hgt
            · rfl
            · have hgt := hsep id position hl hlt hhigh (by simp [hc])
              simp [heq] at hgt
      | lt =>
          simp only
          rw [ihl (hsep.mono (Nat.le_refl _) (Nat.le_of_lt hhigh)) (by omega)]
          refine ⟨fun ⟨hl, hh, heq⟩ => ⟨hl, Nat.lt_trans hh hhigh, heq⟩, fun ⟨hl, hh, heq⟩ => ⟨hl, ?_, heq⟩⟩
          by_contra hge
          rcases Nat.eq_or_lt_of_le (Nat.le_of_not_lt hge) with rfl | hlt
          · simp [hc] at heq
          · have hgt := hsep position id hlow hlt hh (by simp [heq])
            simp [hc] at hgt
      | gt =>
          simp only
          rw [ihr (hsep.mono (Nat.le_succ_of_le hlow) (Nat.le_refl _)) (by omega)]
          refine ⟨fun ⟨hl, hh, heq⟩ => ⟨by omega, hh, heq⟩, fun ⟨hl, hh, heq⟩ => ⟨?_, hh, heq⟩⟩
          by_contra hge
          rcases Nat.eq_or_lt_of_le (Nat.le_of_lt_succ (Nat.lt_of_not_le hge)) with rfl | hlt
          · simp [hc] at heq
          · have hgt := hsep id position hl hlt hhigh (by simp [hc])
            simp [heq] at hgt

end TheSeed.SearchTree
