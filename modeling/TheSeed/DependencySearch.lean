import TheSeed.DependencyBounds

namespace TheSeed.DependencySearch

open DependencyLister DependencyRequest DependencyNeeds DependencyBounds Function Relation

/-! The search from one input: a walk over the nodes that do not have its stamp yet. -/

variable {graph : DependencyGraph} {before seen : NodeId → Nat} {queue order : List NodeId} {stamp index : Nat}
  {id : NodeId}

/-- The nodes in the queue have the stamp, and the others the mark from before the search. -/
def Marks (before : NodeId → Nat) (stamp : Nat) (seen : NodeId → Nat) (queue : List NodeId) : Prop :=
  ∀ id, seen id = if id ∈ queue then stamp else before id

/-- The successors that did not have the stamp before the search. -/
def unmarked (graph : DependencyGraph) (before : NodeId → Nat) (stamp : Nat) (id : NodeId) : List NodeId :=
  (successorsOf graph id).filter fun next => before next ≠ stamp

/-- The numbers of successors are those of nodes. -/
def Closed (graph : DependencyGraph) : Prop := ∀ a, ∀ b ∈ successorsOf graph a, b < graph.nodes.length

theorem Marks.start (before : NodeId → Nat) (stamp : Nat) : Marks before stamp before [] := fun _ => (if_neg (by simp)).symm

theorem Marks.enqueue (news : List NodeId) : ∀ {seen : NodeId → Nat} {queue : List NodeId}, Marks before stamp seen queue →
    (enqueue stamp seen queue news).2 = Worklist.join queue (news.filter fun next => before next ≠ stamp) ∧
      Marks before stamp (enqueue stamp seen queue news).1 (enqueue stamp seen queue news).2 := by
  induction news with
  | nil => exact fun h => ⟨rfl, h⟩
  | cons next rest ih =>
    intro seen queue h
    rw [DependencyRequest.enqueue]
    by_cases hin : next ∈ queue
    · have hseen : seen next = stamp := by rw [h next, if_pos hin]
      have hjoin : Worklist.join queue ((next :: rest).filter fun next => before next ≠ stamp) =
          Worklist.join queue (rest.filter fun next => before next ≠ stamp) := by
        rw [List.filter_cons]
        split
        · rw [Worklist.join, if_pos hin]
        · rfl
      rw [if_neg (not_not.mpr hseen), hjoin]
      exact ih h
    · have hseen : seen next = before next := by rw [h next, if_neg hin]
      by_cases hmark : before next = stamp
      · rw [if_neg (by rw [hseen, hmark]; simp), List.filter_cons_of_neg (by simp [hmark])]
        exact ih h
      · rw [if_pos (by rwa [hseen]), List.filter_cons_of_pos (by simp [hmark]), Worklist.join, if_neg hin]
        refine ih fun id => ?_
        by_cases hid : id = next
        · subst hid
          rw [update_self, if_pos (List.mem_append_right _ List.mem_cons_self)]
        · rw [update_of_ne hid, h id]
          simp [hid]

/-- The loop is the walk, and credits each node of the walk once. -/
theorem creditLoop_walk (fuel : Nat) : ∀ {state : Credits} {queue : List NodeId} {head : Nat},
    Marks before stamp state.seen queue → Worklist.walk (unmarked graph before stamp) fuel queue head = some order →
    order.Nodup → ∃ after, creditLoop graph index stamp fuel state queue head = some after ∧
      Marks before stamp after.seen order ∧
      ∀ id, after.credits id = state.credits id ++ if id ∈ order.drop head then [index] else [] := by
  induction fuel with
  | zero => exact fun _ hwalk => nomatch hwalk
  | succ fuel ih =>
    intro state queue head hmarks hwalk hnodup
    rw [Worklist.walk] at hwalk
    rw [creditLoop]
    cases hat : queue[head]? with
    | none =>
      rw [hat] at hwalk
      cases hwalk
      refine ⟨state, rfl, hmarks, fun id => ?_⟩
      rw [List.drop_eq_nil_of_le (List.getElem?_eq_none_iff.mp hat), if_neg (by simp), List.append_nil]
    | some current =>
      rw [hat] at hwalk
      obtain ⟨hqueue, hmarks'⟩ := hmarks.enqueue (successorsOf graph current)
      have hrest : Worklist.walk (unmarked graph before stamp) fuel
          (enqueue stamp state.seen queue (successorsOf graph current)).2 (head + 1) = some order := by
        rw [hqueue]
        exact hwalk
      obtain ⟨after, hafter, hseen, hcredits⟩ := @ih ⟨(enqueue stamp state.seen queue (successorsOf graph current)).1,
        update state.credits current (state.credits current ++ [index])⟩ _ _ hmarks' hrest hnodup
      refine ⟨after, hafter, hseen, fun id => ?_⟩
      have hgrows := Worklist.walk_grows fuel hwalk
      obtain ⟨more, hmore⟩ := (Worklist.join_grows queue (unmarked graph before stamp current)).trans hgrows
      have hget : order[head]? = some current := by
        rw [← hmore, List.getElem?_append_left (List.getElem?_eq_some_iff.mp hat).1, hat]
      obtain ⟨hlt, hcurrent⟩ := List.getElem?_eq_some_iff.mp hget
      have hdrop : order.drop head = current :: order.drop (head + 1) := by
        rw [List.drop_eq_getElem_cons hlt, hcurrent]
      have hfresh : current ∉ order.drop (head + 1) := by
        have hpart := hnodup.sublist (List.drop_sublist head order)
        rw [hdrop] at hpart
        exact (List.nodup_cons.mp hpart).1
      rw [hcredits id, hdrop]
      by_cases hid : id = current
      · subst hid
        rw [if_neg hfresh, if_pos List.mem_cons_self, List.append_nil]
        exact update_self ..
      · have hupdate : update state.credits current (state.credits current ++ [index]) id = state.credits id :=
          update_of_ne hid ..
        simp only [hupdate, List.mem_cons, hid, false_or]

/-- What the search from an input finds. -/
structure Searched (graph : DependencyGraph) (state : Credits) (input : Input) (index : Nat) (after : Credits)
    (order : List NodeId) : Prop where
  run : creditInput graph state input index = some after
  marks : Marks state.seen ((index + 1) % 2 ^ 32) after.seen order
  credits : ∀ id, after.credits id = state.credits id ++ if id ∈ order then [index % 2 ^ 32] else []
  found : ∀ id, id ∈ order ↔ ∃ first ∈ unmarked graph state.seen ((index + 1) % 2 ^ 32) input.node,
    ReflTransGen (fun a b => b ∈ unmarked graph state.seen ((index + 1) % 2 ^ 32) a) first id

theorem creditInput_searched (hclosed : Closed graph) (state : Credits) (input : Input) (index : Nat) :
    ∃ after order, Searched graph state input index after order := by
  have hstart := (Marks.start state.seen ((index + 1) % 2 ^ 32)).enqueue (successorsOf graph input.node)
  have hnext (a : NodeId) : ∀ b ∈ unmarked graph state.seen ((index + 1) % 2 ^ 32) a,
      b ∈ List.range graph.nodes.length :=
    fun b hb => List.mem_range.mpr (hclosed a b (List.mem_filter.mp hb).1)
  have hqueue (id : NodeId) : id ∈ Worklist.join [] (unmarked graph state.seen ((index + 1) % 2 ^ 32) input.node) ↔
      id ∈ unmarked graph state.seen ((index + 1) % 2 ^ 32) input.node := by
    rw [Worklist.mem_join]
    simp
  have hnodup := Worklist.join_nodup List.nodup_nil (unmarked graph state.seen ((index + 1) % 2 ^ 32) input.node)
  obtain ⟨order, hwalk, hfound⟩ := @Worklist.walk_spec _ _ (unmarked graph state.seen ((index + 1) % 2 ^ 32))
    (List.range graph.nodes.length) (fun a _ => hnext a) (graph.nodes.length + 1) _ 0 hnodup
    (fun id hid => hnext input.node id ((hqueue id).mp hid)) (Nat.zero_le _)
    (by rw [List.length_range, Nat.add_zero]) (fun i _ hi => absurd hi (Nat.not_lt_zero i))
  have horder := Worklist.walk_nodup _ hnodup hwalk
  obtain ⟨hjoined, hmarks⟩ := hstart
  rw [hjoined] at hmarks
  obtain ⟨after, hafter, hseen, hcredits⟩ := @creditLoop_walk graph state.seen order _ (index % 2 ^ 32) _
    { state with seen := (enqueue ((index + 1) % 2 ^ 32) state.seen [] (successorsOf graph input.node)).1 } _ _
    hmarks hwalk horder
  refine ⟨after, order, ?_, hseen, hcredits, fun id => (hfound id).trans ?_⟩
  · rw [creditInput]
    simp only [hjoined]
    exact hafter
  · simp only [hqueue]

theorem creditAll_isSome (hclosed : Closed graph) (inputs : List Input) : ∀ (state : Credits) (index : Nat),
    ∃ after, creditAll graph state inputs index = some after := by
  induction inputs with
  | nil => exact fun state _ => ⟨state, rfl⟩
  | cons input rest ih =>
    intro state index
    obtain ⟨mid, order, hsearched⟩ := creditInput_searched hclosed state input index
    obtain ⟨after, hafter⟩ := ih mid (index + 1)
    refine ⟨after, ?_⟩
    rw [creditAll, hsearched.run]
    exact hafter

/-- The nodes that come from looking up a file's names are nodes of the graph. -/
theorem closed_of_represents {world : World} {searchPaths : List Text} (h : Represents world searchPaths none graph) :
    Closed graph := by
  intro a b hb
  rw [successorsOf] at hb
  cases hnode : graph.nodes[a]? with
  | none =>
    rw [hnode] at hb
    cases hb
  | some node =>
    rw [hnode] at hb
    have hb : b ∈ node.successors := hb
    cases h.nodes a node hnode (by simp) with
    | missing name => cases hb
    | file hnew =>
      obtain ⟨path, -, rfl⟩ := hnew
      rw [(newFileNode_expanded _ _ _).2] at hb
      cases hb
    | expanded _ _ hids =>
      obtain ⟨i, hi⟩ := List.mem_iff_getElem?.mp hb
      obtain ⟨name, -, hid⟩ := Checked.forall₂_getElem? hids.flip hi
      exact IsNode.lt hid

end TheSeed.DependencySearch
