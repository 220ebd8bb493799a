import TheSeed.DependencyOrder
import TheSeed.ElfParser

namespace TheSeed.DependencyCredits

open DependencyLister DependencyRequest DependencyNeeds DependencyBounds DependencySearch DependencyOrder MachOLayout
  Function Relation ByteOrder

/-! Which inputs each file is credited to: those that reach it. -/

/-- A path that is resolved is resolved to itself again. -/
def Settled (world : World) : Prop := ∀ path key, world.canonical path = some key → world.canonical key = some key

/-- The node of the file with that key. -/
def filed (world : World) (key : Text) : DependencyNode := newFileNode world key key (world.canonical key).isSome

/-- A file that is parsed needs what its names stand for. -/
def Needs (world : World) (searchPaths : List Text) : Target → Target → Prop
  | .file key, t => (filed world key).status = .parsed ∧
      ∃ name ∈ (filed world key).refs, t = target world searchPaths ((filed world key).format = .pe) name
  | .missing _, _ => False

/-- The file of that spelling needs the target, directly or through other files. -/
def Reaches (world : World) (searchPaths : List Text) (s : Text) : Target → Prop :=
  TransGen (Needs world searchPaths) (.file (fileKey world s))

/-- A file that is there but cannot be read or parsed. -/
def Unreadable (world : World) : Target → Prop
  | .file key => (filed world key).status = .unreadable
  | .missing _ => False

/-- For each key, the sorted spellings of exactly the inputs that reach a target with the key, and no list for other keys. -/
def Lists (world : World) (xs : List Text) (reached : Text → Target → Prop) (listed : Text → Option (List Text)) : Prop :=
  ∀ key, (∀ names, listed key = some names → names.Pairwise (· < ·) ∧
      ∀ s, s ∈ names ↔ Least world xs s ∧ ∃ t, t.key = key ∧ reached s t) ∧
    ((listed key).isSome ↔ ∃ s, Least world xs s ∧ ∃ t, t.key = key ∧ reached s t)

structure Reachability (world : World) (searchPaths xs : List Text) (result : DependencyResult) : Prop where
  dependencies : Lists world xs (Reaches world searchPaths) result.dependencies
  libraryErrors : Lists world xs (fun s t => Unreadable world t ∧ Reaches world searchPaths s t)
    fun key => (result.libraryErrors key).map LibraryError.inputs

/-- An input with a small number reaches the target. The last stamp is that of no mark, so that it does not count. -/
def Earlier (world : World) (searchPaths spelled : List Text) (t : Target) : Prop :=
  ∃ j s, j < 2 ^ 32 - 1 ∧ spelled[j]? = some s ∧ Reaches world searchPaths s t

/-- The input reaches the target through targets that inputs with smaller numbers reach. -/
def Shared (world : World) (searchPaths spelled : List Text) (s : Text) (t : Target) : Prop :=
  ∃ first, Needs world searchPaths (.file (fileKey world s)) first ∧ Earlier world searchPaths spelled first ∧
    ReflTransGen (Needs world searchPaths) first t

/-- The numbers of the inputs that need something fit in 32 bits. The input whose stamp is 0 reaches no key but through
targets that others reach. -/
structure Fits (world : World) (searchPaths spelled : List Text) : Prop where
  beyond : ∀ i s, 2 ^ 32 ≤ i → spelled[i]? = some s → ∀ t, ¬ Needs world searchPaths (.file (fileKey world s)) t
  last : ∀ s, spelled[2 ^ 32 - 1]? = some s → ∀ t, Reaches world searchPaths s t →
    (∃ u, u.key = t.key ∧ Shared world searchPaths spelled s u) ∧
      (Unreadable world t → ∃ u, u.key = t.key ∧ Unreadable world u ∧ Shared world searchPaths spelled s u)

section relations

variable {α β : Type} {S : α → α → Prop} {T : β → β → Prop} {stands : β → α → Prop} {a b : α} {t u : β}

/-- What holds of one step of two systems that go together holds of several. -/
theorem reflTransGen_transfer (h : ∀ t a b, stands t a → S a b → ∃ u, T t u ∧ stands u b) (ht : stands t a)
    (hsteps : ReflTransGen S a b) : ∃ u, ReflTransGen T t u ∧ stands u b := by
  induction hsteps with
  | refl => exact ⟨t, .refl, ht⟩
  | tail _ hstep ih =>
    obtain ⟨mid, hmid, hstands⟩ := ih
    obtain ⟨u, hu, hlast⟩ := h mid _ _ hstands hstep
    exact ⟨u, hmid.tail hu, hlast⟩

theorem transGen_transfer (h : ∀ t a b, stands t a → S a b → ∃ u, T t u ∧ stands u b) (ht : stands t a)
    (hsteps : TransGen S a b) : ∃ u, TransGen T t u ∧ stands u b := by
  obtain ⟨first, hfirst, hrest⟩ := TransGen.head'_iff.mp hsteps
  obtain ⟨u, hu, hstands⟩ := h t a first ht hfirst
  obtain ⟨v, hv, hlast⟩ := reflTransGen_transfer h hstands hrest
  exact ⟨v, TransGen.head' hu hv, hlast⟩

end relations

section graph

variable {world : World} {searchPaths : List Text} {graph : DependencyGraph} {t u : Target} {a b : NodeId} {key : Text}
  {node : DependencyNode}

/-- The status, the format and the names of a file do not depend on the path that led to it. -/
theorem filed_of_newNode (hs : Settled world) (h : NewNode world (.file key) node) :
    node.status = (filed world key).status ∧ node.refs = (filed world key).refs ∧
      node.format = (filed world key).format ∧ node.key = key := by
  obtain ⟨path, hpath, rfl⟩ := h
  cases hcanonical : world.canonical path with
  | none =>
    have hsame : path = key := by rwa [fileKey, hcanonical, Option.getD_none] at hpath
    subst hsame
    rw [filed, hcanonical]
    exact ⟨rfl, rfl, rfl, newFileNode_key _ _ _⟩
  | some other =>
    have hsame : other = key := by rwa [fileKey, hcanonical, Option.getD_some] at hpath
    subst hsame
    rw [filed, hs path other hcanonical]
    refine ⟨?_, ?_, ?_, newFileNode_key _ _ _⟩ <;> unfold newFileNode <;> split <;> rfl

def Succ (graph : DependencyGraph) (a b : NodeId) : Prop := b ∈ successorsOf graph a

theorem mem_forall₂ {α β : Type} {R : α → β → Prop} {xs : List α} {ys : List β} (h : List.Forall₂ R xs ys) {y : β}
    (hy : y ∈ ys) : ∃ x ∈ xs, R x y := by
  obtain ⟨i, hi⟩ := List.mem_iff_getElem?.mp hy
  obtain ⟨x, hx, hxy⟩ := Checked.forall₂_getElem? h.flip hi
  exact ⟨x, List.mem_of_getElem? hx, hxy⟩

/-- A node of a graph whose files are all looked up: what it stands for needs what its successors stand for. -/
theorem node_edges (hs : Settled world) (h : Represents world searchPaths none graph) (hdone : Done graph graph.nodes.length)
    (ht : IsNode graph t a) : (∀ b, Succ graph a b → ∃ u, Needs world searchPaths t u ∧ IsNode graph u b) ∧
      ∀ u, Needs world searchPaths t u → ∃ b, Succ graph a b ∧ IsNode graph u b := by
  obtain ⟨node, hnode, hof⟩ := Option.map_eq_some_iff.mp ht
  have hsuccessors : successorsOf graph a = node.successors := by rw [successorsOf, hnode]; rfl
  have hlt := (List.getElem?_eq_some_iff.mp hnode).1
  unfold Succ
  rw [hsuccessors]
  cases h.nodes a node hnode (by simp) with
  | missing name =>
    have ht : t = .missing name := hof.symm
    subst ht
    exact ⟨fun b hb => absurd hb List.not_mem_nil, fun u hu => hu.elim⟩
  | @file key _ hnew =>
    have ht : t = .file key := hof.symm.trans hnew.targetOf
    subst ht
    obtain ⟨hstatus, -⟩ := filed_of_newNode hs hnew
    obtain ⟨path, -, rfl⟩ := hnew
    refine ⟨fun b hb => ?_, fun u hu => ?_⟩
    · rw [(newFileNode_expanded _ _ _).2] at hb
      cases hb
    · have hexpanded := hdone a _ hlt hnode (hstatus.trans hu.1)
      rw [(newFileNode_expanded _ _ _).1] at hexpanded
      cases hexpanded
  | @expanded key node ids hnew hparsed hids =>
    have ht : t = .file key := by
      rw [← hof, ← hnew.targetOf]
      rfl
    subst ht
    obtain ⟨hstatus, hrefs, hformat, -⟩ := filed_of_newNode hs hnew
    rw [hrefs, hformat] at hids
    refine ⟨fun b hb => ?_, fun u hu => ?_⟩
    · obtain ⟨name, hname, hid⟩ := mem_forall₂ hids hb
      exact ⟨_, ⟨hstatus.symm.trans hparsed, name, hname, rfl⟩, hid⟩
    · obtain ⟨-, name, hname, rfl⟩ := hu
      obtain ⟨b, hb, hid⟩ := mem_forall₂ hids.flip hname
      exact ⟨b, hb, hid⟩

theorem isNode_unique (ht : IsNode graph t a) (hu : IsNode graph u a) : t = u := by
  rw [IsNode] at ht hu
  exact Option.some.inj (ht.symm.trans hu)

end graph

section progress

variable {graph : DependencyGraph} {inputs rest : List Input} {input : Input} {state after : Credits} {a b id : NodeId}
  {i j : Nat}

/-- The input of that number reaches the node. -/
def ReachedBy (graph : DependencyGraph) (inputs : List Input) (j : Nat) (id : NodeId) : Prop :=
  ∃ input, inputs[j]? = some input ∧ TransGen (Succ graph) input.node id

def ReachedEarlier (graph : DependencyGraph) (inputs : List Input) (id : NodeId) : Prop :=
  ∃ j, j < 2 ^ 32 - 1 ∧ ReachedBy graph inputs j id

/-- The marks and the credits after the searches from the first inputs, whose stamps differ and are not 0. -/
structure Progress (graph : DependencyGraph) (inputs : List Input) (i : Nat) (state : Credits) : Prop where
  below : ∀ id, state.seen id ≤ i
  marked : ∀ id, state.seen id ≠ 0 ↔ ∃ j, j < i ∧ ReachedBy graph inputs j id
  ascending : ∀ id, (state.credits id).Pairwise (· < ·)
  credited : ∀ id j, j ∈ state.credits id ↔ j < i ∧ ReachedBy graph inputs j id

theorem Progress.start : Progress graph inputs 0 {} := by
  refine ⟨fun _ => Nat.le_refl 0, fun id => ⟨fun h => absurd rfl h, ?_⟩, fun _ => .nil, fun id j => ⟨?_, ?_⟩⟩
  · rintro ⟨j, hj, -⟩
    exact absurd hj (Nat.not_lt_zero j)
  · exact fun h => nomatch h
  · exact fun h => absurd h.1 (Nat.not_lt_zero j)

theorem Progress.step (hclosed : Closed graph) (h : Progress graph inputs i state) (hi : i + 1 < 2 ^ 32)
    (hinput : inputs[i]? = some input) :
    ∃ after, creditInput graph state input i = some after ∧ Progress graph inputs (i + 1) after := by
  obtain ⟨after, order, hsearched⟩ := creditInput_searched hclosed state input i
  have hstamp : (i + 1) % 2 ^ 32 = i + 1 := Nat.mod_eq_of_lt hi
  have hunmarked (a : NodeId) : unmarked graph state.seen ((i + 1) % 2 ^ 32) a = successorsOf graph a := by
    rw [unmarked, List.filter_eq_self]
    intro next _
    have hle := h.below next
    rw [hstamp, decide_eq_true_eq]
    omega
  have horder (id : NodeId) : id ∈ order ↔ ReachedBy graph inputs i id := by
    rw [hsearched.found]
    simp only [hunmarked]
    constructor
    · rintro ⟨first, hfirst, hsteps⟩
      exact ⟨input, hinput, TransGen.head'_iff.mpr ⟨first, hfirst, hsteps⟩⟩
    · rintro ⟨same, hsame, hsteps⟩
      obtain rfl := Option.some.inj (hinput.symm.trans hsame)
      exact TransGen.head'_iff.mp hsteps
  have hlast (id : NodeId) : (∃ j, j < i + 1 ∧ ReachedBy graph inputs j id) ↔
      (∃ j, j < i ∧ ReachedBy graph inputs j id) ∨ id ∈ order := by
    rw [horder]
    constructor
    · rintro ⟨j, hj, hreached⟩
      rcases Nat.lt_succ_iff_lt_or_eq.mp hj with hj | rfl
      · exact .inl ⟨j, hj, hreached⟩
      · exact .inr hreached
    · rintro (⟨j, hj, hreached⟩ | hreached)
      · exact ⟨j, Nat.lt_succ_of_lt hj, hreached⟩
      · exact ⟨i, Nat.lt_succ_self i, hreached⟩
  refine ⟨after, hsearched.run, fun id => ?_, fun id => ?_, fun id => ?_, fun id j => ?_⟩
  · rw [hsearched.marks id, hstamp]
    split
    · exact Nat.le_refl _
    · exact Nat.le_succ_of_le (h.below id)
  · rw [hsearched.marks id, hstamp, hlast]
    by_cases hin : id ∈ order
    · simp [hin]
    · simp only [hin, if_false, or_false]
      exact h.marked id
  · rw [hsearched.credits id, Nat.mod_eq_of_lt (Nat.lt_of_succ_lt hi), List.pairwise_append]
    refine ⟨h.ascending id, by split <;> simp, fun j hj k hk => ?_⟩
    have hlt := ((h.credited id j).mp hj).1
    split at hk
    · rwa [List.mem_singleton.mp hk]
    · cases hk
  · rw [hsearched.credits id, Nat.mod_eq_of_lt (Nat.lt_of_succ_lt hi), List.mem_append, h.credited]
    by_cases hin : id ∈ order
    · rw [if_pos hin, List.mem_singleton]
      constructor
      · rintro (⟨hj, hreached⟩ | rfl)
        · exact ⟨Nat.lt_succ_of_lt hj, hreached⟩
        · exact ⟨Nat.lt_succ_self j, (horder id).mp hin⟩
      · rintro ⟨hj, hreached⟩
        exact (Nat.lt_succ_iff_lt_or_eq.mp hj).imp_left fun hj => ⟨hj, hreached⟩
    · rw [if_neg hin]
      constructor
      · rintro (⟨hj, hreached⟩ | hnone)
        · exact ⟨Nat.lt_succ_of_lt hj, hreached⟩
        · cases hnone
      · rintro ⟨hj, hreached⟩
        rcases Nat.lt_succ_iff_lt_or_eq.mp hj with hj | rfl
        · exact .inl ⟨hj, hreached⟩
        · exact absurd ((horder id).mpr hreached) hin

theorem Progress.run (hclosed : Closed graph) (rest : List Input) : ∀ {state : Credits} {i : Nat},
    Progress graph inputs i state → i + rest.length < 2 ^ 32 → (∀ k input, rest[k]? = some input → inputs[i + k]? = some input) →
    ∃ after, creditAll graph state rest i = some after ∧ Progress graph inputs (i + rest.length) after := by
  induction rest with
  | nil => exact fun {state i} h _ _ => ⟨state, rfl, h⟩
  | cons input rest ih =>
    intro state i h hlength hat
    rw [List.length_cons] at hlength
    obtain ⟨mid, hmid, hprogress⟩ := h.step hclosed (by omega) (hat 0 input rfl)
    obtain ⟨after, hafter, hlast⟩ := ih hprogress (by omega) fun k other hother => by
      rw [Nat.add_right_comm, Nat.add_assoc]
      exact hat (k + 1) other hother
    refine ⟨after, ?_, ?_⟩
    · rw [creditAll, hmid]
      exact hafter
    · rwa [List.length_cons, Nat.add_comm rest.length 1, ← Nat.add_assoc]

/-- An input that needs nothing changes nothing. -/
theorem creditAll_idle (rest : List Input) (h : ∀ input ∈ rest, successorsOf graph input.node = []) :
    ∀ i, creditAll graph state rest i = some state := by
  induction rest with
  | nil => exact fun _ => rfl
  | cons input rest ih =>
    intro i
    have hone : creditInput graph state input i = some state := by
      rw [creditInput, h input List.mem_cons_self]
      rfl
    rw [creditAll, hone]
    exact ih (fun other hother => h other (List.mem_cons_of_mem _ hother)) (i + 1)

theorem creditAll_append (xs ys : List Input) : ∀ (state : Credits) (i : Nat), creditAll graph state (xs ++ ys) i =
    (creditAll graph state xs i).bind fun mid => creditAll graph mid ys (i + xs.length) := by
  induction xs with
  | nil => exact fun _ _ => rfl
  | cons input xs ih =>
    intro state i
    rw [List.cons_append, creditAll, creditAll]
    cases creditInput graph state input i with
    | none => rfl
    | some mid =>
      have hrest := ih mid (i + 1)
      rw [List.length_cons, Nat.add_comm xs.length 1, ← Nat.add_assoc]
      exact hrest

/-- The numbers in the credits are those of inputs, and have 32 bits. -/
theorem creditAll_small (hclosed : Closed graph) (rest : List Input) : ∀ {state after : Credits} {i : Nat},
    (∀ id, ∀ j ∈ state.credits id, j < 2 ^ 32 ∧ j < i + rest.length) → creditAll graph state rest i = some after →
    ∀ id, ∀ j ∈ after.credits id, j < 2 ^ 32 ∧ j < i + rest.length := by
  induction rest with
  | nil =>
    intro state after i h hafter
    cases hafter
    exact h
  | cons input rest ih =>
    intro state after i h hafter
    obtain ⟨mid, order, hsearched⟩ := creditInput_searched hclosed state input i
    rw [creditAll, hsearched.run] at hafter
    have hlength : i + (input :: rest).length = i + 1 + rest.length := by
      rw [List.length_cons]
      omega
    rw [hlength] at h ⊢
    refine ih (fun id j hj => ?_) hafter
    rw [hsearched.credits id, List.mem_append] at hj
    rcases hj with hj | hj
    · exact h id j hj
    · split at hj
      · rw [List.mem_singleton.mp hj]
        have hmod := Nat.mod_lt i (by decide : 0 < 2 ^ 32)
        have hle := Nat.mod_le i (2 ^ 32)
        exact ⟨hmod, by omega⟩
      · cases hj

/-- The node has the input of that number among its credits. -/
def Credited (graph : DependencyGraph) (inputs : List Input) (j : Nat) (id : NodeId) : Prop :=
  j < 2 ^ 32 - 1 ∧ ReachedBy graph inputs j id ∨ j = 2 ^ 32 - 1 ∧ ∃ input, inputs[j]? = some input ∧
    ∃ first, Succ graph input.node first ∧ ReachedEarlier graph inputs first ∧ ReflTransGen (Succ graph) first id

theorem ReachedEarlier.next (h : ReachedEarlier graph inputs a) (hab : Succ graph a b) : ReachedEarlier graph inputs b := by
  obtain ⟨j, hj, input, hinput, hsteps⟩ := h
  exact ⟨j, hj, input, hinput, hsteps.tail hab⟩

/-- The search with the stamp 0 sees only the nodes that have a mark. -/
theorem last_order (h : Progress graph inputs (2 ^ 32 - 1) state) {order : List NodeId}
    (hsearched : Searched graph state input (2 ^ 32 - 1) after order) : id ∈ order ↔
      ∃ first, Succ graph input.node first ∧ ReachedEarlier graph inputs first ∧ ReflTransGen (Succ graph) first id := by
  have hunmarked (a b : NodeId) : b ∈ unmarked graph state.seen ((2 ^ 32 - 1 + 1) % 2 ^ 32) a ↔
      Succ graph a b ∧ ReachedEarlier graph inputs b := by
    have hstamp : (2 ^ 32 - 1 + 1) % 2 ^ 32 = 0 := by decide
    rw [hstamp, unmarked, List.mem_filter, decide_eq_true_eq, h.marked]
    rfl
  rw [hsearched.found]
  simp only [hunmarked]
  constructor
  · rintro ⟨first, ⟨hfirst, hearlier⟩, hsteps⟩
    exact ⟨first, hfirst, hearlier,
      ReflTransGen.mono (fun a b (hstep : Succ graph a b ∧ ReachedEarlier graph inputs b) => hstep.1) _ _ hsteps⟩
  · rintro ⟨first, hfirst, hearlier, hsteps⟩
    refine ⟨first, ⟨hfirst, hearlier⟩, ?_⟩
    have hboth : ReflTransGen (fun a b => Succ graph a b ∧ ReachedEarlier graph inputs b) first id ∧
        ReachedEarlier graph inputs id := by
      induction hsteps with
      | refl => exact ⟨.refl, hearlier⟩
      | tail _ hstep ih =>
        have hnext := ih.2.next hstep
        exact ⟨ih.1.tail ⟨hstep, hnext⟩, hnext⟩
    exact hboth.1

/-- Which credits a node has, when no input from the number `2 ^ 32` on needs anything. -/
theorem creditAll_credited (hclosed : Closed graph)
    (hbeyond : ∀ i input, 2 ^ 32 ≤ i → inputs[i]? = some input → successorsOf graph input.node = [])
    (h : creditAll graph {} inputs 0 = some state) (id : NodeId) :
    (state.credits id).Pairwise (· < ·) ∧ ∀ j, j ∈ state.credits id ↔ Credited graph inputs j id := by
  have hsplit := @creditAll_append graph (inputs.take (2 ^ 32 - 1)) (inputs.drop (2 ^ 32 - 1)) {} 0
  rw [List.take_append_drop, h] at hsplit
  have hlength := List.length_take_le (2 ^ 32 - 1) inputs
  obtain ⟨mid, hmid, hprogress⟩ := Progress.run hclosed (inputs.take (2 ^ 32 - 1)) (@Progress.start graph inputs)
    (by omega) fun k input hinput => by
      obtain ⟨hlt, -⟩ := List.getElem?_eq_some_iff.mp hinput
      rwa [List.getElem?_take_of_lt (by omega), ← Nat.zero_add k] at hinput
  rw [hmid, Option.bind_some, Nat.zero_add] at hsplit
  rw [Nat.zero_add] at hprogress
  by_cases hfew : inputs.length ≤ 2 ^ 32 - 1
  · rw [List.drop_eq_nil_of_le hfew] at hsplit
    cases hsplit
    rw [List.take_of_length_le hfew] at hprogress
    refine ⟨hprogress.ascending id, fun j => (hprogress.credited id j).trans ⟨?_, ?_⟩⟩
    · rintro ⟨hj, hreached⟩
      exact .inl ⟨by omega, hreached⟩
    · rintro (⟨-, hreached⟩ | ⟨rfl, input, hinput, -⟩)
      · obtain ⟨input, hinput, hsteps⟩ := hreached
        exact ⟨(List.getElem?_eq_some_iff.mp hinput).1, input, hinput, hsteps⟩
      · have hlt := (List.getElem?_eq_some_iff.mp hinput).1
        omega
  · have hlt : 2 ^ 32 - 1 < inputs.length := Nat.lt_of_not_le hfew
    have htake : (inputs.take (2 ^ 32 - 1)).length = 2 ^ 32 - 1 := List.length_take_of_le hlt.le
    rw [htake] at hprogress hsplit
    have hinput := List.getElem?_eq_getElem hlt
    rw [List.drop_eq_getElem_cons hlt] at hsplit
    generalize inputs[2 ^ 32 - 1] = input at hsplit hinput
    obtain ⟨after, order, hsearched⟩ := creditInput_searched hclosed mid input (2 ^ 32 - 1)
    have hidle := @creditAll_idle graph after (inputs.drop (2 ^ 32 - 1 + 1)) (fun other hother => by
      obtain ⟨k, hk⟩ := List.mem_iff_getElem?.mp hother
      rw [List.getElem?_drop] at hk
      exact hbeyond _ other (by omega) hk) (2 ^ 32 - 1 + 1)
    rw [creditAll, hsearched.run] at hsplit
    have hsame : some state = some after := hsplit.trans hidle
    cases hsame
    have hindex : (2 ^ 32 - 1) % 2 ^ 32 = 2 ^ 32 - 1 := by decide
    have horder := @last_order graph inputs input mid state id hprogress order hsearched
    rw [hsearched.credits id, hindex, List.pairwise_append]
    refine ⟨⟨hprogress.ascending id, by split <;> simp, fun j hj k hk => ?_⟩, fun j => ?_⟩
    · have hsmall := ((hprogress.credited id j).mp hj).1
      split at hk
      · rwa [List.mem_singleton.mp hk]
      · cases hk
    · rw [List.mem_append, hprogress.credited, Credited]
      refine or_congr_right ?_
      by_cases hin : id ∈ order
      · rw [if_pos hin, List.mem_singleton]
        refine ⟨fun hj => ⟨hj, input, hj ▸ hinput, horder.mp hin⟩, fun hj => hj.1⟩
      · rw [if_neg hin]
        refine ⟨fun hj => absurd hj List.not_mem_nil, ?_⟩
        rintro ⟨rfl, same, hsame, hfound⟩
        obtain rfl := Option.some.inj (hinput.symm.trans hsame)
        exact absurd (horder.mpr hfound) hin

end progress

section merging

variable {inputs : List Input} {result : DependencyResult} {node : DependencyNode} {credits : List Nat}

/-- What one more node adds to the lists of a result. -/
structure Adds (before after : Text → Option (List Text)) (here : Text → Prop) (added : List Text) : Prop where
  mem : ∀ key s, s ∈ (after key).getD [] ↔ s ∈ (before key).getD [] ∨ here key ∧ s ∈ added
  isSome : ∀ key, (after key).isSome ↔ (before key).isSome ∨ here key

theorem mergeNode_adds : Adds result.dependencies (mergeNode inputs result node credits).dependencies
    (fun key => credits ≠ [] ∧ True ∧ node.key = key) (spellings inputs credits) := by
  by_cases hnone : credits = []
  · rw [hnone, mergeNode_nil]
    exact ⟨fun _ _ => by simp, fun _ => by simp⟩
  · refine ⟨fun key s => ?_, fun key => ?_⟩
    · rw [mergeNode_dependencies hnone]
      by_cases heq : key = node.key
      · subst heq
        rw [if_pos rfl, Option.getD_some, mem_listedWith]
        simp [hnone]
      · simp [heq, Ne.symm heq]
    · rw [mergeNode_dependencies hnone]
      by_cases heq : key = node.key
      · simp [heq, hnone]
      · simp [heq, Ne.symm heq]

theorem mergeNode_adds_errors : Adds (fun key => (result.libraryErrors key).map LibraryError.inputs)
    (fun key => ((mergeNode inputs result node credits).libraryErrors key).map LibraryError.inputs)
    (fun key => credits ≠ [] ∧ node.status = .unreadable ∧ node.key = key) (spellings inputs credits) := by
  by_cases hnone : credits = []
  · rw [hnone, mergeNode_nil]
    exact ⟨fun _ _ => by simp, fun _ => by simp⟩
  · refine ⟨fun key s => ?_, fun key => ?_⟩
    · simp only [mergeNode_libraryErrors hnone]
      by_cases heq : node.status = .unreadable ∧ key = node.key
      · obtain ⟨hstatus, rfl⟩ := heq
        cases hbefore : result.libraryErrors node.key <;> simp [hstatus, hnone, reportWith]
      · rw [if_neg heq]
        have hnot : ¬ (node.status = .unreadable ∧ node.key = key) := fun h => heq ⟨h.1, h.2.symm⟩
        simp [hnot]
    · simp only [mergeNode_libraryErrors hnone]
      by_cases heq : node.status = .unreadable ∧ key = node.key
      · simp [heq, hnone]
      · rw [if_neg heq]
        have hnot : ¬ (node.status = .unreadable ∧ node.key = key) := fun h => heq ⟨h.1, h.2.symm⟩
        simp [hnot]

/-- What all the nodes add to the lists of a result. -/
theorem mergeNodes_adds {view : DependencyResult → Text → Option (List Text)} {counts : DependencyNode → Prop}
    (hstep : ∀ result node credits, Adds (view result) (view (mergeNode inputs result node credits))
      (fun key => credits ≠ [] ∧ counts node ∧ node.key = key) (spellings inputs credits))
    (credits : NodeId → List Nat) (nodes : List DependencyNode) : ∀ {result : DependencyResult} {id : NodeId},
    (∀ key s, s ∈ (view (mergeNodes inputs credits result nodes id) key).getD [] ↔ s ∈ (view result key).getD [] ∨
      ∃ k node, nodes[k]? = some node ∧ counts node ∧ node.key = key ∧ s ∈ spellings inputs (credits (id + k))) ∧
    ∀ key, (view (mergeNodes inputs credits result nodes id) key).isSome ↔ (view result key).isSome ∨
      ∃ k node, nodes[k]? = some node ∧ counts node ∧ node.key = key ∧ credits (id + k) ≠ [] := by
  have hsplit {P : Nat → DependencyNode → Prop} (node : DependencyNode) (rest : List DependencyNode) :
      (∃ k other, (node :: rest)[k]? = some other ∧ P k other) ↔
        P 0 node ∨ ∃ k other, rest[k]? = some other ∧ P (k + 1) other := by
    constructor
    · rintro ⟨k, other, hk, hP⟩
      cases k with
      | zero =>
        cases hk
        exact .inl hP
      | succ k => exact .inr ⟨k, other, hk, hP⟩
    · rintro (hP | ⟨k, other, hk, hP⟩)
      · exact ⟨0, node, rfl, hP⟩
      · exact ⟨k + 1, other, hk, hP⟩
  induction nodes with
  | nil => exact fun {result id} => ⟨fun key s => by simp [mergeNodes], fun key => by simp [mergeNodes]⟩
  | cons node rest ih =>
    intro result id
    have hone := hstep result node (credits id)
    obtain ⟨hmem, hsome⟩ := @ih (mergeNode inputs result node (credits id)) (id + 1)
    have hempty (s : Text) (hs : s ∈ spellings inputs (credits id)) : credits id ≠ [] := by
      intro hnil
      rw [hnil] at hs
      cases hs
    refine ⟨fun key s => ?_, fun key => ?_⟩
    · rw [mergeNodes, hmem, hone.mem, or_assoc, hsplit]
      refine or_congr_right (or_congr ?_ ?_)
      · constructor
        · rintro ⟨⟨-, hcounts, hkey⟩, hs⟩
          exact ⟨hcounts, hkey, hs⟩
        · rintro ⟨hcounts, hkey, hs⟩
          exact ⟨⟨hempty s hs, hcounts, hkey⟩, hs⟩
      · simp only [Nat.add_assoc, Nat.add_comm 1]
    · rw [mergeNodes, hsome, hone.isSome, or_assoc, hsplit]
      refine or_congr_right (or_congr ?_ ?_)
      · constructor
        · rintro ⟨hnone, hcounts, hkey⟩
          exact ⟨hcounts, hkey, hnone⟩
        · rintro ⟨hcounts, hkey, hnone⟩
          exact ⟨hnone, hcounts, hkey⟩
      · simp only [Nat.add_assoc, Nat.add_comm 1]

/-- Sorted credits give sorted lists: only a key that two nodes share needs the second sort. -/
theorem mergeNodes_sorted {credits : NodeId → List Nat} (hcredits : ∀ id, (spellings inputs (credits id)).Pairwise (· < ·))
    (nodes : List DependencyNode) : ∀ {result : DependencyResult} {id : NodeId},
    (∀ key names, result.dependencies key = some names → names.Pairwise (· < ·)) →
    ∀ key names, (mergeNodes inputs credits result nodes id).dependencies key = some names → names.Pairwise (· < ·) := by
  induction nodes with
  | nil => exact fun h => h
  | cons node rest ih =>
    intro result id h
    refine ih fun key names hkey => ?_
    by_cases hnone : credits id = []
    · rw [hnone, mergeNode_nil] at hkey
      exact h key names hkey
    · rw [mergeNode_dependencies hnone] at hkey
      by_cases heq : key = node.key
      · rw [if_pos heq] at hkey
        obtain rfl := Option.some.inj hkey
        rw [listedWith]
        split
        · exact sortUnique_strict _
        · next hnil =>
          rw [not_not.mp hnil, List.nil_append]
          exact hcredits id
      · rw [if_neg heq] at hkey
        exact h key names hkey

end merging

section answers

variable {world : World} {searchPaths xs spelled : List Text} {graph : DependencyGraph} {errors : Text → Option String}
  {inputs : List Input} {state : Credits} {t : Target} {id : NodeId} {s : Text} {j : Nat}

theorem Answers.input_at (h : Answers world searchPaths xs spelled graph errors inputs state) (hj : spelled[j]? = some s) :
    ∃ input, inputs[j]? = some input ∧ IsNode graph (.file (fileKey world s)) input.node := by
  obtain ⟨input, hinput, hplaced⟩ := Checked.forall₂_getElem? h.placed hj
  exact ⟨input, hinput, hplaced.node⟩

theorem Answers.spelling_at (h : Answers world searchPaths xs spelled graph errors inputs state) :
    (inputs[j]?).map Input.spelling = spelled[j]? := by
  have hmap : inputs.map Input.spelling = spelled := by
    have hsame : List.Forall₂ (fun s input => s = Input.spelling input) spelled inputs :=
      h.placed.imp fun s input hplaced => by rw [hplaced.same]; rfl
    have hlists := List.forall₂_map_right_iff.mpr hsame
    rw [List.forall₂_eq_eq_eq] at hlists
    exact hlists.symm
  rw [← hmap, List.getElem?_map]

theorem Answers.mem_spellings (h : Answers world searchPaths xs spelled graph errors inputs state) {credits : List Nat} :
    s ∈ spellings inputs credits ↔ ∃ j ∈ credits, spelled[j]? = some s := by
  rw [spellings, List.mem_filterMap]
  simp only [Answers.spelling_at h]

/-- The input of that number counts for the target. -/
def Counted (world : World) (searchPaths spelled : List Text) (j : Nat) (s : Text) (t : Target) : Prop :=
  j < 2 ^ 32 - 1 ∧ Reaches world searchPaths s t ∨ j = 2 ^ 32 - 1 ∧ Shared world searchPaths spelled s t

theorem Counted.reaches (h : Counted world searchPaths spelled j s t) : Reaches world searchPaths s t := by
  rcases h with ⟨-, h⟩ | ⟨-, first, hfirst, -, hsteps⟩
  · exact h
  · exact TransGen.head'_iff.mpr ⟨first, hfirst, hsteps⟩

/-- The graph as the targets have it. -/
theorem Answers.forward (hs : Settled world) (h : Answers world searchPaths xs spelled graph errors inputs state) :
    ∀ t a b, IsNode graph t a → Succ graph a b → ∃ u, Needs world searchPaths t u ∧ IsNode graph u b :=
  fun _ _ b ht hstep => (node_edges hs h.represents h.done ht).1 b hstep

theorem Answers.backward (hs : Settled world) (h : Answers world searchPaths xs spelled graph errors inputs state) :
    ∀ a t u, IsNode graph t a → Needs world searchPaths t u → ∃ b, Succ graph a b ∧ IsNode graph u b :=
  fun _ _ u ht hstep => (node_edges hs h.represents h.done ht).2 u hstep

theorem Answers.reachedBy (hs : Settled world) (h : Answers world searchPaths xs spelled graph errors inputs state)
    (ht : IsNode graph t id) :
    ReachedBy graph inputs j id ↔ ∃ s, spelled[j]? = some s ∧ Reaches world searchPaths s t := by
  constructor
  · rintro ⟨input, hinput, hsteps⟩
    obtain ⟨s, hspelled, hplaced⟩ := Checked.forall₂_getElem? h.placed.flip hinput
    obtain ⟨u, hu, hid⟩ := transGen_transfer (Answers.forward hs h) hplaced.node hsteps
    exact ⟨s, hspelled, isNode_unique hid ht ▸ hu⟩
  · rintro ⟨s, hspelled, hsteps⟩
    obtain ⟨input, hinput, hnode⟩ := Answers.input_at h hspelled
    obtain ⟨b, hb, hid⟩ := @transGen_transfer _ _ _ _ (fun a t => IsNode graph t a) _ _ _ (Answers.backward hs h) hnode hsteps
    exact ⟨input, hinput, IsNode.unique h.represents hid ht ▸ hb⟩

theorem Answers.reachedEarlier (hs : Settled world) (h : Answers world searchPaths xs spelled graph errors inputs state)
    (ht : IsNode graph t id) : ReachedEarlier graph inputs id ↔ Earlier world searchPaths spelled t := by
  simp only [ReachedEarlier, Earlier, Answers.reachedBy hs h ht]
  constructor
  · rintro ⟨j, hj, s, hspelled, hsteps⟩
    exact ⟨j, s, hj, hspelled, hsteps⟩
  · rintro ⟨j, s, hj, hspelled, hsteps⟩
    exact ⟨j, hj, s, hspelled, hsteps⟩

theorem Answers.credited (hs : Settled world) (h : Answers world searchPaths xs spelled graph errors inputs state)
    (hspelled : spelled[j]? = some s) :
    (∃ id, IsNode graph t id ∧ Credited graph inputs j id) ↔ Counted world searchPaths spelled j s t := by
  obtain ⟨input, hinput, hnode⟩ := Answers.input_at h hspelled
  constructor
  · rintro ⟨id, ht, ⟨hj, hreached⟩ | ⟨hj, same, hsame, first, hfirst, hearlier, hsteps⟩⟩
    · obtain ⟨other, hother, hsteps⟩ := (Answers.reachedBy hs h ht).mp hreached
      obtain rfl := Option.some.inj (hspelled.symm.trans hother)
      exact .inl ⟨hj, hsteps⟩
    · obtain rfl := Option.some.inj (hinput.symm.trans hsame)
      obtain ⟨u, hu, hid⟩ := Answers.forward hs h _ _ _ hnode hfirst
      obtain ⟨v, hv, hlast⟩ := reflTransGen_transfer (Answers.forward hs h) hid hsteps
      exact .inr ⟨hj, u, hu, (Answers.reachedEarlier hs h hid).mp hearlier, isNode_unique hlast ht ▸ hv⟩
  · rintro (⟨hj, hsteps⟩ | ⟨hj, u, hu, hearlier, hsteps⟩)
    · obtain ⟨id, hid, hlast⟩ := @transGen_transfer _ _ _ _ (fun a t => IsNode graph t a) _ _ _ (Answers.backward hs h) hnode
        hsteps
      exact ⟨id, hlast, .inl ⟨hj, input, hinput, hid⟩⟩
    · obtain ⟨first, hfirst, hid⟩ := Answers.backward hs h _ _ _ hnode hu
      obtain ⟨last, hlast, ht⟩ := @reflTransGen_transfer _ _ _ _ (fun a t => IsNode graph t a) _ _ _ (Answers.backward hs h)
        hid hsteps
      exact ⟨last, ht, .inr ⟨hj, input, hinput, first, hfirst, (Answers.reachedEarlier hs h hid).mpr hearlier, hlast⟩⟩

/-- The lists of a result, as the credits of the nodes give them. -/
structure Merged (graph : DependencyGraph) (state : Credits) (spelled : List Text) (counts : Target → Prop)
    (listed : Text → Option (List Text)) : Prop where
  mem : ∀ key s, s ∈ (listed key).getD [] ↔ ∃ t, t.key = key ∧ counts t ∧
    ∃ j id, IsNode graph t id ∧ j ∈ state.credits id ∧ spelled[j]? = some s
  isSome : ∀ key, (listed key).isSome ↔ ∃ s, s ∈ (listed key).getD []

theorem targetOf_key (node : DependencyNode) : (targetOf node).key = node.key := by
  unfold targetOf
  split <;> rfl

theorem Answers.unreadable_iff (hs : Settled world) (h : Answers world searchPaths xs spelled graph errors inputs state)
    {node : DependencyNode} (hnode : graph.nodes[id]? = some node) :
    node.status = .unreadable ↔ Unreadable world (targetOf node) := by
  have hfile {key : Text} {node : DependencyNode} (hnew : NewNode world (.file key) node) :
      node.status = .unreadable ↔ Unreadable world (.file key) := by
    rw [(filed_of_newNode hs hnew).1]
    rfl
  cases h.represents.nodes id node hnode (by simp) with
  | missing name => exact ⟨fun hstatus => (nomatch hstatus), fun hunreadable => hunreadable.elim⟩
  | file hnew =>
    rw [hnew.targetOf]
    exact hfile hnew
  | @expanded key node ids hnew _ _ =>
    have hsame : targetOf { node with refs := [], successors := ids, expanded := true } = .file key :=
      Eq.trans rfl hnew.targetOf
    have hiff := hfile hnew
    rwa [hsame]

theorem Answers.small (h : Answers world searchPaths xs spelled graph errors inputs state) :
    ∀ id, ∀ j ∈ state.credits id, j < 2 ^ 32 ∧ j < spelled.length := by
  have hsmall := creditAll_small (closed_of_represents h.represents) inputs
    (fun _ _ hj => absurd hj List.not_mem_nil) h.credits
  intro id j hj
  have hlength := h.placed.length_eq
  obtain ⟨hsmall, hlt⟩ := hsmall id j hj
  exact ⟨hsmall, by omega⟩

/-- The nodes with a key, and their credits. -/
theorem Answers.merged (h : Answers world searchPaths xs spelled graph errors inputs state)
    {listed : Text → Option (List Text)} {holds : DependencyNode → Prop} {counts : Target → Prop}
    (hcounts : ∀ (id : NodeId) (node : DependencyNode), graph.nodes[id]? = some node → (holds node ↔ counts (targetOf node)))
    (hmem : ∀ key s, s ∈ (listed key).getD [] ↔ ∃ (k : NodeId) (node : DependencyNode), graph.nodes[k]? = some node ∧ holds node ∧ node.key = key ∧
      s ∈ spellings inputs (state.credits k))
    (hsome : ∀ key, (listed key).isSome ↔ ∃ (k : NodeId) (node : DependencyNode), graph.nodes[k]? = some node ∧ holds node ∧ node.key = key ∧
      state.credits k ≠ []) : Merged graph state spelled counts listed := by
  refine ⟨fun key s => (hmem key s).trans ⟨?_, ?_⟩, fun key => (hsome key).trans ⟨?_, ?_⟩⟩
  · rintro ⟨k, node, hnode, hholds, hkey, hs⟩
    obtain ⟨j, hj, hspelled⟩ := (Answers.mem_spellings h).mp hs
    exact ⟨targetOf node, (targetOf_key node).trans hkey, (hcounts k node hnode).mp hholds, j, k,
      by rw [IsNode, hnode]; rfl, hj, hspelled⟩
  · rintro ⟨t, hkey, ht, j, k, hid, hj, hspelled⟩
    obtain ⟨node, hnode, rfl⟩ := Option.map_eq_some_iff.mp hid
    exact ⟨k, node, hnode, (hcounts k node hnode).mpr ht, (targetOf_key node).symm.trans hkey,
      (Answers.mem_spellings h).mpr ⟨j, hj, hspelled⟩⟩
  · rintro ⟨k, node, hnode, hholds, hkey, hne⟩
    obtain ⟨j, hj⟩ := List.exists_mem_of_ne_nil _ hne
    have hspelled := List.getElem?_eq_getElem (Answers.small h k j hj).2
    exact ⟨_, (hmem key _).mpr ⟨k, node, hnode, hholds, hkey, (Answers.mem_spellings h).mpr ⟨j, hj, hspelled⟩⟩⟩
  · rintro ⟨s, hs⟩
    obtain ⟨k, node, hnode, hholds, hkey, hs⟩ := (hmem key s).mp hs
    refine ⟨k, node, hnode, hholds, hkey, fun hnil => ?_⟩
    rw [hnil] at hs
    cases hs

theorem Answers.merged_dependencies (h : Answers world searchPaths xs spelled graph errors inputs state) :
    Merged graph state spelled (fun _ => True) (answer graph errors inputs state).dependencies := by
  obtain ⟨hmem, hsome⟩ := @mergeNodes_adds inputs DependencyResult.dependencies (fun _ => True)
    (fun _ _ _ => mergeNode_adds) state.credits graph.nodes { errors } 0
  refine Answers.merged h (fun _ _ _ => Iff.rfl) (fun key s => (hmem key s).trans ?_) fun key => (hsome key).trans ?_
  · simp only [Option.getD_none, List.not_mem_nil, false_or, Nat.zero_add]
  · simp only [Option.isSome_none, Bool.false_eq_true, false_or, Nat.zero_add]

theorem Answers.merged_libraryErrors (hs : Settled world)
    (h : Answers world searchPaths xs spelled graph errors inputs state) :
    Merged graph state spelled (Unreadable world)
      fun key => ((answer graph errors inputs state).libraryErrors key).map LibraryError.inputs := by
  obtain ⟨hmem, hsome⟩ := @mergeNodes_adds inputs (fun result key => (result.libraryErrors key).map LibraryError.inputs)
    (fun node => node.status = .unreadable) (fun _ _ _ => mergeNode_adds_errors) state.credits graph.nodes { errors } 0
  have hsorted (key : Text) : ((answer graph errors inputs state).libraryErrors key).map LibraryError.inputs =
      ((mergeNodes inputs state.credits { errors } graph.nodes 0).libraryErrors key).map
        fun report => sortUnique report.inputs := by
    rw [answer, Option.map_map]
    rfl
  refine Answers.merged h (fun id node => Answers.unreadable_iff hs h) (fun key s => Iff.trans ?_ ((hmem key s).trans ?_))
    fun key => Iff.trans ?_ ((hsome key).trans ?_)
  · rw [hsorted]
    cases (mergeNodes inputs state.credits { errors } graph.nodes 0).libraryErrors key <;> simp
  · simp only [Option.map_none, Option.getD_none, List.not_mem_nil, false_or, Nat.zero_add]
  · rw [hsorted, Option.isSome_map, Option.isSome_map]
  · simp only [Option.map_none, Option.isSome_none, Bool.false_eq_true, false_or, Nat.zero_add]

section verdict

variable {counts : Target → Prop} {listed : Text → Option (List Text)}

/-- The lists are right when the numbers of the inputs fit. -/
theorem Answers.lists (hs : Settled world) (h : Answers world searchPaths xs spelled graph errors inputs state)
    (hmerged : Merged graph state spelled counts listed)
    (hcredited : ∀ id j, j ∈ state.credits id ↔ Credited graph inputs j id)
    (hsorted : ∀ key names, listed key = some names → names.Pairwise (· < ·)) (hfits : Fits world searchPaths spelled)
    (hlast : ∀ s, spelled[2 ^ 32 - 1]? = some s → ∀ t, Reaches world searchPaths s t → counts t →
      ∃ u, u.key = t.key ∧ counts u ∧ Shared world searchPaths spelled s u) :
    Lists world xs (fun s t => counts t ∧ Reaches world searchPaths s t) listed := by
  have hmem (key s : Text) : s ∈ (listed key).getD [] ↔
      Least world xs s ∧ ∃ t, t.key = key ∧ counts t ∧ Reaches world searchPaths s t := by
    rw [hmerged.mem, ← h.least]
    constructor
    · rintro ⟨t, hkey, ht, j, id, hid, hj, hspelled⟩
      have hcounted := (Answers.credited hs h hspelled).mp ⟨id, hid, (hcredited id j).mp hj⟩
      exact ⟨List.mem_of_getElem? hspelled, t, hkey, ht, hcounted.reaches⟩
    · rintro ⟨hin, t, rfl, ht, hreaches⟩
      obtain ⟨j, hspelled⟩ := List.mem_iff_getElem?.mp hin
      obtain ⟨u, hkey, hu, hcounted⟩ : ∃ u, u.key = t.key ∧ counts u ∧ Counted world searchPaths spelled j s u := by
        rcases Nat.lt_trichotomy j (2 ^ 32 - 1) with hj | rfl | hj
        · exact ⟨t, rfl, ht, .inl ⟨hj, hreaches⟩⟩
        · obtain ⟨u, hkey, hu, hshared⟩ := hlast s hspelled t hreaches ht
          exact ⟨u, hkey, hu, .inr ⟨rfl, hshared⟩⟩
        · obtain ⟨first, hfirst, -⟩ := TransGen.head'_iff.mp hreaches
          exact absurd hfirst (hfits.beyond j s (by omega) hspelled first)
      obtain ⟨id, hid, hcredit⟩ := (Answers.credited hs h hspelled).mpr hcounted
      exact ⟨u, hkey, hu, j, id, hid, (hcredited id j).mpr hcredit, hspelled⟩
  refine fun key => ⟨fun names hnames => ⟨hsorted key names hnames, fun s => ?_⟩, ?_⟩
  · rw [← hmem, hnames, Option.getD_some]
  · rw [hmerged.isSome]
    exact exists_congr (hmem key)

/-- When the lists are right, what an input reaches has it in its list. -/
theorem Answers.credit_of_lists (hmerged : Merged graph state spelled counts listed)
    (hlists : Lists world xs (fun s t => counts t ∧ Reaches world searchPaths s t) listed) (hleast : Least world xs s)
    (ht : counts t) (hreaches : Reaches world searchPaths s t) :
    ∃ u, u.key = t.key ∧ counts u ∧ ∃ j id, IsNode graph u id ∧ j ∈ state.credits id ∧ spelled[j]? = some s := by
  obtain ⟨hnames, hkeys⟩ := hlists t.key
  obtain ⟨names, hsome⟩ := Option.isSome_iff_exists.mp (hkeys.mpr ⟨s, hleast, t, rfl, ht, hreaches⟩)
  have hin := ((hnames names hsome).2 s).mpr ⟨hleast, t, rfl, ht, hreaches⟩
  refine (hmerged.mem t.key s).mp ?_
  rwa [hsome, Option.getD_some]

theorem Answers.index_unique (h : Answers world searchPaths xs spelled graph errors inputs state) {i : Nat}
    (hi : spelled[i]? = some s) (hj : spelled[j]? = some s) : i = j := by
  have hnodup : spelled.Nodup := h.sorted.imp ne_of_lt
  exact (List.getElem?_inj (List.getElem?_eq_some_iff.mp hi).1 hnodup).mp (hi.trans hj.symm)

theorem Answers.fits (hs : Settled world) (h : Answers world searchPaths xs spelled graph errors inputs state)
    (hreach : Reachability world searchPaths xs (answer graph errors inputs state)) :
    Fits world searchPaths spelled := by
  have hdependencies : Lists world xs (fun s t => True ∧ Reaches world searchPaths s t)
      (answer graph errors inputs state).dependencies := by
    simpa only [true_and] using hreach.dependencies
  have hmerged := Answers.merged_dependencies h
  have hmergedErrors := Answers.merged_libraryErrors hs h
  have hleast {j : Nat} {s : Text} (hspelled : spelled[j]? = some s) : Least world xs s :=
    (h.least s).mp (List.mem_of_getElem? hspelled)
  have hbeyond : ∀ i s, 2 ^ 32 ≤ i → spelled[i]? = some s → ∀ t, ¬ Needs world searchPaths (.file (fileKey world s)) t := by
    intro i s hi hspelled t hneeds
    obtain ⟨u, -, -, j, id, -, hj, hsame⟩ :=
      Answers.credit_of_lists hmerged hdependencies (hleast hspelled) trivial (.single hneeds)
    have hsmall := (Answers.small h id j hj).1
    have heq := Answers.index_unique h hspelled hsame
    omega
  have hcredited := creditAll_credited (closed_of_represents h.represents) (fun i input hi hinput => by
    obtain ⟨s, hspelled, hplaced⟩ := Checked.forall₂_getElem? h.placed.flip hinput
    refine List.eq_nil_iff_forall_not_mem.mpr fun b hb => ?_
    obtain ⟨u, hu, -⟩ := Answers.forward hs h _ _ b hplaced.node hb
    exact hbeyond i s hi hspelled u hu) h.credits
  have hshared {j : Nat} {id : NodeId} {s : Text} {u : Target} (hspelled : spelled[2 ^ 32 - 1]? = some s)
      (hid : IsNode graph u id) (hj : j ∈ state.credits id) (hsame : spelled[j]? = some s) :
      Shared world searchPaths spelled s u := by
    have hcounted := (Answers.credited hs h hsame).mp ⟨id, hid, ((hcredited id).2 j).mp hj⟩
    have heq := Answers.index_unique h hspelled hsame
    rcases hcounted with ⟨hlt, -⟩ | ⟨-, hshared⟩
    · omega
    · exact hshared
  refine ⟨hbeyond, fun s hspelled t hreaches => ⟨?_, fun hunreadable => ?_⟩⟩
  · obtain ⟨u, hkey, -, j, id, hid, hj, hsame⟩ :=
      Answers.credit_of_lists hmerged hdependencies (hleast hspelled) trivial hreaches
    exact ⟨u, hkey, hshared hspelled hid hj hsame⟩
  · obtain ⟨u, hkey, hu, j, id, hid, hj, hsame⟩ :=
      Answers.credit_of_lists hmergedErrors hreach.libraryErrors (hleast hspelled) hunreadable hreaches
    exact ⟨u, hkey, hu, hshared hspelled hid hj hsame⟩

theorem Answers.reachability (hs : Settled world) (h : Answers world searchPaths xs spelled graph errors inputs state)
    (hfits : Fits world searchPaths spelled) :
    Reachability world searchPaths xs (answer graph errors inputs state) := by
  have hcredited := creditAll_credited (closed_of_represents h.represents) (fun i input hi hinput => by
    obtain ⟨s, hspelled, hplaced⟩ := Checked.forall₂_getElem? h.placed.flip hinput
    refine List.eq_nil_iff_forall_not_mem.mpr fun b hb => ?_
    obtain ⟨u, hu, -⟩ := Answers.forward hs h _ _ b hplaced.node hb
    exact hfits.beyond i s hi hspelled u hu) h.credits
  have hstrict (id : NodeId) : (spellings inputs (state.credits id)).Pairwise (· < ·) := by
    rw [spellings, List.pairwise_filterMap]
    refine (hcredited id).1.imp fun {i j} hij s hi s' hj => ?_
    rw [Answers.spelling_at h] at hi hj
    obtain ⟨hilt, rfl⟩ := List.getElem?_eq_some_iff.mp hi
    obtain ⟨hjlt, rfl⟩ := List.getElem?_eq_some_iff.mp hj
    exact List.pairwise_iff_getElem.mp h.sorted i j hilt hjlt hij
  constructor
  · have hlists := Answers.lists hs h (Answers.merged_dependencies h) (fun id => (hcredited id).2)
      (mergeNodes_sorted hstrict graph.nodes (fun key names hnames => nomatch hnames)) hfits
      fun s hspelled t hreaches _ => by
        obtain ⟨u, hkey, hu⟩ := (hfits.last s hspelled t hreaches).1
        exact ⟨u, hkey, trivial, hu⟩
    simpa only [true_and] using hlists
  · refine Answers.lists hs h (Answers.merged_libraryErrors hs h) (fun id => (hcredited id).2)
      (fun key names hnames => ?_) hfits fun s hspelled t hreaches hunreadable =>
        (hfits.last s hspelled t hreaches).2 hunreadable
    obtain ⟨report, hreport, rfl⟩ := Option.map_eq_some_iff.mp hnames
    obtain ⟨before, -, rfl⟩ := Option.map_eq_some_iff.mp hreport
    exact sortUnique_strict _

end verdict

end answers

/-- The credits are the inputs that reach a key if and only if the numbers of the inputs fit. -/
theorem credits_reachability_iff {world : World} (hs : Settled world) (searchPaths xs : List Text) :
    ∃ spelled result, spelled.Pairwise (· < ·) ∧ (∀ s, s ∈ spelled ↔ Least world xs s) ∧
      listDependencies world searchPaths xs = some result ∧
      (Reachability world searchPaths xs result ↔ Fits world searchPaths spelled) := by
  obtain ⟨spelled, graph, errors, inputs, state, h⟩ := listDependencies_answers world searchPaths xs
  exact ⟨spelled, answer graph errors inputs state, h.sorted, h.least, h.result, Answers.fits hs h,
    Answers.reachability hs h⟩

theorem Fits.of_few {world : World} {searchPaths spelled : List Text} (h : spelled.length < 2 ^ 32) :
    Fits world searchPaths spelled := by
  have hnone (i : Nat) (hi : 2 ^ 32 - 1 ≤ i) (s : Text) : spelled[i]? ≠ some s := by
    rw [List.getElem?_eq_none (by omega)]
    exact fun heq => nomatch heq
  exact ⟨fun i s hi hs => absurd hs (hnone i (by omega) s), fun s hs => absurd hs (hnone _ (Nat.le_refl _) s)⟩

theorem credits_reachability_iff_spellings : ∃ result,
    listDependencies twoSpellings [] [bytesOf "x/../a", bytesOf "/a"] = some result ∧
      Reachability twoSpellings [] [bytesOf "x/../a", bytesOf "/a"] result := by
  have hsettled : Settled twoSpellings := fun path key hkey => by
    cases hkey
    rfl
  obtain ⟨spelled, result, hsorted, hleast, hresult, hiff⟩ :=
    credits_reachability_iff hsettled [] [bytesOf "x/../a", bytesOf "/a"]
  have hsub := List.subperm_of_subset (hsorted.imp ne_of_lt) fun s hs => ((hleast s).mp hs).1
  have hlength := hsub.length_le
  refine ⟨result, hresult, hiff.mpr (Fits.of_few ?_)⟩
  simp only [List.length_cons, List.length_nil] at hlength
  omega

section many

/-- `pppppppp` -/
def lastName : Text := List.replicate 8 0x70

def slash : UInt8 := 0x2F

/-- Where the steps of a path lead, in a file system that has one file, in its root. -/
def follow (file : Text) : List Text → Option Text
  | [] => some [slash]
  | step :: rest =>
      if step = [] ∨ step = bytesOf "." ∨ step = bytesOf ".." then follow file rest
      else if step = file ∧ rest = [] then some (slash :: file)
      else none

open Bytes ElfParser in
/-- A big-endian ELF file of the 32-bit class that records `a.so`. -/
def elfNeedsOne : List UInt8 :=
  kElfMag ++ [kElfClass32, kElfData2Msb] ++ List.replicate 22 0 ++ beBytes 4 52 ++ List.replicate 10 0 ++
    beBytes 2 32 ++ beBytes 2 2 ++ List.replicate 6 0 ++
    (beBytes 4 1 ++ beBytes 4 0 ++ beBytes 4 4096 ++ beBytes 4 0 ++ beBytes 4 145 ++ beBytes 4 145 ++ beBytes 8 0) ++
    (beBytes 4 2 ++ beBytes 4 116 ++ beBytes 4 4212 ++ beBytes 4 0 ++ beBytes 4 24 ++ beBytes 4 24 ++ beBytes 8 0) ++
    (beBytes 4 1 ++ beBytes 4 0) ++ (beBytes 4 5 ++ beBytes 4 4236) ++ beBytes 8 0 ++ [0x61, 0x2E, 0x73, 0x6F, 0]

/-- A file system that has one file, `/pppppppp`, which records one name. The root is the current folder. -/
def lastNeeds : World where
  canonical path := if path = [] then none else follow lastName (path.splitOnP (· = slash))
  regularFiles := [slash :: lastName]
  entryExists path := path ≠ [] ∧ follow lastName (path.splitOnP (· = slash)) ≠ none
  isDirectory path := path ≠ [] ∧ follow lastName (path.splitOnP (· = slash)) = some [slash]
  entryNames folder := if follow lastName (folder.splitOnP (· = slash)) = some [slash] then [lastName] else []
  readFileBytes path :=
    if follow lastName (path.splitOnP (· = slash)) = some (slash :: lastName) then .ok elfNeedsOne
    else .error ("Unable to open file: " ++ shownName path)
  elfNames := ElfParser.listDependenciesFromBytes .little
  peNames _ := .error "Not a PE binary"
  machONames _ := .error "Not a Mach-O binary"

/-- Two letters of `a` to `p` for the two digits of a byte. -/
def letters (b : UInt8) : List UInt8 := [0x61 + b / 16, 0x61 + b % 16]

def word (n : Nat) : Text := (Bytes.beBytes 4 n).flatMap letters

/-- The names of eight letters of `a` to `p`. -/
def eightLetterNames : List Text := (List.range (2 ^ 32)).map word

theorem letters_injective {b c : UInt8} (h : letters b = letters c) : b = c := by
  obtain ⟨hhigh, hrest⟩ := List.cons.inj h
  have hdiv : b / 16 = c / 16 := (UInt8.add_right_inj _).mp hhigh
  have hmod : b % 16 = c % 16 := (UInt8.add_right_inj _).mp (List.cons.inj hrest).1
  have hdivNat := congrArg UInt8.toNat hdiv
  have hmodNat := congrArg UInt8.toNat hmod
  rw [UInt8.toNat_div, UInt8.toNat_div] at hdivNat
  rw [UInt8.toNat_mod, UInt8.toNat_mod] at hmodNat
  change b.toNat / 16 = c.toNat / 16 at hdivNat
  change b.toNat % 16 = c.toNat % 16 at hmodNat
  exact UInt8.toNat_inj.mp (by omega)

theorem flatMap_letters_injective {xs ys : List UInt8} (h : xs.flatMap letters = ys.flatMap letters) : xs = ys := by
  induction xs generalizing ys with
  | nil =>
    cases ys with
    | nil => rfl
    | cons c ys => cases h
  | cons b xs ih =>
    cases ys with
    | nil => cases h
    | cons c ys =>
      rw [List.flatMap_cons, List.flatMap_cons] at h
      obtain ⟨hletters, hrest⟩ := List.append_inj h rfl
      rw [letters_injective hletters, ih hrest]

theorem nodup_eightLetterNames : eightLetterNames.Nodup := by
  refine List.nodup_range.map_on fun i hi j hj heq => ?_
  have hvalue := congrArg Bytes.beValue (flatMap_letters_injective heq)
  have hfits (k : Nat) (hk : k ∈ List.range (2 ^ 32)) : k < 256 ^ 4 := by
    have hlt := List.mem_range.mp hk
    omega
  rwa [Bytes.beValue_beBytes_of_lt (hfits i hi), Bytes.beValue_beBytes_of_lt (hfits j hj)] at hvalue

theorem length_word (n : Nat) : (word n).length = 8 := by
  have hpairs (bytes : List UInt8) : (bytes.flatMap letters).length = bytes.length * 2 := by
    induction bytes with
    | nil => rfl
    | cons b bytes ih =>
      rw [List.flatMap_cons, List.length_append, ih, List.length_cons, Nat.succ_mul, Nat.add_comm]
      rfl
  rw [word, hpairs, Bytes.length_beBytes]

theorem letter_of_mem {n : Nat} {u : UInt8} (h : u ∈ word n) : 0x61 ≤ u.toNat ∧ u.toNat ≤ 0x70 := by
  obtain ⟨b, -, hb⟩ := List.mem_flatMap.mp h
  have hb256 := b.toNat_lt
  rcases List.mem_cons.mp hb with rfl | hb
  · rw [UInt8.toNat_add, UInt8.toNat_div]
    change 0x61 ≤ (0x61 + b.toNat / 16) % 256 ∧ (0x61 + b.toNat / 16) % 256 ≤ 0x70
    omega
  · rw [List.mem_singleton.mp hb, UInt8.toNat_add, UInt8.toNat_mod]
    change 0x61 ≤ (0x61 + b.toNat % 16) % 256 ∧ (0x61 + b.toNat % 16) % 256 ≤ 0x70
    omega

theorem le_replicate {m : UInt8} {s : Text} (h : ∀ u ∈ s, u ≤ m) : s ≤ List.replicate s.length m := by
  induction s with
  | nil => exact le_refl _
  | cons a s ih =>
    rw [List.length_cons, List.replicate_succ]
    refine not_lt.mp fun hlt => ?_
    cases hlt with
    | rel hless => exact absurd hless (not_lt.mpr (h a List.mem_cons_self))
    | cons hless => exact absurd hless (not_lt.mpr (ih fun u hu => h u (List.mem_cons_of_mem _ hu)))

theorem le_lastName {s : Text} (h : s ∈ eightLetterNames) : s ≤ lastName := by
  obtain ⟨n, -, rfl⟩ := List.mem_map.mp h
  have hle := le_replicate (m := 0x70) fun u hu => UInt8.le_iff_toNat_le.mpr (letter_of_mem (n := n) hu).2
  rwa [length_word] at hle

/-- Of the names of eight letters only the last is that of a file. -/
theorem canonical_name {s : Text} (h : s ∈ eightLetterNames) :
    lastNeeds.canonical s = if s = lastName then some (slash :: lastName) else none := by
  obtain ⟨n, -, rfl⟩ := List.mem_map.mp h
  have hlength := length_word n
  have hne (t : Text) (ht : t.length < 8) : word n ≠ t := by
    rintro heq
    rw [heq] at hlength
    omega
  have hsteps : (word n).splitOnP (· = slash) = [word n] := by
    refine List.splitOnP_eq_singleton fun u hu => decide_eq_false fun hslash => ?_
    have hletter := (letter_of_mem hu).1
    rw [hslash] at hletter
    exact absurd hletter (by decide)
  have hplain : ¬(word n = [] ∨ word n = bytesOf "." ∨ word n = bytesOf "..") := by
    rintro (heq | heq | heq)
    · exact hne _ (by decide) heq
    · exact hne _ (by decide) heq
    · exact hne _ (by decide) heq
  change (if word n = [] then none else follow lastName ((word n).splitOnP (· = slash))) = _
  rw [if_neg (hne [] (by decide)), hsteps, follow, if_neg hplain]
  simp only [and_true]

theorem least_lastNeeds {s : Text} : Least lastNeeds eightLetterNames s ↔ s ∈ eightLetterNames := by
  refine ⟨fun h => h.1, fun h => ⟨h, fun other hother hsame => ?_⟩⟩
  by_cases hs : s = lastName
  · have hcanonical := (identity_canonical hsame).1
    rw [canonical_name hother, canonical_name h, if_pos hs] at hcanonical
    by_cases heq : other = lastName
    · rw [hs, heq]
    · rw [if_neg heq] at hcanonical
      cases hcanonical
  · have hkey := (identity_canonical hsame).2
    have hcanonical := (identity_canonical hsame).1
    have hnone : lastNeeds.canonical s = none := by rw [canonical_name h, if_neg hs]
    rw [fileKey, fileKey, hcanonical, hnone] at hkey
    exact (show other = s from hkey).ge

/-- With all the names of eight letters, the last input is number `2 ^ 32 - 1`. -/
theorem last_of_sorted {spelled : List Text} (hsorted : spelled.Pairwise (· < ·))
    (hmem : ∀ s, s ∈ spelled ↔ s ∈ eightLetterNames) : spelled[2 ^ 32 - 1]? = some lastName := by
  have hlength : spelled.length = 2 ^ 32 := by
    have hperm := (List.perm_ext_iff_of_nodup (hsorted.imp ne_of_lt) nodup_eightLetterNames).mpr hmem
    rw [hperm.length_eq, eightLetterNames, List.length_map, List.length_range]
  have hlast : lastName ∈ spelled :=
    (hmem lastName).mpr (List.mem_map.mpr ⟨2 ^ 32 - 1, List.mem_range.mpr (by decide), by decide⟩)
  obtain ⟨i, hi⟩ := List.mem_iff_getElem?.mp hlast
  obtain ⟨hlt, hget⟩ := List.getElem?_eq_some_iff.mp hi
  by_cases hend : i = 2 ^ 32 - 1
  · rwa [← hend]
  · have hnext : i + 1 < spelled.length := by omega
    have hgreater := List.pairwise_iff_getElem.mp hsorted i (i + 1) hlt hnext (Nat.lt_succ_self i)
    rw [hget] at hgreater
    exact absurd hgreater (not_lt.mpr (le_lastName ((hmem _).mp (List.getElem_mem hnext))))

theorem follow_cases {file key : Text} {steps : List Text} (h : follow file steps = some key) :
    key = [slash] ∨ key = slash :: file := by
  induction steps with
  | nil => exact .inl (Option.some.inj h).symm
  | cons step rest ih =>
    rw [follow] at h
    split_ifs at h
    · exact ih h
    · exact .inr (Option.some.inj h).symm

theorem settled_lastNeeds : Settled lastNeeds := by
  intro path key hkey
  change (if path = [] then none else follow lastName (path.splitOnP (· = slash))) = some key at hkey
  split_ifs at hkey
  rcases follow_cases hkey with rfl | rfl
  · decide
  · decide

theorem needs_lastNeeds {key : Text} {t : Target} (h : Needs lastNeeds [] (.file key) t) :
    key = slash :: lastName ∧ t = .missing (bytesOf "a.so") := by
  obtain ⟨hparsed, name, hname, rfl⟩ := h
  obtain ⟨-, hregular, hread⟩ := newFileNode_parsed hparsed
  have hkey : key = slash :: lastName := List.mem_singleton.mp hregular
  refine ⟨hkey, ?_⟩
  rw [filed, hread, hkey] at hname
  have hrefs : (readNode lastNeeds (slash :: lastName)).refs = [bytesOf "a.so"] := by decide +kernel
  rw [hrefs] at hname
  rw [List.mem_singleton.mp hname]
  have hescapes : escapesSearchFolders (bytesOf "a.so") = false := by decide
  simp only [target, hescapes]
  rfl

/-- The input number `2 ^ 32 - 1` has the stamp 0, which every node has from the start. -/
theorem last_input_uncredited : Settled lastNeeds ∧ ∃ result,
    listDependencies lastNeeds [] eightLetterNames = some result ∧
      ¬ Reachability lastNeeds [] eightLetterNames result := by
  obtain ⟨spelled, graph, errors, inputs, state, h⟩ := listDependencies_answers lastNeeds [] eightLetterNames
  refine ⟨settled_lastNeeds, _, h.result, fun hreach => ?_⟩
  have hfits := Answers.fits settled_lastNeeds h hreach
  have hlast := last_of_sorted h.sorted fun s => (h.least s).trans least_lastNeeds
  have hkey : fileKey lastNeeds lastName = slash :: lastName := by decide
  have hneeds : Needs lastNeeds [] (.file (fileKey lastNeeds lastName)) (.missing (bytesOf "a.so")) := by
    rw [hkey]
    exact ⟨by decide +kernel, bytesOf "a.so", by decide +kernel, by decide⟩
  obtain ⟨u, -, first, hfirst, ⟨j, s, hj, hs, hreaches⟩, -⟩ := (hfits.last _ hlast _ (.single hneeds)).1
  obtain ⟨next, hnext, -⟩ := TransGen.head'_iff.mp hreaches
  have hname : s ∈ eightLetterNames := least_lastNeeds.mp ((h.least s).mp (List.mem_of_getElem? hs))
  have hsame : s = lastName := by
    by_contra hne
    have hself := (needs_lastNeeds hnext).1
    rw [fileKey, canonical_name hname, if_neg hne] at hself
    obtain ⟨n, -, rfl⟩ := List.mem_map.mp hname
    have hlength := congrArg List.length hself
    rw [show ((none : Option Text).getD (word n)).length = 8 from length_word n] at hlength
    exact absurd hlength (by decide)
  have heq := Answers.index_unique h (hsame ▸ hs) hlast
  omega

end many

end TheSeed.DependencyCredits
