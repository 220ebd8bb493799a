import TheSeed.DependencyNeeds
import TheSeed.Library.Worklist

namespace TheSeed.DependencyBounds

open DependencyLister DependencyRequest DependencyNeeds Function

/-! Both loops of a request stop: each node, and each name in a file, counts once. -/

/-- The names of a node that are still to be looked up. -/
def pendingRefs (node : DependencyNode) : Nat :=
  if node.status = .parsed ∧ node.expanded = false then node.refs.length else 0

def unreadRefs (world : World) (graph : DependencyGraph) (key : Text) : Nat :=
  if graph.byKey key = none then (readNode world key).refs.length else 0

/-- The nodes, the names to look up, and the names in the files that are not read yet. -/
def weight (world : World) (graph : DependencyGraph) : Nat :=
  graph.nodes.length + (graph.nodes.map pendingRefs).sum + (world.regularFiles.map (unreadRefs world graph)).sum

section sums

variable {α : Type} {f g : α → Nat} {xs : List α}

theorem sum_map_le (h : ∀ a ∈ xs, f a ≤ g a) : (xs.map f).sum ≤ (xs.map g).sum := by
  induction xs with
  | nil => exact Nat.le_refl _
  | cons a xs ih =>
    have ha := h a List.mem_cons_self
    have hxs := ih fun b hb => h b (List.mem_cons_of_mem a hb)
    simp only [List.map_cons, List.sum_cons]
    omega

theorem sum_map_add_le {a : α} {c : Nat} (h : ∀ b ∈ xs, f b ≤ g b) (hmem : a ∈ xs) (hc : f a + c ≤ g a) :
    (xs.map f).sum + c ≤ (xs.map g).sum := by
  induction xs with
  | nil => cases hmem
  | cons b xs ih =>
    have hb := h b List.mem_cons_self
    have hxs := sum_map_le fun b hb => h b (List.mem_cons_of_mem _ hb)
    simp only [List.map_cons, List.sum_cons]
    rcases List.mem_cons.mp hmem with rfl | hmem
    · omega
    · have hrest := ih (fun b hb => h b (List.mem_cons_of_mem _ hb)) hmem
      omega

theorem sum_map_modify {u : α → α} {a : α} : ∀ {xs : List α} {i : Nat}, xs[i]? = some a →
    ((xs.modify i u).map f).sum + f a = (xs.map f).sum + f (u a)
  | [], i, h => by simp at h
  | b :: xs, 0, h => by
    have hb : b = a := by simpa using h
    subst hb
    simp only [List.modify_zero_cons, List.map_cons, List.sum_cons]
    omega
  | b :: xs, i + 1, h => by
    have ih := @sum_map_modify u a xs i (by simpa using h)
    simp only [List.modify_succ_cons, List.map_cons, List.sum_cons]
    omega

end sums

section weights

variable {world : World} {searchPaths : List Text} {graph after : DependencyGraph} {t : Target} {node : DependencyNode}
  {id : NodeId} {ids : List NodeId} {name : Text} {ignoreCase : Bool}

theorem newFileNode_parsed {path key : Text} {canonical : Bool}
    (h : (newFileNode world path key canonical).status = .parsed) :
    canonical = true ∧ key ∈ world.regularFiles ∧ newFileNode world path key canonical = readNode world key := by
  unfold newFileNode at h ⊢
  split at h
  · next hread =>
    rw [Bool.and_eq_true, List.contains_iff_mem] at hread
    exact ⟨hread.1, hread.2, by rw [if_pos (by simp [hread])]⟩
  · cases h

theorem unreadRefs_insertNode (key : Text) : unreadRefs world (insertNode graph t node) key ≤ unreadRefs world graph key := by
  have hindex := @index_insertNode graph t (.file key) node
  have hafter : (insertNode graph t node).byKey key = if Target.file key = t then some graph.nodes.length
    else graph.byKey key := hindex
  rw [unreadRefs, hafter, unreadRefs]
  by_cases heq : Target.file key = t
  · rw [if_pos heq, if_neg (by simp)]
    exact Nat.zero_le _
  · rw [if_neg heq]

/-- A file that is parsed now was not read before. -/
theorem unread_insertNode (hnone : index graph t = none) (hnew : NewNode world t node) :
    (world.regularFiles.map (unreadRefs world (insertNode graph t node))).sum + pendingRefs node ≤
      (world.regularFiles.map (unreadRefs world graph)).sum := by
  by_cases hparsed : node.status = .parsed
  · cases t with
    | missing name =>
      have hnode : node = { key := name } := hnew
      rw [hnode] at hparsed
      cases hparsed
    | file key =>
      obtain ⟨path, -, rfl⟩ := hnew
      obtain ⟨-, hregular, hread⟩ := newFileNode_parsed hparsed
      refine sum_map_add_le (fun other _ => unreadRefs_insertNode other) hregular ?_
      have hbefore : graph.byKey key = none := hnone
      have hafter : unreadRefs world (insertNode graph (.file key) (newFileNode world path key (world.canonical path).isSome)) key = 0 := by
        rw [unreadRefs, if_neg]
        simp [insertNode]
      rw [hafter, unreadRefs, if_pos hbefore, hread, pendingRefs]
      split <;> omega
  · have hzero : pendingRefs node = 0 := if_neg fun h => hparsed h.1
    rw [hzero]
    exact sum_map_le fun other _ => unreadRefs_insertNode other

theorem weight_obtains (h : Obtains world graph t after id) : weight world after ≤ weight world graph + 1 := by
  cases h with
  | known _ => exact Nat.le_succ _
  | @new node hnone hnew =>
    have hunread := unread_insertNode hnone hnew
    simp only [weight, insertNode_nodes, List.map_append, List.sum_append, List.length_append, List.map_cons,
      List.map_nil, List.sum_cons, List.sum_nil, List.length_singleton]
    omega

@[simp] theorem weight_remember : weight world (graph.remember ignoreCase name id) = weight world graph := by
  cases ignoreCase <;> rfl

theorem weight_resolveName (h : Listed world graph) :
    weight world (resolveName world searchPaths graph name ignoreCase).1 ≤ weight world graph + 1 := by
  obtain ⟨id, -, heq⟩ | ⟨-, listings, after, id, -, hobtains, heq⟩ :=
    @resolveName_cases world searchPaths graph name ignoreCase h
  · rw [heq]
    exact Nat.le_succ _
  · rw [heq, weight_remember]
    exact (weight_obtains hobtains : weight world after ≤ weight world { graph with folderListings := listings } + 1)

theorem weight_resolveNames {busy : Option NodeId} (names : List Text) : ∀ {graph : DependencyGraph},
    Represents world searchPaths busy graph →
    weight world (resolveNames world searchPaths ignoreCase graph names).1 ≤ weight world graph + names.length := by
  induction names with
  | nil => exact fun _ => Nat.le_refl _
  | cons name rest ih =>
    intro graph h
    have hone := @weight_resolveName world searchPaths graph name ignoreCase h.listed
    have hrest := ih (resolveName_represents h name ignoreCase).1
    exact Nat.le_trans hrest (by rw [List.length_cons]; omega)

theorem weight_modifyNode (f : DependencyNode → DependencyNode) (hnode : graph.nodes[id]? = some node) :
    weight world (graph.modifyNode id f) + pendingRefs node = weight world graph + pendingRefs (f node) := by
  have hsum := @sum_map_modify _ pendingRefs f node graph.nodes id hnode
  have hsame : (world.regularFiles.map (unreadRefs world (graph.modifyNode id f))).sum =
      (world.regularFiles.map (unreadRefs world graph)).sum := rfl
  have hlength : (graph.modifyNode id f).nodes.length = graph.nodes.length := List.length_modify _ _ _
  have hnodes : (graph.modifyNode id f).nodes = graph.nodes.modify id f := rfl
  simp only [weight, hsame, hlength]
  rw [hnodes]
  omega

theorem weight_expand (h : Represents world searchPaths none graph) (hnode : graph.nodes[id]? = some node)
    (hparsed : node.status = .parsed) (hfresh : node.expanded = false) :
    weight world (expand world searchPaths graph id) ≤ weight world graph := by
  obtain ⟨-, after, ids, hexpands⟩ := expand_spec h hnode hparsed hfresh
  have hpending : pendingRefs node = node.refs.length := if_pos ⟨hparsed, hfresh⟩
  have hcleared := @weight_modifyNode world graph node id clearRefs hnode
  have hset := @weight_modifyNode world after (clearRefs node) id (setSuccessors ids) (hexpands.current hnode)
  have hzero : pendingRefs (clearRefs node) = 0 := by
    rw [pendingRefs, clearRefs]
    split <;> rfl
  have hdone : pendingRefs (setSuccessors ids (clearRefs node)) = 0 := by simp [pendingRefs, setSuccessors]
  have hnames : weight world after ≤ weight world (graph.modifyNode id clearRefs) + node.refs.length := by
    have hle := @weight_resolveNames world searchPaths (node.format = .pe) (some id) node.refs _ hexpands.cleared
    rwa [hexpands.resolve] at hle
  rw [hexpands.expand]
  omega

end weights

section walk

variable {world : World} {searchPaths : List Text} {graph after : DependencyGraph} {node : DependencyNode}
  {id : NodeId} {ids : List NodeId}

/-- The files before the index have had their names looked up. -/
def Done (graph : DependencyGraph) (index : NodeId) : Prop :=
  ∀ i node, i < index → graph.nodes[i]? = some node → node.status = .parsed → node.expanded = true

theorem Represents.length_le_expand (h : Expands world searchPaths graph id node after ids) :
    graph.nodes.length ≤ (expand world searchPaths graph id).nodes.length := by
  have hlength (g : DependencyGraph) (f : DependencyNode → DependencyNode) :
      (g.modifyNode id f).nodes.length = g.nodes.length := List.length_modify _ _ _
  rw [h.expand, hlength, ← hlength graph clearRefs]
  exact h.grows.length_le

theorem Done.expand (h : Done graph id) (hexpands : Expands world searchPaths graph id node after ids)
    (hnode : graph.nodes[id]? = some node) : Done (expand world searchPaths graph id) (id + 1) := by
  intro i other hi hother hparsed
  rcases Nat.lt_succ_iff_lt_or_eq.mp hi with hi | rfl
  · have hlt : i < graph.nodes.length := Nat.lt_trans hi (List.getElem?_eq_some_iff.mp hnode).1
    have hold := List.getElem?_eq_getElem hlt
    rw [hexpands.unchanged hi.ne hold] at hother
    cases hother
    exact h i _ hi hold hparsed
  · rw [hexpands.self hnode] at hother
    cases hother
    rfl

/-- The walk stops, and keeps what each lookup of a file's names keeps. -/
theorem expandAll_run {I : DependencyGraph → Prop}
    (hstep : ∀ graph id node, Represents world searchPaths none graph → I graph → graph.nodes[id]? = some node →
      node.status = .parsed → node.expanded = false → I (expand world searchPaths graph id)) (fuel : Nat) :
    ∀ {graph : DependencyGraph} {id : Nat}, Represents world searchPaths none graph → I graph →
      id ≤ graph.nodes.length → Done graph id → weight world graph + 1 ≤ fuel + id →
      ∃ last, expandAll world searchPaths fuel graph id = some last ∧ Represents world searchPaths none last ∧ I last ∧
        Done last last.nodes.length := by
  induction fuel with
  | zero =>
    intro graph id h hI hid hdone hfuel
    rw [weight] at hfuel
    omega
  | succ fuel ih =>
    intro graph id h hI hid hdone hfuel
    unfold expandAll
    cases hnode : graph.nodes[id]? with
    | none =>
      have hlast : graph.nodes.length ≤ id := List.getElem?_eq_none_iff.mp hnode
      exact ⟨graph, rfl, h, hI, fun i other hi => hdone i other (Nat.lt_of_lt_of_le hi hlast)⟩
    | some node =>
      have hlt : id < graph.nodes.length := (List.getElem?_eq_some_iff.mp hnode).1
      simp only
      split
      · next hopen =>
        obtain ⟨hafter, after, ids, hexpands⟩ := expand_spec h hnode hopen.1 hopen.2
        have hweight := weight_expand h hnode hopen.1 hopen.2
        have hlong := Represents.length_le_expand hexpands
        exact ih hafter (hstep graph id node h hI hnode hopen.1 hopen.2) (by omega) (hdone.expand hexpands hnode) (by omega)
      · next hskip =>
        refine ih h hI hlt (fun i other hi hother hparsed => ?_) (by omega)
        rcases Nat.lt_succ_iff_lt_or_eq.mp hi with hi | rfl
        · exact hdone i other hi hother hparsed
        · rw [hnode] at hother
          cases hother
          simpa using fun hfresh => hskip ⟨hparsed, hfresh⟩

end walk

section inputs

variable {world : World} {searchPaths : List Text} {graph : DependencyGraph}

/-- An input as the normalisation leaves it. -/
def inputOf (world : World) (spelling : Text) : Input := { spelling, canonical := (world.canonical spelling).getD [] }

/-- The canonical path that an input has is that of its spelling. -/
theorem inputOf_known {spelling : Text} (key : Text) (hkey : (if (inputOf world spelling).canonical = [] then none
    else some (inputOf world spelling).canonical) = some key) : world.canonical spelling = some key := by
  split at hkey
  · cases hkey
  · next hne =>
    have hsome : some ((world.canonical spelling).getD []) = some key := hkey
    cases hcanonical : world.canonical spelling with
    | none => exact absurd (by rw [inputOf, hcanonical]; rfl) hne
    | some canonical =>
      rw [hcanonical] at hsome
      exact hsome

theorem inputNode_obtains (spelling : Text) : Obtains world graph (.file (fileKey world spelling))
    (inputNode world graph (inputOf world spelling)).1 (inputNode world graph (inputOf world spelling)).2 :=
  fileNode_obtains inputOf_known

/-- The input with its node, which stands for the file of that spelling. -/
structure Placed (world : World) (graph : DependencyGraph) (spelling : Text) (input : Input) : Prop where
  same : input = { inputOf world spelling with node := input.node }
  node : IsNode graph (.file (fileKey world spelling)) input.node

/-- What the nodes of the inputs are, and whose reasons the errors give. -/
structure Placing (world : World) (searchPaths : List Text) (graph : DependencyGraph) (errors : Text → Option String)
    (spelled : List Text) (placed : DependencyGraph × (Text → Option String) × List Input) : Prop where
  represents : Represents world searchPaths none placed.1
  grows : Grows graph placed.1
  weight : weight world placed.1 ≤ weight world graph + spelled.length
  within : ∀ P, Within P graph → (∀ s ∈ spelled, P (.file (fileKey world s))) → Within P placed.1
  inputs : List.Forall₂ (Placed world placed.1) spelled placed.2.2
  errors : ∀ s reason, placed.2.1 s = some reason → errors s = some reason ∨ s ∈ spelled

theorem noteError_some {errors : Text → Option String} {spelling s : Text} {id : NodeId} {reason : String}
    (h : noteError graph errors spelling id s = some reason) : errors s = some reason ∨ s = spelling := by
  rw [noteError] at h
  cases hnode : graph.nodes[id]? with
  | none =>
    rw [hnode] at h
    exact .inl h
  | some node =>
    by_cases heq : s = spelling
    · exact .inr heq
    · refine .inl ?_
      simp only [hnode] at h
      split at h
      · rwa [update_of_ne heq] at h
      · exact h

theorem inputNodes_cons (errors : Text → Option String) (input : Input) (rest : List Input) :
    inputNodes world graph errors (input :: rest) =
      let one := inputNode world graph input
      let more := inputNodes world one.1 (noteError one.1 errors input.spelling one.2) rest
      (more.1, more.2.1, { input with node := one.2 } :: more.2.2) := rfl

theorem inputNodes_run (spelled : List Text) : ∀ {graph : DependencyGraph} (errors : Text → Option String),
    Represents world searchPaths none graph →
    Placing world searchPaths graph errors spelled (inputNodes world graph errors (spelled.map (inputOf world))) := by
  induction spelled with
  | nil => exact fun errors h => ⟨h, .refl, Nat.le_refl _, fun _ hP _ => hP, .nil, fun _ _ hs => .inl hs⟩
  | cons spelling rest ih =>
    intro graph errors h
    have hobtains := @inputNode_obtains world graph spelling
    obtain ⟨hone, hgrows, hid⟩ := hobtains.represents h
    have hweight := weight_obtains hobtains
    have hrest := ih (noteError (inputNode world graph (inputOf world spelling)).1 errors spelling
      (inputNode world graph (inputOf world spelling)).2) hone
    rw [List.map_cons, inputNodes_cons]
    refine ⟨hrest.represents, hgrows.trans hrest.grows, ?_, fun P hP hspelled => ?_, ?_, fun s reason hs => ?_⟩
    · refine Nat.le_trans hrest.weight ?_
      rw [List.length_cons]
      omega
    · exact hrest.within P (hobtains.within hP (hspelled spelling List.mem_cons_self)) fun s hs =>
        hspelled s (List.mem_cons_of_mem spelling hs)
    · exact .cons ⟨rfl, hrest.grows.isNode hid⟩ hrest.inputs
    · rcases hrest.errors s reason hs with hs | hs
      · exact (noteError_some hs).imp_right fun heq => List.mem_cons.mpr (.inl heq)
      · exact .inr (List.mem_cons_of_mem spelling hs)

end inputs

end TheSeed.DependencyBounds
