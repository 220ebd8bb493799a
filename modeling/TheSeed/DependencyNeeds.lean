import TheSeed.DependencyRequest

namespace TheSeed.DependencyNeeds

open DependencyLister DependencyRequest Function

/-! What the files of a file system need, and how the nodes of the graph stand for it. -/

/-- What a path or a recorded name stands for. -/
inductive Target
  | file (key : Text)
  | missing (name : Text)
  deriving DecidableEq

def Target.key : Target → Text
  | .file key => key
  | .missing name => name

def fileKey (world : World) (path : Text) : Text := (world.canonical path).getD path

/-- The path of the first folder that holds the name, as the file system alone tells it. -/
def candidate (world : World) (name : Text) (ignoreCase : Bool) : List Text → Option Text
  | [] => none
  | folder :: rest =>
      if folder = [] ∨ world.isDirectory folder = false then candidate world name ignoreCase rest
      else if ignoreCase then
        match listingOf (world.entryNames folder) (lowerAscii name) with
        | some found => some (join folder (if found.contains name then name else found.headD []))
        | none =>
            if world.entryExists (join folder name) then some (join folder name)
            else candidate world name ignoreCase rest
      else if world.entryExists (join folder name) then some (join folder name)
      else candidate world name ignoreCase rest

/-- What a name stands for that a file records. -/
def target (world : World) (searchPaths : List Text) (ignoreCase : Bool) (name : Text) : Target :=
  match if escapesSearchFolders name then none else candidate world name ignoreCase searchPaths with
  | some path => .file (fileKey world path)
  | none => .missing name

def targetOf (node : DependencyNode) : Target :=
  if node.status = .unresolved then .missing node.key else .file node.key

/-- The node of that number stands for the target. -/
def IsNode (graph : DependencyGraph) (t : Target) (id : NodeId) : Prop :=
  (graph.nodes[id]?).map targetOf = some t

def index (graph : DependencyGraph) : Target → Option NodeId
  | .file key => graph.byKey key
  | .missing name => graph.byUnresolvedName name

/-- The node with which a target comes into the graph. -/
def NewNode (world : World) : Target → DependencyNode → Prop
  | .file key, node =>
      ∃ path, fileKey world path = key ∧ node = newFileNode world path key (world.canonical path).isSome
  | .missing name, node => node = { key := name }

def insertNode (graph : DependencyGraph) (t : Target) (node : DependencyNode) : DependencyGraph :=
  match t with
  | .file key => { graph.push node with byKey := update graph.byKey key (some graph.nodes.length) }
  | .missing name =>
      { graph.push node with byUnresolvedName := update graph.byUnresolvedName name (some graph.nodes.length) }

/-- All that looking for the node of a target does. -/
inductive Obtains (world : World) (graph : DependencyGraph) (t : Target) : DependencyGraph → NodeId → Prop
  | known {id : NodeId} : index graph t = some id → Obtains world graph t graph id
  | new {node : DependencyNode} : index graph t = none → NewNode world t node →
      Obtains world graph t (insertNode graph t node) graph.nodes.length

section operations

variable {world : World} {searchPaths : List Text} {graph : DependencyGraph} {path name : Text} {ignoreCase : Bool}

theorem fileNode_obtains {known : Option Text} (hknown : ∀ key, known = some key → world.canonical path = some key) :
    Obtains world graph (.file (fileKey world path)) (fileNode world graph path known).1
      (fileNode world graph path known).2 := by
  have hcanonical : (if known.isSome then known else world.canonical path) = world.canonical path := by
    cases known with
    | none => rfl
    | some key => rw [hknown key rfl]; rfl
  unfold fileNode
  rw [hcanonical]
  cases hkey : graph.byKey (fileKey world path) with
  | some id =>
    have hindex : graph.byKey ((world.canonical path).getD path) = some id := hkey
    simp only [hindex]
    exact .known hkey
  | none =>
    have hindex : graph.byKey ((world.canonical path).getD path) = none := hkey
    simp only [hindex]
    exact Obtains.new hkey (⟨path, rfl, rfl⟩ : NewNode world (.file (fileKey world path))
      (newFileNode world path (fileKey world path) (world.canonical path).isSome))

theorem unresolvedNode_obtains :
    Obtains world graph (.missing name) (unresolvedNode graph name).1 (unresolvedNode graph name).2 := by
  unfold unresolvedNode
  cases hname : graph.byUnresolvedName name with
  | some id => exact .known hname
  | none => exact Obtains.new hname (rfl : NewNode world (.missing name) { key := name })

/-- The folders listed so far are listed as the file system has them. -/
def Listed (world : World) (graph : DependencyGraph) : Prop :=
  ∀ folder listing, graph.folderListings folder = some listing → listing = listingOf (world.entryNames folder)

theorem folderMatches_spec (h : Listed world graph) (folder name : Text) :
    (folderMatches world graph folder name).2 = listingOf (world.entryNames folder) (lowerAscii name) ∧
      ∃ listings, (folderMatches world graph folder name).1 = { graph with folderListings := listings } ∧
        Listed world { graph with folderListings := listings } := by
  unfold folderMatches
  cases hlisting : graph.folderListings folder with
  | some listing => exact ⟨by rw [h folder listing hlisting], _, rfl, h⟩
  | none =>
    refine ⟨rfl, _, rfl, fun other listing hother => ?_⟩
    by_cases heq : other = folder
    · subst heq
      simpa using hother.symm
    · exact h other listing (by simpa [heq] using hother)

/-- The search of the folders changes nothing but the listings. -/
theorem findCandidate_spec (folders : List Text) : ∀ {graph : DependencyGraph}, Listed world graph →
    (findCandidate world name ignoreCase graph folders).2 = candidate world name ignoreCase folders ∧
      ∃ listings, (findCandidate world name ignoreCase graph folders).1 = { graph with folderListings := listings } ∧
        Listed world { graph with folderListings := listings } := by
  induction folders with
  | nil => exact fun h => ⟨rfl, _, rfl, h⟩
  | cons folder rest ih =>
    intro graph h
    unfold findCandidate candidate
    by_cases hskip : folder = [] ∨ world.isDirectory folder = false
    · simp only [hskip, if_true]
      exact ih h
    · simp only [hskip, if_false]
      cases ignoreCase with
      | false =>
        by_cases hexists : world.entryExists (join folder name) = true
        · simp only [hexists]
          exact ⟨rfl, _, rfl, h⟩
        · simp only [hexists]
          exact ih h
      | true =>
        obtain ⟨hfound, listings, hgraph, hlisted⟩ := folderMatches_spec h folder name
        rcases hmatches : folderMatches world graph folder name with ⟨after, found⟩
        rw [hmatches] at hfound hgraph
        subst hfound
        subst hgraph
        cases hlisting : listingOf (world.entryNames folder) (lowerAscii name) with
        | some spellings =>
          simp only [if_true]
          exact ⟨trivial, _, rfl, hlisted⟩
        | none =>
          by_cases hexists : world.entryExists (join folder name) = true
          · simp only [hexists, if_true]
            exact ⟨trivial, _, rfl, hlisted⟩
          · simp only [hexists, if_true]
            exact ih hlisted

/-- What the node of a recorded name is: a remembered one, or that of the target. -/
theorem resolveName_cases (h : Listed world graph) :
    (∃ id, graph.resolved ignoreCase name = some id ∧
      resolveName world searchPaths graph name ignoreCase = (graph, id)) ∨
    graph.resolved ignoreCase name = none ∧ ∃ listings after id,
      Listed world { graph with folderListings := listings } ∧
      Obtains world { graph with folderListings := listings } (target world searchPaths ignoreCase name) after id ∧
      resolveName world searchPaths graph name ignoreCase = (after.remember ignoreCase name id, id) := by
  unfold resolveName
  cases hresolved : graph.resolved ignoreCase name with
  | some id => exact .inl ⟨id, rfl, rfl⟩
  | none =>
    refine .inr ⟨rfl, ?_⟩
    have hsearch : ∃ found listings, (if escapesSearchFolders name = true then (graph, none)
          else findCandidate world name ignoreCase graph searchPaths) =
        ({ graph with folderListings := listings }, found) ∧
        (if escapesSearchFolders name then none else candidate world name ignoreCase searchPaths) = found ∧
        Listed world { graph with folderListings := listings } := by
      by_cases hescapes : escapesSearchFolders name = true
      · simp only [hescapes, if_true]
        exact ⟨none, graph.folderListings, rfl, rfl, h⟩
      · simp only [hescapes]
        obtain ⟨hfound, listings, hgraph, hlisted⟩ := @findCandidate_spec world name ignoreCase searchPaths graph h
        exact ⟨_, listings, Prod.ext hgraph hfound, rfl, hlisted⟩
    obtain ⟨found, listings, hstate, hfound, hlisted⟩ := hsearch
    simp only [hstate, target, hfound]
    cases found with
    | some path => exact ⟨listings, _, _, hlisted, fileNode_obtains (by simp), rfl⟩
    | none => exact ⟨listings, _, _, hlisted, unresolvedNode_obtains, rfl⟩

end operations

/-- A node of the graph: a name that was not found, a file before its names are looked up, or after. -/
inductive NodeOk (world : World) (searchPaths : List Text) (graph : DependencyGraph) : DependencyNode → Prop
  | missing (name : Text) : NodeOk world searchPaths graph { key := name }
  | file {key : Text} {node : DependencyNode} : NewNode world (.file key) node → NodeOk world searchPaths graph node
  | expanded {key : Text} {node : DependencyNode} {ids : List NodeId} : NewNode world (.file key) node →
      node.status = .parsed →
      List.Forall₂ (fun name id => IsNode graph (target world searchPaths (node.format = .pe) name) id) node.refs ids →
      NodeOk world searchPaths graph { node with refs := [], successors := ids, expanded := true }

/-- The graph stands for a part of the file system. The names of the busy node are being looked up. -/
structure Represents (world : World) (searchPaths : List Text) (busy : Option NodeId) (graph : DependencyGraph) :
    Prop where
  index : ∀ t id, index graph t = some id ↔ IsNode graph t id
  listed : Listed world graph
  resolved : ∀ ignoreCase name id, graph.resolved ignoreCase name = some id →
    IsNode graph (target world searchPaths ignoreCase name) id
  nodes : ∀ id node, graph.nodes[id]? = some node → busy ≠ some id → NodeOk world searchPaths graph node

/-- The nodes are all there, and stand for what they did. -/
def Grows (graph after : DependencyGraph) : Prop := graph.nodes <+: after.nodes

section invariants

variable {world : World} {searchPaths : List Text} {graph after last : DependencyGraph} {t other : Target}
  {node : DependencyNode} {id : NodeId} {busy : Option NodeId} {name : Text} {ignoreCase : Bool}

theorem Grows.refl : Grows graph graph := List.prefix_rfl

theorem Grows.trans (h : Grows graph after) (h' : Grows after last) : Grows graph last := List.IsPrefix.trans h h'

theorem Grows.getElem? (h : Grows graph after) (hnode : graph.nodes[id]? = some node) : after.nodes[id]? = some node := by
  obtain ⟨rest, hrest⟩ := h
  rw [← hrest, List.getElem?_append_left (List.getElem?_eq_some_iff.mp hnode).1, hnode]

theorem Grows.isNode (h : Grows graph after) (hid : IsNode graph t id) : IsNode after t id := by
  obtain ⟨node, hnode, ht⟩ := Option.map_eq_some_iff.mp hid
  rw [IsNode, h.getElem? hnode, Option.map_some, ht]

theorem IsNode.unique (h : Represents world searchPaths busy graph) {first second : NodeId} (hfirst : IsNode graph t first)
    (hsecond : IsNode graph t second) : first = second := by
  have heq := ((h.index t first).mpr hfirst).symm.trans ((h.index t second).mpr hsecond)
  exact Option.some.inj heq

theorem IsNode.lt (h : IsNode graph t id) : id < graph.nodes.length := by
  obtain ⟨node, hnode, -⟩ := Option.map_eq_some_iff.mp h
  exact (List.getElem?_eq_some_iff.mp hnode).1

theorem NodeOk.mono (hgrows : ∀ t id, IsNode graph t id → IsNode after t id)
    (h : NodeOk world searchPaths graph node) : NodeOk world searchPaths after node := by
  cases h with
  | missing name => exact .missing name
  | file hnew => exact .file hnew
  | expanded hnew hparsed hids => exact .expanded hnew hparsed (hids.imp fun _ _ => hgrows _ _)

@[simp] theorem newFileNode_key (path key : Text) (canonical : Bool) :
    (newFileNode world path key canonical).key = key := by
  unfold newFileNode readNode
  split
  · repeat' split
    all_goals rfl
  · rfl

theorem newFileNode_status (path key : Text) (canonical : Bool) :
    (newFileNode world path key canonical).status ≠ .unresolved := by
  unfold newFileNode readNode
  split
  · repeat' split
    all_goals exact fun h => nomatch h
  · exact fun h => nomatch h

@[simp] theorem newFileNode_expanded (path key : Text) (canonical : Bool) :
    (newFileNode world path key canonical).expanded = false ∧
      (newFileNode world path key canonical).successors = [] := by
  unfold newFileNode readNode
  split
  · repeat' split
    all_goals exact ⟨rfl, rfl⟩
  · exact ⟨rfl, rfl⟩

theorem NewNode.targetOf (h : NewNode world t node) : targetOf node = t := by
  cases t with
  | missing name =>
    have hnode : node = { key := name } := h
    rw [hnode]
    rfl
  | file key =>
    obtain ⟨path, -, rfl⟩ := h
    rw [DependencyNeeds.targetOf, if_neg (newFileNode_status _ _ _), newFileNode_key]

theorem NewNode.nodeOk (h : NewNode world t node) : NodeOk world searchPaths graph node := by
  cases t with
  | missing name =>
    have hnode : node = { key := name } := h
    exact hnode ▸ .missing name
  | file key => exact .file h

@[simp] theorem insertNode_nodes : (insertNode graph t node).nodes = graph.nodes ++ [node] := by
  cases t <;> rfl

@[simp] theorem insertNode_folderListings : (insertNode graph t node).folderListings = graph.folderListings := by
  cases t <;> rfl

@[simp] theorem insertNode_resolved : (insertNode graph t node).resolved ignoreCase = graph.resolved ignoreCase := by
  cases t <;> rfl

theorem index_insertNode :
    index (insertNode graph t node) other = if other = t then some graph.nodes.length else index graph other := by
  cases t <;> cases other <;> simp [index, insertNode, update_apply, DependencyGraph.push]

theorem isNode_append (ht : targetOf node = t) : IsNode (insertNode graph t node) other id ↔
    IsNode graph other id ∨ id = graph.nodes.length ∧ other = t := by
  rw [IsNode, insertNode_nodes, IsNode]
  by_cases hlt : id < graph.nodes.length
  · rw [List.getElem?_append_left hlt]
    simp [hlt.ne]
  · by_cases heq : id = graph.nodes.length
    · subst heq
      simp [ht, eq_comm]
    · have hgt : graph.nodes.length < id := Nat.lt_of_le_of_ne (Nat.le_of_not_lt hlt) (Ne.symm heq)
      have hlong : (graph.nodes ++ [node]).length ≤ id := by
        rw [List.length_append, List.length_singleton]
        exact hgt
      rw [List.getElem?_eq_none hlong, List.getElem?_eq_none hgt.le]
      simp [heq]

theorem getElem?_concat {α : Type} {xs : List α} {x y : α} {i : Nat} (h : (xs ++ [x])[i]? = some y) :
    xs[i]? = some y ∨ y = x := by
  by_cases hlt : i < xs.length
  · rw [List.getElem?_append_left hlt] at h
    exact .inl h
  · rw [List.getElem?_append_right (Nat.le_of_not_lt hlt), List.getElem?_singleton] at h
    split at h
    · exact .inr (Option.some.inj h).symm
    · cases h

/-- Looking for a target's node finds it, and keeps what the graph stands for. -/
theorem Obtains.represents (h : Represents world searchPaths busy graph) (ho : Obtains world graph t after id) :
    Represents world searchPaths busy after ∧ Grows graph after ∧ IsNode after t id := by
  cases ho with
  | known hid => exact ⟨h, .refl, (h.index t id).mp hid⟩
  | @new node hnone hnew =>
    have hgrows : Grows graph (insertNode graph t node) := by
      rw [Grows, insertNode_nodes]
      exact List.prefix_append _ _
    have hmono (other : Target) (id : NodeId) : IsNode graph other id → IsNode (insertNode graph t node) other id :=
      fun hid => hgrows.isNode hid
    refine ⟨⟨fun other id => ?_, ?_, fun ignoreCase name id hid => ?_, fun old was hold hidle => ?_⟩, hgrows, ?_⟩
    · rw [index_insertNode, isNode_append hnew.targetOf, ← h.index]
      by_cases heq : other = t
      · subst heq
        simp [hnone, eq_comm]
      · simp [heq]
    · intro folder listing
      rw [insertNode_folderListings]
      exact h.listed folder listing
    · rw [insertNode_resolved] at hid
      exact hmono _ _ (h.resolved ignoreCase name id hid)
    · rw [insertNode_nodes] at hold
      rcases getElem?_concat hold with hold | rfl
      · exact (h.nodes old was hold hidle).mono hmono
      · exact hnew.nodeOk
    · exact (isNode_append hnew.targetOf).mpr (.inr ⟨rfl, rfl⟩)

theorem Represents.listings {listings : Text → Option (Text → Option (List Text))} (h : Represents world searchPaths busy graph)
    (hlisted : Listed world { graph with folderListings := listings }) :
    Represents world searchPaths busy { graph with folderListings := listings } := by
  have hmono (t : Target) (id : NodeId) (hid : IsNode graph t id) :
      IsNode { graph with folderListings := listings } t id := hid
  refine ⟨fun t id => ?_, hlisted, fun ignoreCase name id hid => ?_, fun id node hnode hidle => ?_⟩
  · have hindex := h.index t id
    cases t <;> exact hindex
  · have hresolved := h.resolved ignoreCase name id
    cases ignoreCase <;> exact hresolved hid
  · exact (h.nodes id node hnode hidle).mono hmono

theorem resolved_remember (ignoreCase other : Bool) (name s : Text) : (graph.remember ignoreCase name id).resolved other s =
    if other = ignoreCase ∧ s = name then some id else graph.resolved other s := by
  cases ignoreCase <;> cases other <;> simp [DependencyGraph.remember, DependencyGraph.resolved, update_apply]

@[simp] theorem remember_nodes : (graph.remember ignoreCase name id).nodes = graph.nodes := by
  cases ignoreCase <;> rfl

@[simp] theorem index_remember : index (graph.remember ignoreCase name id) t = index graph t := by
  cases ignoreCase <;> cases t <;> rfl

theorem Represents.remember (h : Represents world searchPaths busy graph)
    (hid : IsNode graph (target world searchPaths ignoreCase name) id) :
    Represents world searchPaths busy (graph.remember ignoreCase name id) := by
  have hmono (other : Target) (id' : NodeId) :
      IsNode (graph.remember ignoreCase name id) other id' ↔ IsNode graph other id' := by
    rw [IsNode, remember_nodes, IsNode]
  refine ⟨fun t id' => ?_, ?_, fun other s id' hs => ?_, fun id' node hnode hidle => ?_⟩
  · rw [index_remember, hmono, h.index]
  · intro folder listing hlisting
    refine h.listed folder listing ?_
    cases ignoreCase <;> exact hlisting
  · rw [resolved_remember] at hs
    rw [hmono]
    split at hs
    · next heq =>
      obtain ⟨rfl, rfl⟩ := heq
      exact Option.some.inj hs ▸ hid
    · exact h.resolved other s id' hs
  · rw [remember_nodes] at hnode
    exact (h.nodes id' node hnode hidle).mono fun other id' => (hmono other id').mpr

theorem resolveName_represents (h : Represents world searchPaths busy graph) (name : Text) (ignoreCase : Bool) :
    Represents world searchPaths busy (resolveName world searchPaths graph name ignoreCase).1 ∧
      Grows graph (resolveName world searchPaths graph name ignoreCase).1 ∧
      IsNode (resolveName world searchPaths graph name ignoreCase).1 (target world searchPaths ignoreCase name)
        (resolveName world searchPaths graph name ignoreCase).2 := by
  obtain ⟨id, hid, heq⟩ | ⟨-, listings, after, id, hlisted, hobtains, heq⟩ := @resolveName_cases world searchPaths graph name ignoreCase h.listed
  · rw [heq]
    exact ⟨h, .refl, h.resolved _ _ _ hid⟩
  · obtain ⟨hafter, hgrows, hid⟩ := hobtains.represents (h.listings hlisted)
    rw [heq]
    refine ⟨hafter.remember hid, ?_, ?_⟩
    · rw [Grows, remember_nodes]
      exact hgrows
    · rw [IsNode, remember_nodes]
      exact hid

theorem resolveNames_represents (ignoreCase : Bool) (names : List Text) : ∀ {graph : DependencyGraph},
    Represents world searchPaths busy graph →
    Represents world searchPaths busy (resolveNames world searchPaths ignoreCase graph names).1 ∧
      Grows graph (resolveNames world searchPaths ignoreCase graph names).1 ∧
      List.Forall₂ (fun name id => IsNode (resolveNames world searchPaths ignoreCase graph names).1
        (target world searchPaths ignoreCase name) id) names (resolveNames world searchPaths ignoreCase graph names).2 := by
  induction names with
  | nil => exact fun h => ⟨h, .refl, .nil⟩
  | cons name rest ih =>
    intro graph h
    obtain ⟨hone, hgrows, hid⟩ := resolveName_represents h name ignoreCase
    obtain ⟨hall, hgrows', hids⟩ := ih hone
    exact ⟨hall, hgrows.trans hgrows', .cons (hgrows'.isNode hid) hids⟩

theorem getElem?_modifyNode (f : DependencyNode → DependencyNode) (i : NodeId) :
    (graph.modifyNode id f).nodes[i]? = if i = id then (graph.nodes[i]?).map f else graph.nodes[i]? := by
  rw [DependencyGraph.modifyNode, List.getElem?_modify]
  by_cases h : id = i
  · simp [h]
  · simp [h, Ne.symm h]

/-- A change of one node that leaves what the node stands for. -/
theorem isNode_modifyNode {f : DependencyNode → DependencyNode} (hf : ∀ node, targetOf (f node) = targetOf node)
    {i : NodeId} : IsNode (graph.modifyNode i f) t id ↔ IsNode graph t id := by
  rw [IsNode, getElem?_modifyNode, IsNode]
  split
  · cases graph.nodes[id]? <;> simp [hf]
  · rfl

theorem represents_modifyNode {f : DependencyNode → DependencyNode} (hf : ∀ node, targetOf (f node) = targetOf node)
    {before now : Option NodeId} (h : Represents world searchPaths before graph)
    (hnodes : ∀ i node, (graph.modifyNode id f).nodes[i]? = some node → now ≠ some i →
      NodeOk world searchPaths graph node) :
    Represents world searchPaths now (graph.modifyNode id f) := by
  have hmono (t : Target) (i : NodeId) : IsNode graph t i → IsNode (graph.modifyNode id f) t i :=
    (isNode_modifyNode hf).mpr
  refine ⟨fun t i => ?_, h.listed, fun ignoreCase name i hi => ?_, fun i node hnode hidle => ?_⟩
  · rw [isNode_modifyNode hf, ← h.index]
    cases t <;> rfl
  · refine hmono _ _ (h.resolved ignoreCase name i ?_)
    cases ignoreCase <;> exact hi
  · exact (hnodes i node hnode hidle).mono hmono

def clearRefs (node : DependencyNode) : DependencyNode := { node with refs := [] }

def setSuccessors (ids : List NodeId) (node : DependencyNode) : DependencyNode :=
  { node with successors := ids, expanded := true }

theorem targetOf_clearRefs (node : DependencyNode) : targetOf (clearRefs node) = targetOf node := rfl

theorem targetOf_setSuccessors (ids : List NodeId) (node : DependencyNode) :
    targetOf (setSuccessors ids node) = targetOf node := rfl

/-- The file's names are looked up one after the other, and its node gets their nodes. -/
structure Expands (world : World) (searchPaths : List Text) (graph : DependencyGraph) (id : NodeId)
    (node : DependencyNode) (after : DependencyGraph) (ids : List NodeId) : Prop where
  cleared : Represents world searchPaths (some id) (graph.modifyNode id clearRefs)
  resolve : resolveNames world searchPaths (node.format = .pe) (graph.modifyNode id clearRefs) node.refs = (after, ids)
  grows : Grows (graph.modifyNode id clearRefs) after
  expand : expand world searchPaths graph id = after.modifyNode id (setSuccessors ids)

theorem expand_spec (h : Represents world searchPaths none graph) (hnode : graph.nodes[id]? = some node)
    (hparsed : node.status = .parsed) (hfresh : node.expanded = false) :
    Represents world searchPaths none (expand world searchPaths graph id) ∧
      ∃ after ids, Expands world searchPaths graph id node after ids := by
  obtain ⟨key, hnew⟩ : ∃ key, NewNode world (.file key) node := by
    have hok := h.nodes id node hnode (by simp)
    cases hok with
    | missing name => cases hparsed
    | file hnew => exact ⟨_, hnew⟩
    | expanded hnew hparsed hids => cases hfresh
  have hcleared : Represents world searchPaths (some id) (graph.modifyNode id clearRefs) := by
    refine represents_modifyNode targetOf_clearRefs h fun i other hother hidle => ?_
    have hne : i ≠ id := fun heq => hidle (congrArg some heq.symm)
    rw [getElem?_modifyNode, if_neg hne] at hother
    exact h.nodes i other hother (by simp)
  obtain ⟨hafter, hgrows, hids⟩ := resolveNames_represents (node.format = .pe) node.refs hcleared
  rcases hresolve : resolveNames world searchPaths (node.format = .pe) (graph.modifyNode id clearRefs) node.refs with
    ⟨after, ids⟩
  rw [hresolve] at hafter hgrows hids
  have hexpand : expand world searchPaths graph id = after.modifyNode id (setSuccessors ids) := by
    have hsame : (graph.modifyNode id fun node => { node with refs := [] }) = graph.modifyNode id clearRefs := rfl
    rw [expand, hnode]
    simp only [hsame, hresolve]
    rfl
  have hcurrent : after.nodes[id]? = some (clearRefs node) := by
    refine hgrows.getElem? ?_
    rw [getElem?_modifyNode, if_pos rfl, hnode, Option.map_some]
  refine ⟨?_, after, ids, hcleared, hresolve, hgrows, hexpand⟩
  rw [hexpand]
  refine represents_modifyNode (targetOf_setSuccessors ids) hafter fun i other hother _ => ?_
  rw [getElem?_modifyNode] at hother
  by_cases heq : i = id
  · subst heq
    rw [if_pos rfl, hcurrent] at hother
    cases hother
    exact @NodeOk.expanded world searchPaths after key node ids hnew hparsed hids
  · rw [if_neg heq] at hother
    exact hafter.nodes i other hother (fun hbusy => heq (Option.some.inj hbusy).symm)

section expands

variable {ids : List NodeId} {idle : DependencyNode} {i : NodeId}

theorem Expands.current (h : Expands world searchPaths graph id node after ids) (hnode : graph.nodes[id]? = some node) :
    after.nodes[id]? = some (clearRefs node) := by
  refine h.grows.getElem? ?_
  rw [getElem?_modifyNode, if_pos rfl, hnode, Option.map_some]

theorem Expands.self (h : Expands world searchPaths graph id node after ids) (hnode : graph.nodes[id]? = some node) :
    (DependencyLister.expand world searchPaths graph id).nodes[id]? = some (setSuccessors ids (clearRefs node)) := by
  rw [h.expand, getElem?_modifyNode, if_pos rfl, h.current hnode, Option.map_some]

/-- No other node changes. -/
theorem Expands.unchanged (h : Expands world searchPaths graph id node after ids) (hi : i ≠ id)
    (hidle : graph.nodes[i]? = some idle) : (DependencyLister.expand world searchPaths graph id).nodes[i]? = some idle := by
  rw [h.expand, getElem?_modifyNode, if_neg hi]
  refine h.grows.getElem? ?_
  rw [getElem?_modifyNode, if_neg hi, hidle]

theorem Expands.isNode (h : Expands world searchPaths graph id node after ids) (hi : IsNode graph t i) :
    IsNode (DependencyLister.expand world searchPaths graph id) t i := by
  rw [h.expand, isNode_modifyNode (targetOf_setSuccessors ids)]
  exact h.grows.isNode ((isNode_modifyNode targetOf_clearRefs).mpr hi)

end expands

section within

variable {P : Target → Prop}

/-- Each node stands for one of these targets. -/
def Within (P : Target → Prop) (graph : DependencyGraph) : Prop := ∀ t id, IsNode graph t id → P t

theorem Obtains.within (h : Obtains world graph t after id) (hP : Within P graph) (ht : P t) : Within P after := by
  cases h with
  | known _ => exact hP
  | new hnone hnew =>
    intro other i hi
    rcases (isNode_append hnew.targetOf).mp hi with hi | ⟨-, rfl⟩
    · exact hP other i hi
    · exact ht

theorem resolveName_within (h : Represents world searchPaths busy graph) (hP : Within P graph)
    (ht : P (target world searchPaths ignoreCase name)) :
    Within P (resolveName world searchPaths graph name ignoreCase).1 := by
  obtain ⟨id, -, heq⟩ | ⟨-, listings, after, id, -, hobtains, heq⟩ :=
    @resolveName_cases world searchPaths graph name ignoreCase h.listed
  · rw [heq]
    exact hP
  · rw [heq]
    intro other i hi
    rw [IsNode, remember_nodes] at hi
    exact hobtains.within hP ht other i hi

theorem resolveNames_within (names : List Text) : ∀ {graph : DependencyGraph},
    Represents world searchPaths busy graph → Within P graph →
    (∀ name ∈ names, P (target world searchPaths ignoreCase name)) →
    Within P (resolveNames world searchPaths ignoreCase graph names).1 := by
  induction names with
  | nil => exact fun _ hP _ => hP
  | cons name rest ih =>
    intro graph h hP hnames
    have hone := resolveName_within h hP (hnames name List.mem_cons_self)
    exact ih (resolveName_represents h name ignoreCase).1 hone fun other hother =>
      hnames other (List.mem_cons_of_mem name hother)

theorem expand_within (h : Represents world searchPaths none graph) (hnode : graph.nodes[id]? = some node)
    (hparsed : node.status = .parsed) (hfresh : node.expanded = false) (hP : Within P graph)
    (hnames : ∀ name ∈ node.refs, P (target world searchPaths (node.format = .pe) name)) :
    Within P (expand world searchPaths graph id) := by
  obtain ⟨-, after, ids, hexpands⟩ := expand_spec h hnode hparsed hfresh
  have hcleared : Within P (graph.modifyNode id clearRefs) := fun t i hi =>
    hP t i ((isNode_modifyNode targetOf_clearRefs).mp hi)
  have hafter := @resolveNames_within world searchPaths (some id) (node.format = .pe) P node.refs _ hexpands.cleared
    hcleared hnames
  rw [hexpands.resolve] at hafter
  rw [hexpands.expand]
  exact fun t i hi => hafter t i ((isNode_modifyNode (targetOf_setSuccessors ids)).mp hi)

end within

end invariants

end TheSeed.DependencyNeeds
