import TheSeed.CfbDirectory
import TheSeed.Library.SearchTree

namespace TheSeed.CfbSearch

open Checked BoundedBytes CfbReader CfbNames CfbResolve CfbTree SearchTree
open CfbDirectory (isNode isNode_iff isNode_storage isNode_stream SiblingTree length_le_links walk_tree)

/-! The positions of the children of a storage describe the search tree that the directory has. -/

variable {directory : List DirEntry} {visited visited' : Visited} {order : List Nat} {id : Nat} {children : List CfbNode} {name : CfbName} {storage : CfbNode} {m : PackageModel} {bytes : List UInt8}

def dirLinks (directory : List DirEntry) : Links where
  left := fun id => (directory.getD id {}).left
  right := fun id => (directory.getD id {}).right
  stop := kCfbNoStream

def childLinks (children : List CfbNode) : Links where
  left := fun position => children[position]?.elim kNone CfbNode.left
  right := fun position => children[position]?.elim kNone CfbNode.right
  stop := kNone

/-- A sibling tree is the tree of these links. -/
theorem inOrder_of_siblingTree {ids : List Nat} (h : SiblingTree directory id ids) : InOrder (dirLinks directory) id ids := by
  induction h with
  | empty => exact .stop
  | node hne _ _ _ hbefore hafter => exact .node hne hbefore hafter

/-! The nodes of a storage -/

/-- The children and the tree of a storage are what reading it at an entry gives. -/
def ReadAs (directory : List DirEntry) (id : Nat) (storage : CfbNode) : Prop :=
  ∃ levels visited visited',
    readStorage directory levels id visited = .ok (storage.children, storage.treeRoot, visited')

theorem readNodes_kept {levels : Nat} {nodes : List (Nat × CfbNode)}
    (h : readNodes (readStorage directory levels) directory order visited = .ok (nodes, visited')) :
    nodes.map Prod.fst = order.filter (isNode directory) ∧
      ∀ node ∈ nodes, node.2.isStorage = true → ReadAs directory node.1 node.2 := by
  induction order generalizing visited nodes with
  | nil =>
      cases h
      exact ⟨rfl, by simp⟩
  | cons id order ih =>
      rw [readNodes] at h
      simp only at h
      by_cases hstorage : (directory.getD id {}).type = kTypeStorage
      · rw [if_pos hstorage] at h
        obtain ⟨read, hread, h⟩ := bind_eq_ok.1 h
        obtain ⟨⟨rest, after⟩, hrest, h⟩ := bind_eq_ok.1 h
        cases h
        obtain ⟨hids, hinner⟩ := ih hrest
        have hkept : isNode directory id = true := isNode_storage hstorage
        refine ⟨?_, List.forall_mem_cons.2 ⟨fun _ => ⟨levels, visited, read.2.2, hread⟩, hinner⟩⟩
        rw [List.map_cons, hids, List.filter_cons_of_pos hkept]
      · rw [if_neg hstorage] at h
        by_cases hstream : (directory.getD id {}).type = kTypeStream
        · rw [if_pos hstream] at h
          obtain ⟨⟨rest, after⟩, hrest, h⟩ := bind_eq_ok.1 h
          cases h
          obtain ⟨hids, hinner⟩ := ih hrest
          have hkept : isNode directory id = true := isNode_stream hstream
          refine ⟨?_, List.forall_mem_cons.2 ⟨fun hs => absurd hs Bool.false_ne_true, hinner⟩⟩
          rw [List.map_cons, hids, List.filter_cons_of_pos hkept]
        · rw [if_neg hstream] at h
          have hnot : ¬ isNode directory id = true := by
            rw [isNode_iff]
            exact fun h => h.elim hstorage hstream
          rw [List.filter_cons_of_neg hnot]
          exact ih h

theorem lookup_of_get {source : List Nat} (hnodup : source.Nodup) (hfew : source.length ≤ 2 ^ 32) {p : Nat}
    (h : source[p]? = some id) : lookup source id = p := by
  obtain ⟨hlt, hget⟩ := List.getElem?_eq_some_iff.1 h
  have hindex : source.idxOf? id = some p := by
    refine List.idxOf?_eq_some_iff.2 ⟨hlt, hget, fun j hj heq => ?_⟩
    have hsame : j = p := (hnodup.getElem_inj_iff).1 (heq.trans hget.symm)
    omega
  rw [lookup, hindex]
  exact Nat.mod_eq_of_lt (hlt.trans_le hfew)

theorem lookup_of_not_mem {source : List Nat} (h : id ∉ source) : lookup source id = kNone := by
  rw [lookup, List.idxOf?_eq_none_iff.2 h]

/-- What reading the storage at an entry gives. -/
structure StorageShape (directory : List DirEntry) (id : Nat) (storage : CfbNode) (ids : List Nat) : Prop where
  inOrder : InOrder (dirLinks directory) (directory.getD id {}).child ids
  length : storage.children.length = (ids.filter (isNode directory)).length
  placed : Placed (dirLinks directory) (childLinks storage.children) (isNode directory) ids
    (lookup (ids.filter (isNode directory)))
  treeRoot : storage.treeRoot = lookup (ids.filter (isNode directory)) (directory.getD id {}).child
  inner : ∀ (i childId : Nat) (child : CfbNode), (ids.filter (isNode directory))[i]? = some childId →
    storage.children[i]? = some child → child.isStorage = true → ReadAs directory childId child

theorem readStorage_order (hl : Links directory) {pushed : Visited × List Frame}
    {walked : List Nat × Visited} (hpush : pushEntry directory visited [] id = .ok pushed) (hid : id < 2 ^ 32)
    (hwalk : readOrder directory (3 * directory.length + 1) pushed.1 pushed.2 [] = .ok walked) :
    InOrder (dirLinks directory) id walked.1 ∧ walked.1.Nodup ∧ ∀ other ∈ walked.1, other < kCfbNoStream := by
  obtain ⟨htree, fresh, hfresh, hperm⟩ := walk_tree hl hid hpush hwalk
  exact ⟨inOrder_of_siblingTree htree, hperm.nodup_iff.2 hfresh.nodup, fun other h => hfresh.small other (hperm.mem_iff.1 h)⟩

/-- Each kept entry has its place, and the links of the place are those of the entry. -/
theorem placed_of_nodes {nodes : List (Nat × CfbNode)} {ids : List Nat} (hnodup : ids.Nodup)
    (hsmall : ∀ other ∈ ids, other < kCfbNoStream) (hnodes : nodes.map Prod.fst = ids.filter (isNode directory)) :
    Placed (dirLinks directory) (childLinks (nodes.map (linkNode directory (ids.filter (isNode directory)))))
      (isNode directory) ids (lookup (ids.filter (isNode directory))) := by
  have hsource : (ids.filter (isNode directory)).Nodup := hnodup.filter _
  have hfew : (ids.filter (isNode directory)).length ≤ kCfbNoStream :=
    (List.length_filter_le _ _).trans (length_le_links hnodup hsmall)
  have hget : ∀ (p id : Nat), (ids.filter (isNode directory))[p]? = some id → ∃ node : Nat × CfbNode,
      node.1 = id ∧ (nodes.map (linkNode directory (ids.filter (isNode directory))))[p]? =
        some (linkNode directory (ids.filter (isNode directory)) node) := by
    intro p id h
    rw [← hnodes, List.getElem?_map, Option.map_eq_some_iff] at h
    obtain ⟨node, hnode, hfst⟩ := h
    exact ⟨node, hfst, by rw [List.getElem?_map, hnode, Option.map_some]⟩
  refine {
    at_place := fun p id h => lookup_of_get hsource (hfew.trans (by decide)) h
    valid := fun p id h => ?_
    left := fun p id h => ?_
    right := fun p id h => ?_
    outside := fun id h => lookup_of_not_mem h
    stop := fun h => Nat.lt_irrefl _ (hsmall _ h) }
  · obtain ⟨hlt, -⟩ := List.getElem?_eq_some_iff.1 h
    exact Nat.ne_of_lt (hlt.trans_le hfew)
  · obtain ⟨node, rfl, hnode⟩ := hget p id h
    rw [childLinks]
    simp only [hnode]
    rfl
  · obtain ⟨node, rfl, hnode⟩ := hget p id h
    rw [childLinks]
    simp only [hnode]
    rfl

theorem shape_of_readAs (hl : Links directory) (h : ReadAs directory id storage) :
    ∃ ids, StorageShape directory id storage ids := by
  obtain ⟨levels, visited, visited', h⟩ := h
  cases levels with
  | zero => cases h
  | succ levels =>
      rw [readStorage] at h
      simp only at h
      by_cases hno : (directory.getD id {}).child = kCfbNoStream
      · rw [if_pos hno] at h
        simp only [pure_eq_ok, Except.ok.injEq, Prod.mk.injEq] at h
        obtain ⟨hchildren, hroot, -⟩ := h
        refine ⟨[], ?_, by rw [← hchildren]; rfl, ?_, ?_, by simp⟩
        · rw [hno]
          exact .stop
        · exact ⟨by simp, by simp, by simp, by simp, fun id _ => lookup_of_not_mem (by simp), by simp⟩
        · rw [← hroot, lookup_of_not_mem (by simp)]
      · rw [if_neg hno] at h
        obtain ⟨pushed, hpush, h⟩ := bind_eq_ok.1 h
        obtain ⟨walked, hwalk, h⟩ := bind_eq_ok.1 h
        obtain ⟨nodes, hnodes, h⟩ := bind_eq_ok.1 h
        simp only [pure_eq_ok, Except.ok.injEq, Prod.mk.injEq] at h
        obtain ⟨hchildren, hroot, -⟩ := h
        obtain ⟨hin, hnodup, hsmall⟩ := readStorage_order hl hpush (hl id).2.2 hwalk
        obtain ⟨hids, hinner⟩ := readNodes_kept hnodes
        rw [hids] at hchildren hroot
        refine ⟨walked.1, hin, ?_, ?_, hroot.symm, fun i childId child hid hchild hstorage => ?_⟩
        · rw [← hchildren, List.length_map, ← hids, List.length_map]
        · rw [← hchildren]
          exact placed_of_nodes hnodup hsmall hids
        · rw [← hids, List.getElem?_map, Option.map_eq_some_iff] at hid
          rw [← hchildren, List.getElem?_map, Option.map_eq_some_iff] at hchild
          obtain ⟨node, hnode, rfl⟩ := hid
          obtain ⟨_, hsame, rfl⟩ := hchild
          rw [hnode, Option.some.injEq] at hsame
          subst hsame
          exact hinner node (List.mem_of_getElem? hnode) hstorage

/-! The search -/

def compareChild (children : List CfbNode) (name : CfbName) (position : Nat) : Ordering :=
  children[position]?.elim .lt fun child => compareNames name child.name

theorem searchFrom_eq_search {gap : Nat → Nat → Prop} {start low high steps : Nat}
    (h : Spans (childLinks children) gap start low high) (hhigh : high ≤ children.length) :
    searchFrom children name steps start = search (childLinks children) (compareChild children name) steps start := by
  induction h generalizing steps with
  | stop =>
      cases steps with
      | zero => rfl
      | succ steps =>
          rw [search, if_pos rfl, searchFrom]
          exact if_pos rfl
  | @node position low high hne hlow hin _ _ ihl ihr =>
      cases steps with
      | zero => rfl
      | succ steps =>
          have hget : children[position]? = some (children.get ⟨position, hin.trans_le hhigh⟩) :=
            List.getElem?_eq_getElem _
          have hnone : position ≠ kNone := hne
          have hleft := @ihl steps (hin.le.trans hhigh)
          have hright := @ihr steps hhigh
          simp only [childLinks, hget, Option.elim_some] at hleft hright
          rw [search, if_neg hne, searchFrom, if_neg hnone, hget]
          cases hcompare : compareNames name (children.get ⟨position, hin.trans_le hhigh⟩).name <;>
            simp only [compareChild, hget, Option.elim_some, childLinks, hleft, hright, hcompare]

/-- A search in the tree of a storage, told by the nodes themselves. -/
structure SearchFinds (storage : CfbNode) : Prop where
  finds : ∀ (name : CfbName) (i : Nat), findBySearch storage name = some i ↔
    ∃ child, storage.children[i]? = some child ∧ compareNames name child.name = .eq
  enumerated : ∀ (name : CfbName) (child : CfbNode), findByEnumeration storage name = some child →
    ∃ i, findBySearch storage name = some i ∧ storage.children[i]? = some child

/-- The search ends by itself, at a node that compares equal or at none. -/
structure SearchStops (storage : CfbNode) : Prop where
  stops : ∀ (name : CfbName) (steps : Nat), storage.children.length < steps →
    searchFrom storage.children name steps storage.treeRoot = findBySearch storage name
  sound : ∀ (name : CfbName) (i : Nat), findBySearch storage name = some i →
    ∃ child, storage.children[i]? = some child ∧ compareNames name child.name = .eq

theorem compareChild_eq_eq {i : Nat} : compareChild children name i = .eq ↔
    ∃ child, children[i]? = some child ∧ compareNames name child.name = .eq := by
  rw [compareChild]
  cases children[i]? with
  | none => simp
  | some child => simp

theorem separates_of_ascending (h : storage.children.Pairwise fun a b => compareNames a.name b.name = .lt) :
    Separates (compareChild storage.children name) 0 storage.children.length := by
  intro i j _ hij hj hne
  have hlt := List.pairwise_iff_getElem.1 h i j (hij.trans hj) hj hij
  rw [compareChild, List.getElem?_eq_getElem hj, Option.elim_some] at hne
  rw [compareChild, List.getElem?_eq_getElem (hij.trans hj), Option.elim_some, compareNames_eq_gt]
  rw [compareNames_eq_lt] at hlt
  refine hlt.trans_le ?_
  rw [ne_eq, compareNames_eq_lt, not_lt] at hne
  exact hne

theorem StorageShape.spans {ids : List Nat} (h : StorageShape directory id storage ids) :
    Spans (childLinks storage.children) (fun low high => (∀ id ∈ ids, isNode directory id = true) → low = high)
      storage.treeRoot 0 storage.children.length := by
  have hall : ids = [] ++ ids ++ [] := by simp
  have hspans := h.inOrder.spans h.placed hall
  rw [List.nil_append, ← h.length, ← h.treeRoot] at hspans
  exact hspans

theorem StorageShape.stops {ids : List Nat} (h : StorageShape directory id storage ids) : SearchStops storage := by
  refine ⟨fun name steps hsteps => ?_, fun name i hi => ?_⟩
  · rw [findBySearch, searchFrom_eq_search h.spans (Nat.le_refl _), searchFrom_eq_search h.spans (Nat.le_refl _)]
    exact h.spans.search_steps (by omega) (by omega)
  · rw [findBySearch, searchFrom_eq_search h.spans (Nat.le_refl _)] at hi
    exact compareChild_eq_eq.1 (search_sound hi)

theorem StorageShape.finds {ids : List Nat} (h : StorageShape directory id storage ids)
    (hnodes : ∀ other ∈ ids, isNode directory other = true)
    (hascending : storage.children.Pairwise fun a b => compareNames a.name b.name = .lt) : SearchFinds storage := by
  have hspans := h.spans.mono fun _ _ hg => hg hnodes
  have hfinds : ∀ (name : CfbName) (i : Nat), findBySearch storage name = some i ↔
      ∃ child, storage.children[i]? = some child ∧ compareNames name child.name = .eq := by
    intro name i
    rw [findBySearch, searchFrom_eq_search hspans (Nat.le_refl _),
      hspans.search_eq_some_iff (separates_of_ascending hascending) (by omega), ← compareChild_eq_eq]
    constructor
    · exact fun ⟨_, _, heq⟩ => heq
    · intro heq
      obtain ⟨child, hchild, -⟩ := compareChild_eq_eq.1 heq
      exact ⟨Nat.zero_le _, (List.getElem?_eq_some_iff.1 hchild).1, heq⟩
  refine ⟨hfinds, fun name child hchild => ?_⟩
  obtain ⟨i, hi⟩ := List.getElem?_of_mem (List.mem_of_find?_eq_some hchild)
  have hname : child.name = name := by simpa using List.find?_some hchild
  exact ⟨i, (hfinds name i).2 ⟨child, hi, by rw [hname, compareNames_eq_eq]⟩, hi⟩

/-! Every storage of a package -/

/-- The storages of a tree of nodes. -/
inductive StorageIn (root : CfbNode) : CfbNode → Prop
  | root : StorageIn root root
  | child {storage node : CfbNode} (h : StorageIn root storage) (hnode : node ∈ storage.children)
      (hstorage : node.isStorage = true) : StorageIn root node

/-- The storages of a package with their entries: the children of a storage are, in order, the entries of its
tree that are storages or streams. -/
inductive StorageAt (directory : List DirEntry) (root : CfbNode) : Nat → CfbNode → Prop
  | root : StorageAt directory root 0 root
  | child {parent i id : Nat} {storage node : CfbNode} {ids : List Nat} (h : StorageAt directory root parent storage)
      (hids : InOrder (dirLinks directory) (directory.getD parent {}).child ids)
      (hid : (ids.filter (isNode directory))[i]? = some id) (hnode : storage.children[i]? = some node)
      (hstorage : node.isStorage = true) : StorageAt directory root id node

theorem parse_eq_ok : parse bytes = .ok m ↔ ∃ header fat mini directory,
    parseHeader { source := ⟨bytes, kFormat, "the file"⟩ } = .ok header ∧ buildFat header = .ok fat ∧
      buildMiniFat fat = .ok mini ∧ parseDirectory mini = .ok directory ∧
      CfbReader.buildTree mini directory = .ok m := by
  simp only [parse, bind_eq_ok, exists_and_left]

/-- The directory can be read again from the model, and the root is read from its first entry. -/
theorem parse_directory (hparse : parse bytes = .ok m) (hdirectory : parseDirectory m = .ok directory) :
    CfbTree.Links directory ∧ ReadAs directory 0 m.root := by
  obtain ⟨header, fat, mini, entries, -, -, -, hentries, htree⟩ := parse_eq_ok.1 hparse
  simp only [CfbReader.buildTree, bind_eq_ok, pure_eq_ok, Except.ok.injEq] at htree
  obtain ⟨-, -, read, hread, rfl⟩ := htree
  have hsame : parseDirectory mini = .ok directory := hdirectory
  rw [hentries, Except.ok.injEq] at hsame
  subst hsame
  exact ⟨parseDirectory_links hentries, _, _, read.2.2, hread⟩

theorem StorageAt.readAs {root : CfbNode} (hl : CfbTree.Links directory) (hroot : ReadAs directory 0 root)
    (h : StorageAt directory root id storage) : ReadAs directory id storage := by
  induction h with
  | root => exact hroot
  | child _ hids hid hnode hstorage ih =>
      obtain ⟨ids, hshape⟩ := shape_of_readAs hl ih
      rw [hids.unique hshape.inOrder] at hid
      exact hshape.inner _ _ _ hid hnode hstorage

theorem StorageIn.at {root : CfbNode} (hl : CfbTree.Links directory) (hroot : ReadAs directory 0 root)
    (h : StorageIn root storage) : ∃ id, StorageAt directory root id storage := by
  induction h with
  | root => exact ⟨0, .root⟩
  | child _ hnode hstorage ih =>
      obtain ⟨parent, hat⟩ := ih
      obtain ⟨ids, hshape⟩ := shape_of_readAs hl (hat.readAs hl hroot)
      obtain ⟨i, hi⟩ := List.getElem?_of_mem hnode
      have hlt : i < (ids.filter (isNode directory)).length := by
        rw [← hshape.length]
        exact (List.getElem?_eq_some_iff.1 hi).1
      exact ⟨_, .child hat hshape.inOrder (List.getElem?_eq_getElem hlt) hi hstorage⟩

/-- Each storage of a package that is read is the one at some entry, and its search ends at a node that compares
equal or at none; it finds what there is where the tree has only storages and streams, in ascending order. -/
theorem search_refines_enumeration (hparse : parse bytes = .ok m) (hdirectory : parseDirectory m = .ok directory) :
    (∀ storage, StorageIn m.root storage → (∃ id, StorageAt directory m.root id storage) ∧ SearchStops storage) ∧
    ∀ id storage, StorageAt directory m.root id storage →
      (∀ other, Reached (dirLinks directory) (directory.getD id {}).child other → isNode directory other = true) →
      (storage.children.Pairwise fun a b => compareNames a.name b.name = .lt) → SearchFinds storage := by
  obtain ⟨hl, hroot⟩ := parse_directory hparse hdirectory
  refine ⟨fun storage hin => ?_, fun id storage hat hnodes hascending => ?_⟩
  · obtain ⟨id, hat⟩ := hin.at hl hroot
    obtain ⟨ids, hshape⟩ := shape_of_readAs hl (hat.readAs hl hroot)
    exact ⟨⟨id, hat⟩, hshape.stops⟩
  · obtain ⟨ids, hshape⟩ := shape_of_readAs hl (hat.readAs hl hroot)
    exact hshape.finds (fun other hother => hnodes other (hshape.inOrder.reached hother)) hascending

/-- An entry that becomes a node and leads to nothing but the entry 2. -/
def leadsToSecond (directory : List DirEntry) (id : Nat) : Bool :=
  isNode directory id ∧ (directory.getD id {}).left ∈ [2, kCfbNoStream] ∧
    (directory.getD id {}).right ∈ [2, kCfbNoStream]

/-- The root of the package, with its tree of the entries 1 and 2. -/
theorem search_refines_enumeration_crossing : ∃ m directory, parse crossingPackage = .ok m ∧
    parseDirectory m = .ok directory ∧ SearchStops m.root ∧ SearchFinds m.root := by
  obtain ⟨⟨m, directory⟩, h⟩ := exists_of_isOk (x := do
    let m ← parse crossingPackage
    let directory ← parseDirectory m
    rejectIf (¬ m.root.children.Pairwise fun a b => compareNames a.name b.name = .lt) "" ""
    rejectIf (¬ ((directory.getD 0 {}).child = 1 ∧ [1, 2].all (leadsToSecond directory) = true)) "" ""
    return (m, directory)) (by decide +kernel)
  simp only [bind_eq_ok, rejectIf_eq_ok, not_not, exists_const, pure_eq_ok, Except.ok.injEq, Prod.mk.injEq] at h
  obtain ⟨m', hm, directory', hdirectory, hascending, ⟨hchild, hclosed⟩, rfl, rfl⟩ := h
  obtain ⟨hstops, hfinds⟩ := search_refines_enumeration hm hdirectory
  have hids : ∀ other, Reached (dirLinks directory') (directory'.getD 0 {}).child other → other ∈ [1, 2] := by
    intro other hother
    induction hother with
    | start => exact List.mem_cons.2 (.inl hchild)
    | left _ hne ih =>
        rcases List.mem_cons.1 (of_decide_eq_true (List.all_eq_true.1 hclosed _ ih)).2.1 with h | h
        · exact List.mem_cons_of_mem _ (List.mem_singleton.2 h)
        · exact absurd (List.mem_singleton.1 h) hne
    | right _ hne ih =>
        rcases List.mem_cons.1 (of_decide_eq_true (List.all_eq_true.1 hclosed _ ih)).2.2 with h | h
        · exact List.mem_cons_of_mem _ (List.mem_singleton.2 h)
        · exact absurd (List.mem_singleton.1 h) hne
  exact ⟨_, _, hm, hdirectory, (hstops _ .root).2,
    hfinds 0 _ .root (fun other hother => (of_decide_eq_true (List.all_eq_true.1 hclosed other (hids other hother))).1) hascending⟩

end TheSeed.CfbSearch
