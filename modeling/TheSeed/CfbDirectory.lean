import Mathlib.Data.List.Perm.Subperm
import TheSeed.CfbTree

namespace TheSeed.CfbDirectory

open Checked BoundedBytes CfbReader CfbTree

/-! Reading the directory: the walks of the search trees end, and the nodes are the entries of each tree in order. -/

def entryAt (directory : List DirEntry) (id : Nat) : DirEntry := directory.getD id {}

/-- An entry that becomes a node. -/
def isNode (directory : List DirEntry) (id : Nat) : Bool :=
  (entryAt directory id).type = kTypeStorage || (entryAt directory id).type = kTypeStream

/-- The search tree at a link, with its entries in left-node-right order. -/
inductive SiblingTree (directory : List DirEntry) : Nat → List Nat → Prop
  | empty : SiblingTree directory kCfbNoStream []
  | node {id : Nat} {before after : List Nat} : id ≠ kCfbNoStream → id < directory.length →
      SiblingTree directory (entryAt directory id).left before →
      SiblingTree directory (entryAt directory id).right after → SiblingTree directory id (before ++ id :: after)

/-- Where a link leads among the nodes of a sibling tree, whose entries are in this order. -/
def linkPosition (directory : List DirEntry) (order : List Nat) (link : Nat) : Nat :=
  if link = kCfbNoStream ∨ isNode directory link = false then kNone
  else (order.filter (isNode directory)).idxOf link

/-- The node has what the entry says, and its links are positions. -/
structure Describes (directory : List DirEntry) (order : List Nat) (id : Nat) (node : CfbNode) : Prop where
  name : node.name = (entryAt directory id).name
  classId : node.classId = (entryAt directory id).classId
  stateBits : node.stateBits = (entryAt directory id).stateBits
  creationTime : node.creationTime = (entryAt directory id).creationTime
  modificationTime : node.modificationTime = (entryAt directory id).modificationTime
  left : node.left = linkPosition directory order (entryAt directory id).left
  right : node.right = linkPosition directory order (entryAt directory id).right

/-- What the tree of a storage is: its children, the position of the tree's root, and the entries of all its nodes. -/
abbrev StorageTree := Nat → List CfbNode → Nat → List Nat → Prop

/-- These entries of a sibling tree give these nodes; the last list has the entries of the nodes and of those below. -/
inductive ChildrenOf (directory : List DirEntry) (order : List Nat) (inner : StorageTree) :
    List Nat → List CfbNode → List Nat → Prop
  | nil : ChildrenOf directory order inner [] [] []
  | stream {id : Nat} {node : CfbNode} {rest : List Nat} {nodes : List CfbNode} {ids : List Nat} :
      (entryAt directory id).type = kTypeStream → Describes directory order id node → node.isStorage = false →
      node.children = [] → node.startSector = (entryAt directory id).startSector →
      node.size = (entryAt directory id).size → ChildrenOf directory order inner rest nodes ids →
      ChildrenOf directory order inner (id :: rest) (node :: nodes) (id :: ids)
  | storage {id : Nat} {node : CfbNode} {rest : List Nat} {nodes : List CfbNode} {deep ids : List Nat} :
      (entryAt directory id).type = kTypeStorage → Describes directory order id node → node.isStorage = true →
      inner id node.children node.treeRoot deep → ChildrenOf directory order inner rest nodes ids →
      ChildrenOf directory order inner (id :: rest) (node :: nodes) (id :: deep ++ ids)

/-- A storage, with so many levels for itself and the storages in it. -/
def StorageOf (directory : List DirEntry) : Nat → StorageTree
  | 0 => fun _ _ _ _ => False
  | levels + 1 => fun index nodes root ids => ∃ order,
      SiblingTree directory (entryAt directory index).child order ∧
      root = linkPosition directory order (entryAt directory index).child ∧
      ChildrenOf directory order (StorageOf directory levels) (order.filter (isNode directory)) nodes ids

/-- How deep the storages are nested, the node itself counted. -/
def nesting : CfbNode → Nat
  | ⟨_, isStorage, _, _, _, _, _, _, children, _, _, _⟩ => if isStorage then nestingAll children + 1 else 0
where
  nestingAll : List CfbNode → Nat
    | [] => 0
    | child :: rest => max (nesting child) (nestingAll rest)

/-- The walk of a search tree, without a bound on its steps. -/
inductive Walks (directory : List DirEntry) : Visited → List Frame → List Nat → Outcome (List Nat × Visited) → Prop
  | done {visited : Visited} {order : List Nat} : Walks directory visited [] order (.ok (order, visited))
  | left {visited visited' : Visited} {id : Nat} {rest stack : List Frame} {order : List Nat}
      {outcome : Outcome (List Nat × Visited)} :
      pushEntry directory visited (⟨id, 1⟩ :: rest) (entryAt directory id).left = .ok (visited', stack) →
      Walks directory visited' stack order outcome → Walks directory visited (⟨id, 0⟩ :: rest) order outcome
  | leftThrows {visited : Visited} {id : Nat} {rest : List Frame} {order : List Nat} {what : String} :
      pushEntry directory visited (⟨id, 1⟩ :: rest) (entryAt directory id).left = .error what →
      Walks directory visited (⟨id, 0⟩ :: rest) order (.error what)
  | emit {visited : Visited} {id : Nat} {rest : List Frame} {order : List Nat}
      {outcome : Outcome (List Nat × Visited)} : Walks directory visited (⟨id, 2⟩ :: rest) (order ++ [id]) outcome →
      Walks directory visited (⟨id, 1⟩ :: rest) order outcome
  | right {visited visited' : Visited} {id stage : Nat} {rest stack : List Frame} {order : List Nat}
      {outcome : Outcome (List Nat × Visited)} : stage ≠ 0 → stage ≠ 1 →
      pushEntry directory visited rest (entryAt directory id).right = .ok (visited', stack) →
      Walks directory visited' stack order outcome → Walks directory visited (⟨id, stage⟩ :: rest) order outcome
  | rightThrows {visited : Visited} {id stage : Nat} {rest : List Frame} {order : List Nat} {what : String} :
      stage ≠ 0 → stage ≠ 1 → pushEntry directory visited rest (entryAt directory id).right = .error what →
      Walks directory visited (⟨id, stage⟩ :: rest) order (.error what)

section walk

variable {directory : List DirEntry} {visited visited' : Visited} {stack stack' : List Frame} {order order' : List Nat}
  {id n : Nat}

/-- The entries that a walk can still reach. -/
def free (directory : List DirEntry) (visited : Visited) : Nat :=
  (List.range directory.length).countP fun id => !visited id

/-- The rounds that a frame takes. -/
def rounds (frame : Frame) : Nat := if frame.stage = 0 then 3 else if frame.stage = 1 then 2 else 1

def allRounds (stack : List Frame) : Nat := (stack.map rounds).sum

theorem countP_update (h : id < n) (hfree : visited id = false) :
    (List.range n).countP (fun i => !Function.update visited id true i) + 1 = (List.range n).countP fun i => !visited i := by
  induction n with
  | zero => exact absurd h (Nat.not_lt_zero _)
  | succ n ih =>
    rw [List.range_succ, List.countP_append, List.countP_append]
    by_cases hn : id = n
    · subst hn
      have hsame : (List.range id).countP (fun i => !Function.update visited id true i) =
          (List.range id).countP fun i => !visited i := by
        refine List.countP_congr fun i hi => ?_
        rw [Function.update_of_ne (List.mem_range.mp hi).ne]
      simp [hsame, hfree]
    · have hlt : id < n := by omega
      have hlast : Function.update visited id true n = visited n := Function.update_of_ne (Ne.symm hn) _ _
      rw [← ih hlt]
      simp only [List.countP_cons, List.countP_nil, hlast]
      omega

/-- An entry that is reached is not free any more. -/
theorem push_rounds (h : pushEntry directory visited stack id = .ok (visited', stack')) :
    3 * free directory visited' + allRounds stack' = 3 * free directory visited + allRounds stack := by
  rcases pushEntry_eq_ok.1 h with ⟨-, rfl, rfl⟩ | ⟨⟨-, hlt, hfree, -⟩, rfl, rfl⟩
  · rfl
  · have hcount := countP_update hlt hfree
    have hrounds : allRounds (⟨id, 0⟩ :: stack) = 3 + allRounds stack := by
      rw [allRounds, List.map_cons, List.sum_cons]
      rfl
    rw [hrounds, free, free]
    omega

/-- The walk ends within the steps that the reader gives it. -/
theorem readOrder_walks (steps : Nat) : ∀ {visited : Visited} {stack : List Frame} {order : List Nat},
    3 * free directory visited + allRounds stack < steps →
    Walks directory visited stack order (readOrder directory steps visited stack order) := by
  induction steps with
  | zero => exact fun h => absurd h (Nat.not_lt_zero _)
  | succ steps ih =>
    intro visited stack order h
    cases stack with
    | nil => exact .done
    | cons frame rest =>
      obtain ⟨id, stage⟩ := frame
      have hrounds : allRounds (⟨id, stage⟩ :: rest) = rounds ⟨id, stage⟩ + allRounds rest := by
        rw [allRounds, List.map_cons, List.sum_cons]
        rfl
      rw [readOrder]
      by_cases hzero : stage = 0
      · subst hzero
        simp only [if_true]
        have hone : allRounds (⟨id, 1⟩ :: rest) = 2 + allRounds rest := by
          rw [allRounds, List.map_cons, List.sum_cons]
          rfl
        have hthree : rounds ⟨id, 0⟩ = 3 := rfl
        cases hpush : pushEntry directory visited (⟨id, 1⟩ :: rest) (directory.getD id {}).left with
        | error what => exact .leftThrows hpush
        | ok pushed =>
          have hsame := push_rounds hpush
          exact .left hpush (ih (by omega))
      · simp only [if_neg hzero]
        by_cases hone : stage = 1
        · subst hone
          simp only [if_true]
          have htwo : allRounds (⟨id, 2⟩ :: rest) = 1 + allRounds rest := by
            rw [allRounds, List.map_cons, List.sum_cons]
            rfl
          have hrounds' : rounds ⟨id, 1⟩ = 2 := rfl
          exact .emit (ih (by omega))
        · simp only [if_neg hone]
          have hlast : rounds ⟨id, stage⟩ = 1 := by rw [rounds, if_neg hzero, if_neg hone]
          cases hpush : pushEntry directory visited rest (directory.getD id {}).right with
          | error what => exact .rightThrows hzero hone hpush
          | ok pushed =>
            have hsame := push_rounds hpush
            exact .right hzero hone hpush (ih (by omega))

theorem free_le (directory : List DirEntry) (visited : Visited) : free directory visited ≤ directory.length := by
  have hle := @List.countP_le_length _ (fun id => !visited id) (List.range directory.length)
  rwa [List.length_range] at hle

/-- The walk of a storage's tree ends. -/
theorem storage_walks {pushed : Visited × List Frame} (h : pushEntry directory visited [] id = .ok pushed) :
    Walks directory pushed.1 pushed.2 [] (readOrder directory (3 * directory.length + 1) pushed.1 pushed.2 []) := by
  have hsame := push_rounds h
  have hfree := free_le directory visited
  have hnil : allRounds [] = 0 := rfl
  exact readOrder_walks _ (by omega)

/-- What a stack still gives to the order. -/
inductive Pending (directory : List DirEntry) : List Frame → List Nat → Prop
  | nil : Pending directory [] []
  | zero {id : Nat} {rest : List Frame} {before after more : List Nat} :
      SiblingTree directory (entryAt directory id).left before →
      SiblingTree directory (entryAt directory id).right after → Pending directory rest more →
      Pending directory (⟨id, 0⟩ :: rest) (before ++ id :: after ++ more)
  | one {id : Nat} {rest : List Frame} {after more : List Nat} :
      SiblingTree directory (entryAt directory id).right after → Pending directory rest more →
      Pending directory (⟨id, 1⟩ :: rest) (id :: after ++ more)
  | two {id stage : Nat} {rest : List Frame} {after more : List Nat} : stage ≠ 0 → stage ≠ 1 →
      SiblingTree directory (entryAt directory id).right after → Pending directory rest more →
      Pending directory (⟨id, stage⟩ :: rest) (after ++ more)

/-- A push at a link adds the tree at the link. -/
theorem Pending.pushed {link : Nat} {more : List Nat} (h : pushEntry directory visited stack link = .ok (visited', stack'))
    (hp : Pending directory stack' more) :
    ∃ tree rest, more = tree ++ rest ∧ SiblingTree directory link tree ∧ Pending directory stack rest := by
  rcases pushEntry_eq_ok.1 h with ⟨rfl, -, rfl⟩ | ⟨⟨hne, hlt, -, -⟩, -, rfl⟩
  · exact ⟨[], more, rfl, .empty, hp⟩
  · cases hp with
    | zero hbefore hafter hrest => exact ⟨_, _, rfl, .node hne hlt hbefore hafter, hrest⟩
    | two hzero _ _ _ => exact absurd rfl hzero

theorem walks_pending {outcome : Outcome (List Nat × Visited)} (h : Walks directory visited stack order outcome)
    (hok : outcome = .ok (order', visited')) : ∃ more, order' = order ++ more ∧ Pending directory stack more := by
  induction h with
  | done =>
    cases hok
    exact ⟨[], (List.append_nil _).symm, .nil⟩
  | left hpush _ ih =>
    obtain ⟨more, rfl, hp⟩ := ih hok
    obtain ⟨tree, rest, rfl, htree, hone⟩ := hp.pushed hpush
    cases hone with
    | one hafter hrest =>
      refine ⟨_, rfl, ?_⟩
      have hzero := Pending.zero htree hafter hrest
      simpa using hzero
    | two _ hone _ _ => exact absurd rfl hone
  | emit _ ih =>
    obtain ⟨more, rfl, hp⟩ := ih hok
    cases hp with
    | two _ _ hafter hrest => exact ⟨_, by simp, .one hafter hrest⟩
  | right hzero hone hpush _ ih =>
    obtain ⟨more, rfl, hp⟩ := ih hok
    obtain ⟨tree, rest, rfl, htree, hrest⟩ := hp.pushed hpush
    exact ⟨_, rfl, .two hzero hone htree hrest⟩
  | leftThrows _ => cases hok
  | rightThrows _ _ _ => cases hok

end walk

section positions

variable {directory : List DirEntry} {order : List Nat} {id link : Nat}

theorem SiblingTree.link_mem (h : SiblingTree directory link order) (hne : link ≠ kCfbNoStream) : link ∈ order := by
  cases h with
  | empty => exact absurd rfl hne
  | node _ _ _ _ => exact List.mem_append_right _ List.mem_cons_self

theorem SiblingTree.ne_noStream (h : SiblingTree directory link order) : ∀ id ∈ order, id ≠ kCfbNoStream := by
  induction h with
  | empty => exact fun id hid => nomatch hid
  | node hne _ _ _ ihb iha =>
    intro id hid
    rcases List.mem_append.mp hid with hid | hid
    · exact ihb id hid
    · rcases List.mem_cons.mp hid with rfl | hid
      · exact hne
      · exact iha id hid

/-- The links of an entry stay in its tree. -/
theorem SiblingTree.closed (h : SiblingTree directory link order) : ∀ id ∈ order,
    ((entryAt directory id).left ≠ kCfbNoStream → (entryAt directory id).left ∈ order) ∧
      ((entryAt directory id).right ≠ kCfbNoStream → (entryAt directory id).right ∈ order) := by
  induction h with
  | empty => exact fun id hid => nomatch hid
  | node _ _ hbefore hafter ihb iha =>
    intro id hid
    rcases List.mem_append.mp hid with hid | hid
    · exact ⟨fun hne => List.mem_append_left _ ((ihb id hid).1 hne),
        fun hne => List.mem_append_left _ ((ihb id hid).2 hne)⟩
    · rcases List.mem_cons.mp hid with rfl | hid
      · exact ⟨fun hne => List.mem_append_left _ (hbefore.link_mem hne),
          fun hne => List.mem_append_right _ (List.mem_cons_of_mem _ (hafter.link_mem hne))⟩
      · exact ⟨fun hne => List.mem_append_right _ (List.mem_cons_of_mem _ ((iha id hid).1 hne)),
          fun hne => List.mem_append_right _ (List.mem_cons_of_mem _ ((iha id hid).2 hne))⟩

theorem lookup_eq (hshort : order.length ≤ 2 ^ 32) (hreal : ∀ id ∈ order, id ≠ kCfbNoStream)
    (hmem : link ≠ kCfbNoStream → link ∈ order) :
    lookup (order.filter (isNode directory)) link = linkPosition directory order link := by
  unfold lookup linkPosition
  by_cases hin : link ∈ order.filter (isNode directory)
  · obtain ⟨horder, hnode⟩ := List.mem_filter.mp hin
    have hlt := List.idxOf_lt_length_of_mem hin
    have hle := List.length_filter_le (isNode directory) order
    have hsome : (order.filter (isNode directory)).idxOf? link = some ((order.filter (isNode directory)).idxOf link) := by
      rw [List.idxOf_eq_getD_idxOf?]
      obtain ⟨position, hposition⟩ := Option.isSome_iff_exists.mp (List.isSome_idxOf?.mpr hin)
      rw [hposition, Option.getD_some]
    rw [hsome, if_neg]
    · exact Nat.mod_eq_of_lt (by omega)
    · simp [hreal link horder, hnode]
  · rw [List.idxOf?_eq_none_iff.mpr hin, if_pos]
    by_cases hno : link = kCfbNoStream
    · exact .inl hno
    · refine .inr ?_
      simpa [hmem hno] using hin

end positions

section nodes

variable {directory : List DirEntry} {visited visited' : Visited} {order source ids : List Nat} {id : Nat}
  {inner : Nat → Visited → Outcome StorageRead} {spec : StorageTree} {nodes : List (Nat × CfbNode)}

/-- What the reading of one storage gives: its tree, whose entries are reached for the first time. -/
def Gives (spec : StorageTree) (inner : Nat → Visited → Outcome StorageRead) : Prop :=
  ∀ id visited read, inner id visited = .ok read →
    ∃ deep fresh, spec id read.1 read.2.1 deep ∧ Fresh visited read.2.2 fresh ∧ deep.Subperm fresh

theorem isNode_iff : isNode directory id = true ↔
    (entryAt directory id).type = kTypeStorage ∨ (entryAt directory id).type = kTypeStream := by
  rw [isNode, Bool.or_eq_true, decide_eq_true_eq, decide_eq_true_eq]

theorem isNode_storage (h : (entryAt directory id).type = kTypeStorage) : isNode directory id = true :=
  isNode_iff.mpr (.inl h)

theorem isNode_stream (h : (entryAt directory id).type = kTypeStream) : isNode directory id = true :=
  isNode_iff.mpr (.inr h)

theorem readNodes_children (hinner : Gives spec inner)
    (hlinks : ∀ id ∈ ids,
      lookup source (entryAt directory id).left = linkPosition directory order (entryAt directory id).left ∧
      lookup source (entryAt directory id).right = linkPosition directory order (entryAt directory id).right)
    (h : readNodes inner directory ids visited = .ok (nodes, visited')) :
    nodes.map Prod.fst = ids.filter (isNode directory) ∧ ∃ all fresh,
      ChildrenOf directory order spec (ids.filter (isNode directory)) (nodes.map (linkNode directory source)) all ∧
      Fresh visited visited' fresh ∧ all.Subperm (ids ++ fresh) := by
  induction ids generalizing visited visited' nodes with
  | nil =>
    cases h
    exact ⟨rfl, [], [], .nil, .nil _, .refl _⟩
  | cons id ids ih =>
    have hlink := hlinks id List.mem_cons_self
    have hrest (visited visited' : Visited) (nodes : List (Nat × CfbNode)) :=
      @ih visited visited' nodes fun other hother => hlinks other (List.mem_cons_of_mem _ hother)
    rw [readNodes] at h
    simp only at h
    by_cases hstorage : (directory.getD id {}).type = kTypeStorage
    · rw [if_pos hstorage] at h
      obtain ⟨read, hread, h⟩ := bind_eq_ok.1 h
      obtain ⟨⟨rest, after⟩, hrestRead, h⟩ := bind_eq_ok.1 h
      cases h
      obtain ⟨deep, first, hspec, hfirst, hdeep⟩ := hinner _ _ _ hread
      obtain ⟨hfst, all, fresh, hchildren, hfresh, hall⟩ := hrest _ _ _ hrestRead
      rw [List.filter_cons_of_pos (isNode_storage hstorage)]
      refine ⟨by rw [List.map_cons, hfst], id :: deep ++ all, first ++ fresh, ?_, hfirst.append hfresh, ?_⟩
      · exact .storage hstorage ⟨rfl, rfl, rfl, rfl, rfl, hlink.1, hlink.2⟩ rfl hspec hchildren
      · have hperm : (first ++ (ids ++ fresh)).Perm (ids ++ (first ++ fresh)) := List.perm_append_comm_assoc _ _ _
        have hboth : (deep ++ all).Subperm (first ++ (ids ++ fresh)) := List.Subperm.append hdeep hall
        exact (List.subperm_cons id).mpr (hboth.trans hperm.subperm)
    · rw [if_neg hstorage] at h
      by_cases hstream : (directory.getD id {}).type = kTypeStream
      · rw [if_pos hstream] at h
        obtain ⟨⟨rest, after⟩, hrestRead, h⟩ := bind_eq_ok.1 h
        cases h
        obtain ⟨hfst, all, fresh, hchildren, hfresh, hall⟩ := hrest _ _ _ hrestRead
        rw [List.filter_cons_of_pos (isNode_stream hstream)]
        refine ⟨by rw [List.map_cons, hfst], id :: all, fresh, ?_, hfresh, (List.subperm_cons id).mpr hall⟩
        exact .stream hstream ⟨rfl, rfl, rfl, rfl, rfl, hlink.1, hlink.2⟩ rfl rfl rfl rfl hchildren
      · rw [if_neg hstream] at h
        obtain ⟨hfst, all, fresh, hchildren, hfresh, hall⟩ := hrest _ _ _ h
        have hnot : ¬isNode directory id = true := by
          rw [isNode_iff]
          exact fun h => h.elim hstorage hstream
        rw [List.filter_cons_of_neg hnot]
        exact ⟨hfst, all, fresh, hchildren, hfresh, hall.trans (List.sublist_cons_self id _).subperm⟩

end nodes

section storage

variable {directory : List DirEntry} {visited : Visited} {order ids all : List Nat} {id root levels : Nat}
  {nodes : List CfbNode}

/-- Entries that 32-bit links reach once are not more than there are links. -/
theorem length_le_links (hnodup : order.Nodup) (hsmall : ∀ id ∈ order, id < kCfbNoStream) :
    order.length ≤ kCfbNoStream := by
  have hsub : order.Subperm (List.range kCfbNoStream) :=
    List.subperm_of_subset hnodup fun id hid => List.mem_range.mpr (hsmall id hid)
  have hle := hsub.length_le
  rwa [List.length_range] at hle

/-- The walk of a storage gives the tree at its link, and reaches the entries of the tree. -/
theorem walk_tree (hl : Links directory) (hlt : id < 2 ^ 32) {pushed : Visited × List Frame}
    (hpush : pushEntry directory visited [] id = .ok pushed) {order : List Nat} {visited' : Visited}
    (hwalk : readOrder directory (3 * directory.length + 1) pushed.1 pushed.2 [] = .ok (order, visited')) :
    SiblingTree directory id order ∧ ∃ fresh, Fresh visited visited' fresh ∧ order.Perm fresh := by
  obtain ⟨mid, stack⟩ := pushed
  constructor
  · obtain ⟨more, horder, hp⟩ := walks_pending (storage_walks hpush) hwalk
    obtain ⟨tree, rest, rfl, htree, hnil⟩ := hp.pushed hpush
    cases hnil
    rwa [horder, List.nil_append, List.append_nil]
  · obtain ⟨new, hnew, hpending⟩ := push_fresh hlt hpush
    obtain ⟨more, fresh, horder, hfresh, hp⟩ := readOrder_fresh hl hwalk
    refine ⟨new ++ fresh, hnew.append hfresh, ?_⟩
    have hnone : pending ([] : List Frame) = [] := rfl
    rw [horder, List.nil_append]
    rwa [hpending, hnone, List.append_nil] at hp

theorem readStorage_gives (hl : Links directory) (levels : Nat) :
    Gives (StorageOf directory levels) (readStorage directory levels) := by
  induction levels with
  | zero => exact fun id visited read h => by cases h
  | succ levels ih =>
    intro id visited read h
    rw [readStorage] at h
    simp only at h
    by_cases hno : (directory.getD id {}).child = kCfbNoStream
    · rw [if_pos hno] at h
      cases h
      have hchild : (entryAt directory id).child = kCfbNoStream := hno
      refine ⟨[], [], ⟨[], ?_, ?_, .nil⟩, .nil _, .refl _⟩
      · rw [hchild]
        exact .empty
      · rw [linkPosition, if_pos (.inl hchild)]
    · rw [if_neg hno] at h
      obtain ⟨pushed, hpush, h⟩ := bind_eq_ok.1 h
      obtain ⟨⟨order, mid⟩, hwalk, h⟩ := bind_eq_ok.1 h
      obtain ⟨⟨nodes, after⟩, hnodes, h⟩ := bind_eq_ok.1 h
      cases h
      obtain ⟨htree, fresh, hfresh, hperm⟩ := walk_tree hl (hl id).2.2 hpush hwalk
      have hfew := length_le_links (hperm.nodup_iff.mpr hfresh.nodup) fun other h => hfresh.small other (hperm.subset h)
      have hshort : order.length ≤ 2 ^ 32 := hfew.trans (by decide)
      have hreal := htree.ne_noStream
      obtain ⟨hfst, all, deep, hchildren, hdeep, hall⟩ :=
        readNodes_children ih (fun other hother => ⟨lookup_eq hshort hreal (htree.closed other hother).1,
          lookup_eq hshort hreal (htree.closed other hother).2⟩) hnodes
      refine ⟨all, fresh ++ deep, ⟨order, htree, ?_, ?_⟩, hfresh.append hdeep, ?_⟩
      · simp only [hfst]
        exact lookup_eq hshort hreal htree.link_mem
      · simpa only [hfst] using hchildren
      · exact hall.trans (hperm.append_right deep).subperm

theorem nesting_eq (node : CfbNode) :
    nesting node = if node.isStorage then nesting.nestingAll node.children + 1 else 0 := by
  obtain ⟨⟩ := node
  rw [nesting]

theorem ChildrenOf.nesting_le {inner : StorageTree}
    (hinner : ∀ id nodes root ids, inner id nodes root ids → nesting.nestingAll nodes + 1 ≤ levels)
    (h : ChildrenOf directory order inner ids nodes all) : nesting.nestingAll nodes ≤ levels := by
  induction h with
  | nil =>
    rw [nesting.nestingAll]
    exact Nat.zero_le _
  | stream _ _ hstream _ _ _ _ ih =>
    rw [nesting.nestingAll, nesting_eq, hstream]
    exact max_le (Nat.zero_le _) ih
  | storage _ _ hstorage hdeep _ ih =>
    rw [nesting.nestingAll, nesting_eq, hstorage]
    exact max_le (hinner _ _ _ _ hdeep) ih

/-- As many levels as the storage has bound its nesting. -/
theorem StorageOf.nesting_le (h : StorageOf directory levels id nodes root ids) :
    nesting.nestingAll nodes + 1 ≤ levels := by
  induction levels generalizing id nodes root ids with
  | zero => exact h.elim
  | succ levels ih =>
    obtain ⟨order, -, -, hchildren⟩ := h
    exact Nat.succ_le_succ (hchildren.nesting_le fun _ _ _ _ hdeep => ih hdeep)

end storage

/-- Every walk of a search tree ends, whatever the links are. What the root's storage gives has each entry once, its
storages are not nested deeper than the bound, and each storage has the entries of its tree in order. -/
theorem reads_directory {directory : List DirEntry} (hl : Links directory) :
    (∀ visited link pushed, pushEntry directory visited [] link = .ok pushed →
      Walks directory pushed.1 pushed.2 [] (readOrder directory (3 * directory.length + 1) pushed.1 pushed.2 [])) ∧
    ∀ read, readStorage directory kCfbMaxStorageDepth 0 (Function.update (fun _ => false) 0 true) = .ok read →
      ∃ ids, StorageOf directory kCfbMaxStorageDepth 0 read.1 read.2.1 ids ∧ (0 :: ids).Nodup ∧
        nesting.nestingAll read.1 + 1 ≤ kCfbMaxStorageDepth := by
  refine ⟨fun visited link pushed hpush => storage_walks hpush, fun read hread => ?_⟩
  obtain ⟨ids, fresh, hstorage, hfresh, hsub⟩ := readStorage_gives hl kCfbMaxStorageDepth 0 _ _ hread
  have hroot : 0 ∉ ids := by
    intro hin
    have hfree := hfresh.before 0 (hsub.subset hin)
    rw [Function.update_self] at hfree
    cases hfree
  obtain ⟨same, hperm, hsublist⟩ := hsub
  have hids : ids.Nodup := hperm.nodup_iff.mp (hfresh.nodup.sublist hsublist)
  exact ⟨ids, hstorage, List.nodup_cons.mpr ⟨hroot, hids⟩, StorageOf.nesting_le hstorage⟩

/-- A storage with a stream at its left, and a stream in it. -/
def storageAndStream : List DirEntry :=
  [{ type := kTypeRoot, child := 1 }, { type := kTypeStorage, left := 2, child := 3 }, { type := kTypeStream },
    { type := kTypeStream }]

theorem storageAndStream_links : Links storageAndStream := by
  intro i
  match i with
  | 0 | 1 | 2 | 3 => decide
  | i + 4 =>
    have hlast : storageAndStream.getD (i + 4) {} = {} := rfl
    rw [hlast]
    decide

theorem reads_storageAndStream : ∃ read ids,
    readStorage storageAndStream kCfbMaxStorageDepth 0 (Function.update (fun _ => false) 0 true) = .ok read ∧
      StorageOf storageAndStream kCfbMaxStorageDepth 0 read.1 read.2.1 ids ∧ (0 :: ids).Nodup := by
  obtain ⟨read, hread⟩ := exists_of_isOk (by decide +kernel : (readStorage storageAndStream kCfbMaxStorageDepth 0
    (Function.update (fun _ => false) 0 true)).isOk = true)
  obtain ⟨ids, hstorage, hids, -⟩ := (reads_directory storageAndStream_links).2 read hread
  exact ⟨read, ids, hread, hstorage, hids⟩

end TheSeed.CfbDirectory
