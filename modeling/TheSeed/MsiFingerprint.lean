import TheSeed.CfbContent
import TheSeed.CfbJoint

namespace TheSeed.MsiFingerprint

open Checked BoundedBytes CfbReader CfbResolve CfbJoint MsiAuthenticode SortedBy CfbNames CfbContent Content

/-! The walk that feeds the hash is a function of what the package holds. -/

variable {m : PackageModel} {node : CfbNode} {nodes done : List CfbNode} {cs : List Content} {u u' : Usage}
  {fed : List UInt8} {isRoot : Bool}

theorem resolveOrThrow_eq_ok {s : CfbNode} {extents : ByteExtents} :
    resolveOrThrow m s u = .ok (extents, u') ↔ m.resolve s u = (.ok extents, u') := by
  rw [resolveOrThrow]
  rcases m.resolve s u with ⟨e | r, v⟩
  · simp
  · simp

/-- The streams below a node, in the order of the directory. -/
def streamNodes : CfbNode → List CfbNode
  | ⟨name, isStorage, classId, stateBits, creationTime, modificationTime, startSector, size, children, treeRoot,
      left, right⟩ =>
      if isStorage then streamNodesOf children
      else [⟨name, isStorage, classId, stateBits, creationTime, modificationTime, startSector, size, children, treeRoot,
        left, right⟩]
where
  streamNodesOf : List CfbNode → List CfbNode
    | [] => []
    | child :: rest => streamNodes child ++ streamNodesOf rest

theorem streamNodesOf_eq (nodes : List CfbNode) : streamNodes.streamNodesOf nodes = nodes.flatMap streamNodes := by
  induction nodes with
  | nil => rfl
  | cons node nodes ih => rw [streamNodes.streamNodesOf, List.flatMap_cons, ih]

theorem streamNodes_storage (h : node.isStorage = true) : streamNodes node = node.children.flatMap streamNodes := by
  obtain ⟨⟩ := node
  simp only at h
  rw [streamNodes, h, if_pos rfl, streamNodesOf_eq]

theorem streamNodes_stream (h : node.isStorage = false) : streamNodes node = [node] := by
  obtain ⟨⟩ := node
  simp only at h
  rw [streamNodes, h, if_neg (by decide)]

/-- The children that count: in the root, the signature streams do not. -/
def counted (isRoot : Bool) (child : CfbNode) : Bool := ¬(isRoot = true ∧ isMsiSignatureName child.name = true)

def hashed (m : PackageModel) (child : CfbNode) : HashedChild := ⟨child, hashStorage m false child⟩

theorem hashedChildren_eq (nodes : List CfbNode) : hashedChildren m nodes = nodes.map (hashed m) := by
  induction nodes with
  | nil => rfl
  | cons node nodes ih =>
      rw [hashedChildren, List.map_cons, ih]
      rfl

/-- The children in the order in which they are fed. -/
def feedOrder (isRoot : Bool) (node : CfbNode) : List CfbNode :=
  sortBy (fun child => rawKey child.name) (node.children.filter (counted isRoot))

theorem feedOrder_perm (isRoot : Bool) (node : CfbNode) :
    (feedOrder isRoot node).Perm (node.children.filter (counted isRoot)) := sortBy_perm _ _

theorem rawNameLess_eq_false {a b : CfbName} : rawNameLess b a = false ↔ rawKey a ≤ rawKey b := by
  rw [← Bool.not_eq_true, rawNameLess_iff, not_lt]

theorem hashStorage_eq_ok : hashStorage m isRoot node u = .ok (fed, u') ↔
    Distinct (fun child => nameKey child.name) node.children ∧
      ∃ more, hashChildren m ((feedOrder isRoot node).map (hashed m)) u = .ok (more, u') ∧
        more ++ node.classId.1 = fed := by
  obtain ⟨name, isStorage, classId, stateBits, creationTime, modificationTime, startSector, size, children, treeRoot,
    left, right⟩ := node
  have hkept : (children.map (hashed m)).filter (fun child => ¬(isRoot = true ∧ isMsiSignatureName child.node.name = true))
      = (children.filter (counted isRoot)).map (hashed m) := List.filter_map
  have hsorted : ((children.filter (counted isRoot)).map (hashed m)).insertionSort
      (fun a b => rawNameLess b.node.name a.node.name = false) =
      (sortBy (fun child => rawKey child.name) (children.filter (counted isRoot))).map (hashed m) := by
    rw [insertionSort_eq_sortBy (fun child : HashedChild => rawKey child.node.name)
      (fun _ _ => rawNameLess_eq_false), sortBy_map]
    rfl
  rw [hashStorage, hashSequence]
  simp only [hashedChildren_eq, hkept, hsorted, rejectDuplicateNames, bind_eq_ok, rejectEqualNames_eq_ok, distinct_map, exists_const, pure_eq_ok,
    Except.ok.injEq, Prod.mk.injEq, Prod.exists]
  constructor
  · rintro ⟨hd, more, v, hc, rfl, rfl⟩
    exact ⟨hd, more, hc, rfl⟩
  · rintro ⟨hd, more, hc, rfl⟩
    exact ⟨hd, more, u', hc, rfl, rfl⟩

/-- What a walk feeds is what the model holds, in the order of the walk. -/
theorem hashChildren_content (hg : Geometry m)
    (ih : ∀ node ∈ nodes, ∀ done u fed u', After m done u → node.isStorage = true →
      hashStorage m false node u = .ok (fed, u') →
      ∃ c done', contentOf m node = .ok c ∧ c.fed = fed ∧ Separate c ∧ After m done' u')
    (h : After m done u) (hf : hashChildren m (nodes.map (hashed m)) u = .ok (fed, u')) :
    ∃ cs done', contentsOf m nodes = .ok cs ∧ cs.flatMap Content.fed = fed ∧ (∀ c ∈ cs, Separate c) ∧
      After m done' u' := by
  induction nodes generalizing done u fed with
  | nil =>
      cases hf
      exact ⟨[], done, rfl, rfl, by simp, h⟩
  | cons node nodes ihl =>
      rw [List.map_cons, hashChildren] at hf
      have hrest := fun node hn => ih node (List.mem_cons_of_mem _ hn)
      cases hs : node.isStorage with
      | true =>
          rw [if_pos (show (hashed m node).node.isStorage = true from hs)] at hf
          obtain ⟨⟨first, v⟩, hfirst, hf⟩ := bind_eq_ok.1 hf
          obtain ⟨⟨more, w⟩, hmore, hf⟩ := bind_eq_ok.1 hf
          cases hf
          obtain ⟨c, done', hc, rfl, hsep, h'⟩ := ih node List.mem_cons_self _ _ _ _ h hs hfirst
          obtain ⟨cs, done'', hcs, rfl, hseps, h''⟩ := ihl hrest h' hmore
          refine ⟨c :: cs, done'', ?_, rfl, List.forall_mem_cons.2 ⟨hsep, hseps⟩, h''⟩
          exact contentsOf_cons.2 ⟨_, _, hc, hcs, rfl⟩
      | false =>
          rw [if_neg (by rw [show (hashed m node).node.isStorage = false from hs]; decide)] at hf
          obtain ⟨⟨extents, v⟩, hfirst, hf⟩ := bind_eq_ok.1 hf
          obtain ⟨⟨more, w⟩, hmore, hf⟩ := bind_eq_ok.1 hf
          cases hf
          obtain ⟨halone, h'⟩ := h.resolve hg (resolveOrThrow_eq_ok.1 hfirst)
          obtain ⟨cs, done'', hcs, rfl, hseps, h''⟩ := ihl hrest h' hmore
          have hc := (contentOf_stream hs).2 ⟨extents, halone, rfl⟩
          refine ⟨.stream (labelOf node) _ :: cs, done'', ?_, by rw [List.flatMap_cons, fed_stream], List.forall_mem_cons.2
            ⟨.stream _ _, hseps⟩, h''⟩
          exact contentsOf_cons.2 ⟨_, _, hc, hcs, rfl⟩

theorem distinct_contents (hd : Distinct (fun child => nameKey child.name) nodes) (hcs : contentsOf m nodes = .ok cs) :
    Distinct (fun c => nameKey c.name) cs := by
  have hnames : Distinct nameKey (cs.map Content.name) := by
    rw [names_of_contents hcs]
    exact distinct_map.2 hd
  exact distinct_map.1 hnames

theorem feedOrder_contents {ds : List Content} (hd : Distinct (fun child => nameKey child.name) node.children)
    (hds : contentsOf m (feedOrder isRoot node) = .ok ds) :
    ∃ cs, contentsOf m (node.children.filter (counted isRoot)) = .ok cs ∧ cs.Perm ds ∧
      Distinct (fun c => nameKey c.name) cs ∧
      (Content.storage (labelOf node) cs).fed = ds.flatMap Content.fed ++ node.classId.1 := by
  obtain ⟨cs, hcs, hp⟩ := contents_perm (feedOrder_perm _ _) hds
  have hdc := distinct_contents (hd.sublist List.filter_sublist) hcs
  refine ⟨cs, hcs, hp.symm, hdc, ?_⟩
  have hpairs : (parts ds).Pairwise fun a b => rawKey a.1 ≤ rawKey b.1 := by
    have hnames : (ds.map Content.name).Pairwise fun a b => rawKey a ≤ rawKey b := by
      rw [names_of_contents hds]
      exact List.pairwise_map.2 (pairwise_sortBy _ _)
    rw [parts, List.pairwise_map]
    have hds := List.pairwise_map.1 hnames
    exact hds
  rw [fed_storage, sortBy_eq_of_perm (distinct_parts hdc) (parts_perm hp.symm), sortBy_eq_self hpairs, parts,
    List.flatMap_map]
  rfl

theorem hashStorage_content (hg : Geometry m) (h : After m done u)
    (hf : hashStorage m isRoot node u = .ok (fed, u')) :
    Distinct (fun child => nameKey child.name) node.children ∧
    ∃ cs done', contentsOf m (node.children.filter (counted isRoot)) = .ok cs ∧
      (Content.storage (labelOf node) cs).fed = fed ∧ Separate (.storage (labelOf node) cs) ∧ After m done' u' := by
  induction node using nodeInduction generalizing isRoot done u fed u' with
  | h node ih =>
      obtain ⟨hd, more, hc, rfl⟩ := hashStorage_eq_ok.1 hf
      obtain ⟨ds, done', hds, rfl, hseps, h'⟩ := hashChildren_content hg (fun child hchild done u fed u' h hs hf => by
        have hmem : child ∈ node.children := List.mem_of_mem_filter ((feedOrder_perm _ _).mem_iff.1 hchild)
        obtain ⟨-, cs, done', hcs, hfed, hsep, h'⟩ := ih child hmem h hf
        have hall : child.children.filter (counted false) = child.children := List.filter_eq_self.2 (by simp [counted])
        rw [hall] at hcs
        exact ⟨_, done', (contentOf_storage hs).2 ⟨cs, hcs, rfl⟩, hfed, hsep, h'⟩) h hc
      obtain ⟨cs, hcs, hp, hdc, hfed⟩ := feedOrder_contents hd hds
      exact ⟨hd, cs, done', hcs, hfed, .storage _ _ hdc fun c hc => hseps c (hp.mem_iff.1 hc), h'⟩

/-- Streams that can be resolved together are fed in any order. -/
theorem hashChildren_ok (hg : Geometry m)
    (ih : ∀ node ∈ nodes, ∀ c done u, contentOf m node = .ok c → Separate c → node.isStorage = true →
      After m done u → Joint m (streamNodes node ++ done) →
      ∃ u', hashStorage m false node u = .ok (c.fed, u') ∧ After m (streamNodes node ++ done) u')
    (hcs : contentsOf m nodes = .ok cs) (hsep : ∀ c ∈ cs, Separate c) (h : After m done u)
    (hj : Joint m (nodes.flatMap streamNodes ++ done)) :
    ∃ u', hashChildren m (nodes.map (hashed m)) u = .ok (cs.flatMap Content.fed, u') ∧
      After m (nodes.flatMap streamNodes ++ done) u' := by
  induction nodes generalizing done u cs with
  | nil =>
      cases hcs
      exact ⟨u, rfl, h⟩
  | cons node nodes ihl =>
      have hrest := fun node hn => ih node (List.mem_cons_of_mem _ hn)
      obtain ⟨c, ds, hc, hds, rfl⟩ := contentsOf_cons.1 hcs
      rw [List.flatMap_cons, List.append_assoc] at hj
      have hswap : (streamNodes node ++ (nodes.flatMap streamNodes ++ done)).Perm
          (nodes.flatMap streamNodes ++ (streamNodes node ++ done)) := by
        rw [← List.append_assoc, ← List.append_assoc]
        exact List.perm_append_comm.append_right done
      have hfirst : Joint m (streamNodes node ++ done) :=
        hj.sublist ((List.Sublist.refl _).append (List.sublist_append_right _ _))
      simp only [List.flatMap_cons, List.append_assoc, List.map_cons, hashChildren]
      cases hs : node.isStorage with
      | true =>
          obtain ⟨v, hv, h'⟩ := ih node List.mem_cons_self c done u hc (hsep c List.mem_cons_self) hs h hfirst
          obtain ⟨w, hw, h''⟩ := ihl hrest hds (fun c hc => hsep c (List.mem_cons_of_mem _ hc)) h' (hj.perm hswap)
          refine ⟨w, ?_, h''.perm hswap.symm⟩
          rw [if_pos (show (hashed m node).node.isStorage = true from hs)]
          change (hashStorage m false node u >>= _) = _
          rw [hv, ok_bind, hw]
          rfl
      | false =>
          obtain ⟨extents, halone, rfl⟩ := (contentOf_stream hs).1 hc
          rw [streamNodes_stream hs] at hfirst hswap hj ⊢
          obtain ⟨extents', v, hr, halone', h'⟩ := h.resolve_ok hg hfirst
          rw [halone] at halone'
          cases halone'
          obtain ⟨w, hw, h''⟩ := ihl hrest hds (fun c hc => hsep c (List.mem_cons_of_mem _ hc)) h' (hj.perm hswap)
          refine ⟨w, ?_, h''.perm hswap.symm⟩
          rw [if_neg (by rw [show (hashed m node).node.isStorage = false from hs]; decide)]
          change (resolveOrThrow m node u >>= _) = _
          rw [resolveOrThrow_eq_ok.2 hr, ok_bind, hw, fed_stream]
          rfl

theorem hashStorage_ok (hg : Geometry m) (hd : Distinct (fun child => nameKey child.name) node.children)
    (hcs : contentsOf m (node.children.filter (counted isRoot)) = .ok cs) (hsep : ∀ c ∈ cs, Separate c)
    (h : After m done u) (hj : Joint m ((node.children.filter (counted isRoot)).flatMap streamNodes ++ done)) :
    ∃ u', hashStorage m isRoot node u = .ok ((Content.storage (labelOf node) cs).fed, u') ∧
      After m ((node.children.filter (counted isRoot)).flatMap streamNodes ++ done) u' := by
  induction node using nodeInduction generalizing isRoot cs done u with
  | h node ih =>
      have hp := feedOrder_perm isRoot node
      have hflat : ((node.children.filter (counted isRoot)).flatMap streamNodes ++ done).Perm
          ((feedOrder isRoot node).flatMap streamNodes ++ done) := (hp.symm.flatMap_right _).append_right _
      obtain ⟨ds, hds, hpd⟩ := contents_perm hp.symm hcs
      obtain ⟨cs', hcs', -, -, hfed⟩ := feedOrder_contents hd hds
      rw [hcs] at hcs'
      cases hcs'
      have hchildren : ∀ child ∈ feedOrder isRoot node, ∀ c done u, contentOf m child = .ok c → Separate c →
          child.isStorage = true → After m done u → Joint m (streamNodes child ++ done) →
          ∃ u', hashStorage m false child u = .ok (c.fed, u') ∧ After m (streamNodes child ++ done) u' := by
        intro child hchild c done u hc hsepc hs h hj
        have hmem : child ∈ node.children := List.mem_of_mem_filter (hp.mem_iff.1 hchild)
        have hall : child.children.filter (counted false) = child.children := List.filter_eq_self.2 (by simp [counted])
        obtain ⟨cs, hcs, rfl⟩ := (contentOf_storage hs).1 hc
        cases hsepc with
        | storage _ _ hdc hseps =>
            have hdn : Distinct (fun child => nameKey child.name) child.children := by
              have hnames := (distinct_map (f := Content.name)).2 hdc
              rw [names_of_contents hcs] at hnames
              exact distinct_map.1 hnames
            rw [streamNodes_storage hs] at hj ⊢
            rw [← hall] at hcs hj ⊢
            exact ih child hmem hdn hcs hseps h hj
      obtain ⟨v, hv, h'⟩ := hashChildren_ok hg hchildren hds (fun c hc => hsep c (hpd.mem_iff.2 hc)) h (hj.perm hflat)
      refine ⟨v, hashStorage_eq_ok.2 ⟨hd, _, hv, hfed.symm⟩, h'.perm hflat.symm⟩

end TheSeed.MsiFingerprint
