import TheSeed.CfbFlatten

namespace TheSeed.CfbStreams

open Checked BoundedBytes CfbReader CfbResolve CfbJoint MsiAuthenticode CfbWriter SortedBy CfbNames CfbContent Content
  MsiFingerprint CfbFlatten

/-! Flattening resolves each stream that is copied once; where they can be resolved together and no two names
of a storage are one to the order, it comes to an end. -/

variable {m : PackageModel} {node : CfbNode} {item : Item} {sequence : List Item} {row : List (Nat × Item)}
  {done : List CfbNode} {u u' : Usage} {s s' : Flattened} {entry : Entry}

/-- The stream that pushing the entry of an item resolves. -/
def direct (item : Item) : List CfbNode := if item.node.isStorage || item.blob.isSome then [] else [item.node]

/-- The streams that expanding an item resolves. -/
def deeper (item : Item) : List CfbNode := if item.node.isStorage then streamNodes item.node else []

theorem streams_perm (sequence : List Item) (done : List CfbNode) :
    ((sequence.flatMap fun item => direct item ++ deeper item) ++ done).Perm
      (sequence.flatMap deeper ++ (sequence.flatMap direct ++ done)) := by
  refine ((List.flatMap_append_perm sequence direct deeper).symm.trans List.perm_append_comm).append_right done |>.trans ?_
  rw [List.append_assoc]

theorem cons_perm {α : Type} (xs ys zs : List α) : (ys ++ (xs ++ zs)).Perm (xs ++ ys ++ zs) := by
  rw [← List.append_assoc]
  exact List.perm_append_comm.append_right zs

/-- A storage whose streams are those of its expansion. -/
def Resolves (m : PackageModel) (node : CfbNode) (inner : Expansion) : Prop :=
  ∀ ⦃parent s s' done⦄, After m done s.2 → node.isStorage = true → inner parent s = .ok s' →
    After m (streamNodes node ++ done) s'.2

theorem makeEntry_after (hg : Geometry m) (h : After m done u) (hm : makeEntry m item u = .ok (entry, u')) :
    After m (direct item ++ done) u' := by
  rw [makeEntry] at hm
  rw [direct]
  cases hs : item.node.isStorage with
  | true =>
      rw [hs, if_pos rfl] at hm
      cases hm
      exact h
  | false =>
      rw [hs, if_neg (by decide)] at hm
      cases hb : item.blob with
      | some blob =>
          rw [hb] at hm
          cases hm
          exact h
      | none =>
          rw [hb] at hm
          obtain ⟨⟨extents, v⟩, hr, heq⟩ := bind_eq_ok.1 hm
          cases heq
          exact (h.resolve hg (resolveOrThrow_eq_ok.1 hr)).2

theorem pushEntries_after (hg : Geometry m) (h : After m done s.2) (hp : pushEntries m sequence s = .ok s') :
    After m (sequence.flatMap direct ++ done) s'.2 := by
  induction sequence generalizing done s with
  | nil =>
      cases hp
      exact h
  | cons item sequence ih =>
      obtain ⟨⟨entry, v⟩, hm, hp⟩ := bind_eq_ok.1 hp
      have hrest := ih (makeEntry_after hg h hm) hp
      rw [List.flatMap_cons]
      exact hrest.perm (cons_perm _ _ _)

theorem expandItems_after (hresolves : ∀ placed ∈ row, Resolves m placed.2.node placed.2.inner)
    (hr : expandItems row s = .ok s') (h : After m done s.2) : After m ((row.map Prod.snd).flatMap deeper ++ done) s'.2 := by
  induction row generalizing done s with
  | nil =>
      cases hr
      exact h
  | cons placed row ih =>
      have hrest := fun other hother => hresolves other (List.mem_cons_of_mem _ hother)
      obtain ⟨position, item⟩ := placed
      rw [expandItems] at hr
      rw [List.map_cons, List.flatMap_cons, deeper]
      cases hs : item.node.isStorage with
      | true =>
          rw [hs, if_pos rfl] at hr
          obtain ⟨mid, hmid, hr⟩ := bind_eq_ok.1 hr
          exact (ih hrest hr (hresolves _ List.mem_cons_self h hs hmid)).perm (cons_perm _ _ _)
      | false =>
          rw [hs, if_neg (by decide)] at hr
          exact ih hrest hr h

theorem expandSequence_after (hg : Geometry m) (hresolves : ∀ item ∈ sequence, Resolves m item.node item.inner)
    {parent : Nat} (h : After m done s.2) (hr : expandSequence m parent sequence s = .ok s') :
    After m ((sequence.flatMap fun item => direct item ++ deeper item) ++ done) s'.2 := by
  obtain ⟨-, pushed, v, hpush, hexpand⟩ := expandSequence_eq_ok.1 hr
  have hp := inOrder_perm sequence
  have hpushed : After m ((inOrder sequence).flatMap direct ++ done) v := pushEntries_after hg h hpush
  have hmid := expandItems_after (fun placed hplaced => hresolves _ (hp.mem_iff.1 (List.of_mem_zip hplaced).2))
    hexpand hpushed
  rw [List.map_snd_zip (by simp)] at hmid
  refine hmid.perm (((streams_perm _ _).symm).trans ?_)
  exact (hp.flatMap_right _).append_right done

theorem streams_of_items (nodes : List CfbNode) :
    ((items m nodes).flatMap fun item => direct item ++ deeper item) = nodes.flatMap streamNodes := by
  rw [items_eq, List.flatMap_map]
  congr 1
  funext child
  rw [direct, deeper]
  cases hs : child.isStorage with
  | true => rfl
  | false => exact (streamNodes_stream hs).symm

theorem expand_resolves (hg : Geometry m) (node : CfbNode) : Resolves m node (expand m node) := by
  induction node using nodeInduction with
  | h node ih =>
      intro parent s s' done h hs hr
      rw [expand_eq] at hr
      have hall := expandSequence_after hg (fun item hitem => by
        rw [items_eq] at hitem
        obtain ⟨child, hchild, rfl⟩ := List.mem_map.1 hitem
        exact ih child hchild) h hr
      rwa [streams_of_items, ← streamNodes_storage hs] at hall

/-- The streams that the root's sequence resolves are those that are kept. -/
theorem streams_of_root (m : PackageModel) (signature : Option (List UInt8)) :
    ((rootSequence m signature).flatMap fun item => direct item ++ deeper item).Perm
      ((keptChildren m).flatMap streamNodes) := by
  have hkept : ((keptItems m).flatMap fun item => direct item ++ deeper item) = (keptChildren m).flatMap streamNodes := by
    rw [← streams_of_items (m := m), items_eq]
    rfl
  refine ((rootSequence_perm m signature).flatMap_right _).trans ?_
  cases signature with
  | none => exact .of_eq hkept
  | some blob => exact .of_eq hkept

theorem rootItem_resolves (hg : Geometry m) {signature : Option (List UInt8)} (hi : item ∈ rootSequence m signature) :
    Resolves m item.node item.inner := by
  have hkept : ∀ item ∈ keptItems m, Resolves m item.node item.inner := by
    intro item hi
    obtain ⟨child, -, rfl⟩ := List.mem_map.1 hi
    exact expand_resolves hg child
  have hmem := (rootSequence_perm m signature).mem_iff.1 hi
  cases signature with
  | none => exact hkept item hmem
  | some blob =>
      rcases List.mem_cons.1 hmem with rfl | hmem
      · intro _ _ _ _ _ hs
        cases hs
      · exact hkept item hmem

/-- Flattening that succeeds has resolved the kept streams together. -/
theorem flatten_joint (hg : Geometry m) {signature : Option (List UInt8)} {entries : List Entry}
    (h : flatten m signature = .ok entries) : Joint m ((keptChildren m).flatMap streamNodes) := by
  obtain ⟨s, hs, -⟩ := bind_eq_ok.1 h
  have hafter := expandSequence_after hg (fun item hitem => rootItem_resolves hg hitem) (After.initial m) hs
  rw [List.append_nil] at hafter
  exact hafter.joint.perm (streams_of_root m signature)

/-! The other way round -/

/-- The expansion of a storage comes to an end when its streams can be resolved beside the others. -/
def Completes (m : PackageModel) (node : CfbNode) (inner : Expansion) : Prop :=
  ∀ ⦃parent s done c⦄, After m done s.2 → contentOf m node = .ok c → Separate c → node.isStorage = true →
    Joint m (streamNodes node ++ done) → ∃ s', inner parent s = .ok s'

theorem makeEntry_ok (hg : Geometry m) (h : After m done u) (hj : Joint m (direct item ++ done)) :
    ∃ made, makeEntry m item u = .ok made := by
  rw [makeEntry]
  rw [direct] at hj
  cases hs : item.node.isStorage with
  | true => exact ⟨_, rfl⟩
  | false =>
      rw [hs] at hj
      cases hb : item.blob with
      | some blob => exact ⟨_, rfl⟩
      | none =>
          rw [hb] at hj
          obtain ⟨extents, v, hr, -⟩ := h.resolve_ok hg hj
          rw [if_neg (by decide)]
          simp only [resolveOrThrow_eq_ok.2 hr, ok_bind]
          exact ⟨_, rfl⟩

theorem pushEntries_ok (hg : Geometry m) (h : After m done s.2) (hj : Joint m (sequence.flatMap direct ++ done)) :
    ∃ s', pushEntries m sequence s = .ok s' := by
  induction sequence generalizing done s with
  | nil => exact ⟨s, rfl⟩
  | cons item sequence ih =>
      rw [List.flatMap_cons] at hj
      have hfirst : Joint m (direct item ++ done) := by
        rw [List.append_assoc] at hj
        exact hj.sublist ((List.Sublist.refl _).append (List.sublist_append_right _ _))
      obtain ⟨⟨entry, v⟩, hm⟩ := makeEntry_ok hg h hfirst
      rw [pushEntries, hm, ok_bind]
      exact ih (makeEntry_after hg h hm) (hj.perm (cons_perm _ _ _).symm)

theorem expandItems_ok (row : List (Nat × Item)) (s : Flattened)
    (hresolves : ∀ placed ∈ row, Resolves m placed.2.node placed.2.inner)
    (hcompletes : ∀ placed ∈ row, Completes m placed.2.node placed.2.inner)
    (hcontent : ∀ placed ∈ row, placed.2.node.isStorage = true → ∃ c, contentOf m placed.2.node = .ok c ∧ Separate c)
    (h : After m done s.2) (hj : Joint m ((row.map Prod.snd).flatMap deeper ++ done)) :
    ∃ s', expandItems row s = .ok s' := by
  induction row generalizing done s with
  | nil => exact ⟨s, rfl⟩
  | cons placed row ih =>
      have hresolvess := fun other hother => hresolves other (List.mem_cons_of_mem _ hother)
      have hcompletess := fun other hother => hcompletes other (List.mem_cons_of_mem _ hother)
      have hcontents := fun other hother => hcontent other (List.mem_cons_of_mem _ hother)
      have hone := hcontent _ List.mem_cons_self
      have hfinds := hcompletes _ List.mem_cons_self
      have hgives := hresolves _ List.mem_cons_self
      obtain ⟨position, item⟩ := placed
      rw [List.map_cons, List.flatMap_cons, deeper] at hj
      rw [expandItems]
      cases hs : item.node.isStorage with
      | true =>
          rw [hs, if_pos rfl] at hj
          rw [if_pos rfl]
          have hfirst : Joint m (streamNodes item.node ++ done) := by
            rw [List.append_assoc] at hj
            exact hj.sublist ((List.Sublist.refl _).append (List.sublist_append_right _ _))
          obtain ⟨c, hc, hsep⟩ := hone hs
          obtain ⟨mid, hmid⟩ := hfinds h hc hsep hs hfirst
          rw [hmid, ok_bind]
          exact ih mid hresolvess hcompletess hcontents (hgives h hs hmid) (hj.perm (cons_perm _ _ _).symm)
      | false =>
          rw [hs, if_neg (by decide)] at hj
          rw [if_neg (by decide)]
          exact ih s hresolvess hcompletess hcontents h hj

theorem expandSequence_ok (hg : Geometry m) (parent : Nat) (s : Flattened) (hd : Distinct (fun item => nameKey item.node.name) sequence)
    (hresolves : ∀ item ∈ sequence, Resolves m item.node item.inner)
    (hcompletes : ∀ item ∈ sequence, Completes m item.node item.inner)
    (hcontent : ∀ item ∈ sequence, item.node.isStorage = true → ∃ c, contentOf m item.node = .ok c ∧ Separate c)
    (h : After m done s.2) (hj : Joint m ((sequence.flatMap fun item => direct item ++ deeper item) ++ done)) :
    ∃ s', expandSequence m parent sequence s = .ok s' := by
  have hp := inOrder_perm sequence
  have hall : Joint m ((inOrder sequence).flatMap deeper ++ ((inOrder sequence).flatMap direct ++ done)) :=
    hj.perm (((hp.symm.flatMap_right _).append_right done).trans (streams_perm _ _))
  obtain ⟨⟨pushed, v⟩, hpush⟩ := pushEntries_ok hg h (hall.sublist (List.sublist_append_right _ _))
  have hmid : After m ((inOrder sequence).flatMap direct ++ done) v := pushEntries_after hg h hpush
  obtain ⟨⟨entries, u⟩, hexpand⟩ := expandItems_ok
    (((List.range' s.1.length (inOrder sequence).length).map (· % 2 ^ 32)).zip (inOrder sequence))
    (pushed.modify parent fun entry => { entry with
      children := (List.range' s.1.length (inOrder sequence).length).map (· % 2 ^ 32) }, v)
    (fun placed hplaced => hresolves _ (hp.mem_iff.1 (List.of_mem_zip hplaced).2))
    (fun placed hplaced => hcompletes _ (hp.mem_iff.1 (List.of_mem_zip hplaced).2))
    (fun placed hplaced => hcontent _ (hp.mem_iff.1 (List.of_mem_zip hplaced).2)) hmid
    (by rwa [List.map_snd_zip (by simp)])
  exact ⟨(entries, u), expandSequence_eq_ok.2 ⟨hd, pushed, v, hpush, hexpand⟩⟩

/-- The names of the contents of nodes are theirs. -/
theorem distinct_nodes {nodes : List CfbNode} {cs : List Content} (hcs : contentsOf m nodes = .ok cs)
    (hd : Distinct (fun c => nameKey c.name) cs) : Distinct (fun node => nameKey node.name) nodes := by
  have hnames : Distinct nameKey (cs.map Content.name) := distinct_map.2 hd
  rw [names_of_contents hcs] at hnames
  exact distinct_map.1 hnames

theorem content_of_mem {nodes : List CfbNode} {cs : List Content} (hcs : contentsOf m nodes = .ok cs) (hn : node ∈ nodes) :
    ∃ c ∈ cs, contentOf m node = .ok c := by
  rw [contentsOf_eq_ok] at hcs
  induction hcs with
  | nil => cases hn
  | cons hc _ ih =>
      rcases List.mem_cons.1 hn with rfl | hn
      · exact ⟨_, List.mem_cons_self, hc⟩
      · obtain ⟨c, hmem, h⟩ := ih hn
        exact ⟨c, List.mem_cons_of_mem _ hmem, h⟩

theorem expand_completes (hg : Geometry m) (node : CfbNode) : Completes m node (expand m node) := by
  induction node using nodeInduction with
  | h node ih =>
      intro parent s done c h hc hsep hs hj
      obtain ⟨cs, hcs, rfl⟩ := (contentOf_storage hs).1 hc
      have hitems : ∀ item ∈ items m node.children, ∃ child ∈ node.children,
          item = { node := child, inner := expand m child } := by
        intro item hitem
        rw [items_eq] at hitem
        obtain ⟨child, hchild, heq⟩ := List.mem_map.1 hitem
        exact ⟨child, hchild, heq.symm⟩
      rw [expand_eq]
      refine expandSequence_ok hg parent s ?_ ?_ ?_ ?_ h (by rwa [streams_of_items, ← streamNodes_storage hs])
      · rw [items_eq]
        exact distinct_map.2 (distinct_nodes hcs hsep.distinct)
      · intro item hitem
        obtain ⟨child, -, rfl⟩ := hitems item hitem
        exact expand_resolves hg child
      · intro item hitem
        obtain ⟨child, hchild, rfl⟩ := hitems item hitem
        exact ih child hchild
      · intro item hitem _
        obtain ⟨child, hchild, rfl⟩ := hitems item hitem
        obtain ⟨c, hmem, hc⟩ := content_of_mem hcs hchild
        exact ⟨c, hc, hsep.child hmem⟩

/-- Flattening succeeds on a package whose names are separate and whose kept streams can be resolved together. -/
theorem flatten_ok (hg : Geometry m) {signature : Option (List UInt8)} {kept : List Content} {label : Label}
    (hkept : contentsOf m (keptChildren m) = .ok kept)
    (hsep : Separate (.storage label (rootContents signature kept)))
    (hj : Joint m ((keptChildren m).flatMap streamNodes)) : ∃ entries, flatten m signature = .ok entries := by
  have hp := rootSequence_perm m signature
  have hmem : ∀ c ∈ kept, Separate c := by
    intro c hc
    apply hsep.child
    cases signature with
    | none => exact hc
    | some blob => exact List.mem_cons_of_mem _ hc
  have hitem : ∀ item ∈ rootSequence m signature, Completes m item.node item.inner ∧
      (item.node.isStorage = true → ∃ c, contentOf m item.node = .ok c ∧ Separate c) := by
    have hkeptItem : ∀ item ∈ keptItems m, Completes m item.node item.inner ∧
        (item.node.isStorage = true → ∃ c, contentOf m item.node = .ok c ∧ Separate c) := by
      intro item hi
      obtain ⟨child, hchild, rfl⟩ := List.mem_map.1 hi
      obtain ⟨c, hc, hcontent⟩ := content_of_mem hkept hchild
      exact ⟨expand_completes hg child, fun _ => ⟨c, hcontent, hmem c hc⟩⟩
    intro item hi
    have hi := hp.mem_iff.1 hi
    cases signature with
    | none => exact hkeptItem item hi
    | some blob =>
        rcases List.mem_cons.1 hi with rfl | hi
        · refine ⟨?_, ?_⟩
          · intro _ _ _ _ _ _ _ hs
            cases hs
          · intro hs
            cases hs
        · exact hkeptItem item hi
  have hd : Distinct (fun item => nameKey item.node.name) (rootSequence m signature) := by
    refine Distinct.perm ?_ hp.symm
    have hnames : Distinct nameKey ((rootContents signature kept).map Content.name) := distinct_map.2 hsep.distinct
    have hnodes : (keptItems m).map (fun item => item.node.name) = kept.map Content.name := by
      rw [names_of_contents hkept, keptItems, List.map_map]
      rfl
    cases signature with
    | none =>
        rw [rootContents, ← hnodes] at hnames
        exact distinct_map.1 hnames
    | some blob =>
        rw [rootContents, List.map_cons, ← hnodes] at hnames
        exact distinct_map.1 (show Distinct nameKey ((signatureItem blob :: keptItems m).map fun item => item.node.name)
          from hnames)
  obtain ⟨s, hs⟩ := expandSequence_ok hg 0 ([{ node := m.root }], {}) hd
    (fun item hi => rootItem_resolves hg hi) (fun item hi => (hitem item hi).1) (fun item hi => (hitem item hi).2)
    (After.initial m) (by
      rw [List.append_nil]
      exact hj.perm (streams_of_root m signature).symm)
  exact ⟨s.1, by rw [flatten, hs]; rfl⟩

end TheSeed.CfbStreams
