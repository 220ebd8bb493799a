import Mathlib.Data.List.Perm.Basic
import TheSeed.CfbNames

namespace TheSeed.CfbContent

open Checked BoundedBytes CfbReader MsiAuthenticode SortedBy CfbNames

/-! What a package holds, without saying where: its storages and streams, in the order of the directory. -/

structure Label where
  name : CfbName
  classId : CfbClassId
  stateBits : UInt32
  creationTime : UInt64
  modificationTime : UInt64

inductive Content
  | stream (label : Label) (bytes : List UInt8)
  | storage (label : Label) (children : List Content)

namespace Content

def label : Content → Label
  | .stream label _ => label
  | .storage label _ => label

def name (c : Content) : CfbName := c.label.name

/-- What holds of a storage when it holds of its children holds of all. -/
theorem induction {P : Content → Prop} (hstream : ∀ label bytes, P (.stream label bytes))
    (hstorage : ∀ label children, (∀ c ∈ children, P c) → P (.storage label children)) : ∀ c, P c :=
  Content.rec (motive_1 := P) (motive_2 := fun children => ∀ c ∈ children, P c) hstream hstorage (by simp)
    fun _ _ hc hcs c hmem => (List.mem_cons.1 hmem).elim (fun h => h ▸ hc) (hcs c)

/-- The children of each storage in the order of names. -/
def sorted : Content → Content
  | .stream label bytes => .stream label bytes
  | .storage label children => .storage label (sortBy (fun c => nameKey c.name) (children.map sorted))

/-- In no storage two names are one to the order. -/
inductive Separate : Content → Prop
  | stream (label : Label) (bytes : List UInt8) : Separate (.stream label bytes)
  | storage (label : Label) (children : List Content) (hd : Distinct (fun c => nameKey c.name) children)
      (h : ∀ c ∈ children, Separate c) : Separate (.storage label children)

/-- The bytes that count for the fingerprint. -/
def fed : Content → List UInt8
  | .stream _ bytes => bytes
  | .storage label children =>
      (sortBy (fun part => rawKey part.1) (children.map fun c => (c.name, fed c))).flatMap Prod.snd ++ label.classId.1

@[simp] theorem name_sorted (c : Content) : c.sorted.name = c.name := by
  cases c with
  | stream label bytes =>
      rw [sorted]
  | storage label children =>
      rw [sorted]
      rfl

theorem sorted_children {children : List Content} (hd : Distinct (fun c => nameKey c.name) children) :
    Distinct (fun c => nameKey c.name) (children.map sorted) := by
  rw [distinct_map]
  simpa only [name_sorted] using hd

theorem Separate.sorted {c : Content} (h : Separate c) : Separate c.sorted := by
  induction h with
  | stream label bytes =>
      rw [Content.sorted]
      exact .stream label bytes
  | storage label children hd _ ih =>
      rw [Content.sorted]
      refine .storage label _ ((sorted_children hd).perm (sortBy_perm _ _).symm) fun c hc => ?_
      obtain ⟨d, hd', rfl⟩ := List.mem_map.1 ((sortBy_perm _ _).mem_iff.1 hc)
      exact ih d hd'

theorem sorted_eq_of_perm {label : Label} {children others : List Content}
    (hd : Distinct (fun c => nameKey c.name) children) (hp : children.Perm others) :
    sorted (.storage label children) = sorted (.storage label others) := by
  rw [sorted, sorted, sortBy_eq_of_perm (sorted_children hd) (hp.map _)]

theorem Separate.perm {label : Label} {children others : List Content} (h : Separate (.storage label children))
    (hp : children.Perm others) : Separate (.storage label others) := by
  cases h with
  | storage _ _ hd hc => exact .storage _ _ (hd.perm hp) fun c hmem => hc c (hp.mem_iff.2 hmem)

theorem Separate.distinct {label : Label} {children : List Content} (h : Separate (.storage label children)) :
    Distinct (fun c => nameKey c.name) children := by
  cases h with
  | storage _ _ hd _ => exact hd

theorem Separate.child {label : Label} {children : List Content} (h : Separate (.storage label children)) {c : Content}
    (hc : c ∈ children) : Separate c := by
  cases h with
  | storage _ _ _ h => exact h c hc

theorem Separate.sorted_sorted {c : Content} (h : Separate c) : c.sorted.sorted = c.sorted := by
  induction h with
  | stream label bytes => rw [Content.sorted, Content.sorted]
  | storage label children hd _ ih =>
      rw [Content.sorted, sorted_eq_of_perm ((sorted_children hd).perm (sortBy_perm _ _).symm) (sortBy_perm _ _),
        Content.sorted, List.map_map]
      congr 2
      exact List.map_congr_left ih

/-- Whether the children were sorted before does not matter. -/
theorem sorted_map_sorted {label : Label} {children : List Content} (h : ∀ c ∈ children, Separate c) :
    sorted (.storage label (children.map sorted)) = sorted (.storage label children) := by
  rw [sorted, sorted, List.map_map]
  congr 2
  apply List.map_congr_left
  intro c hc
  exact (h c hc).sorted_sorted

/-- What each child feeds, with its name. -/
def parts (children : List Content) : List (CfbName × List UInt8) := children.map fun c => (c.name, c.fed)

theorem parts_perm {children others : List Content} (h : children.Perm others) : (parts children).Perm (parts others) :=
  h.map _

theorem distinct_parts {children : List Content} (hd : Distinct (fun c => nameKey c.name) children) :
    Distinct (fun part => rawKey part.1) (parts children) := by
  rw [parts, distinct_map]
  exact distinct_names_nodup hd

theorem fed_stream (label : Label) (bytes : List UInt8) : fed (.stream label bytes) = bytes := by
  rw [fed]

theorem fed_storage (label : Label) (children : List Content) : fed (.storage label children) =
    (sortBy (fun part => rawKey part.1) (parts children)).flatMap Prod.snd ++ label.classId.1 := by
  rw [fed, parts]

/-- The order of the entries of a storage does not count. -/
theorem fed_eq_of_perm {label : Label} {children others : List Content}
    (hd : Distinct (fun c => nameKey c.name) children) (h : (parts children).Perm (parts others)) :
    fed (.storage label children) = fed (.storage label others) := by
  rw [fed_storage, fed_storage, sortBy_eq_of_perm (distinct_parts hd) h]

theorem parts_sorted {children : List Content} (h : ∀ c ∈ children, c.sorted.fed = c.fed) :
    parts (children.map sorted) = parts children := by
  rw [parts, parts, List.map_map]
  refine List.map_congr_left fun c hc => ?_
  rw [Function.comp_apply, name_sorted, h c hc]

theorem Separate.fed_sorted {c : Content} (h : Separate c) : c.sorted.fed = c.fed := by
  induction h with
  | stream label bytes => rw [Content.sorted]
  | storage label children hd _ ih =>
      rw [Content.sorted]
      refine fed_eq_of_perm ((sorted_children hd).perm (sortBy_perm _ _).symm) ?_
      exact parts_sorted ih ▸ parts_perm (sortBy_perm _ _)

end Content

/-! What a model holds -/

def labelOf (node : CfbNode) : Label :=
  ⟨node.name, node.classId, node.stateBits, node.creationTime, node.modificationTime⟩

def streamBytes (m : PackageModel) (stream : CfbNode) : Outcome (List UInt8) :=
  (m.resolve stream {}).1.map (extentBytes m.source.bytes)

mutual

def contentOf (m : PackageModel) : CfbNode → Outcome Content
  | ⟨name, isStorage, classId, stateBits, creationTime, modificationTime, startSector, size, children, treeRoot,
      left, right⟩ =>
      let node : CfbNode := ⟨name, isStorage, classId, stateBits, creationTime, modificationTime, startSector, size,
        children, treeRoot, left, right⟩
      if isStorage then (contentsOf m children).map (.storage (labelOf node))
      else (streamBytes m node).map (.stream (labelOf node))

def contentsOf (m : PackageModel) : List CfbNode → Outcome (List Content)
  | [] => .ok []
  | child :: rest => do
      let c ← contentOf m child
      let cs ← contentsOf m rest
      return c :: cs

end

variable {m : PackageModel} {node : CfbNode} {nodes : List CfbNode} {c : Content} {cs : List Content}

theorem contentsOf_eq_mapM (m : PackageModel) (nodes : List CfbNode) : contentsOf m nodes = nodes.mapM (contentOf m) := by
  induction nodes with
  | nil => rfl
  | cons node nodes ih => rw [contentsOf, List.mapM_cons, ih]

theorem contentsOf_eq_ok : contentsOf m nodes = .ok cs ↔ List.Forall₂ (fun node c => contentOf m node = .ok c) nodes cs := by
  rw [contentsOf_eq_mapM, mapM_eq_ok]

theorem contentsOf_cons : contentsOf m (node :: nodes) = .ok cs ↔
    ∃ c ds, contentOf m node = .ok c ∧ contentsOf m nodes = .ok ds ∧ c :: ds = cs := by
  rw [contentsOf]
  simp only [bind_eq_ok, pure_eq_ok, Except.ok.injEq, exists_and_left]

theorem except_map_eq_ok {α β : Type} {x : Outcome α} {f : α → β} {b : β} :
    x.map f = .ok b ↔ ∃ a, x = .ok a ∧ f a = b := by
  cases x with
  | error e => simp [Except.map]
  | ok a => simp [Except.map]

theorem contentOf_stream (h : node.isStorage = false) : contentOf m node = .ok c ↔
    ∃ extents, (m.resolve node {}).1 = .ok extents ∧ .stream (labelOf node) (extentBytes m.source.bytes extents) = c := by
  obtain ⟨⟩ := node
  rw [contentOf]
  simp only at h
  rw [h, if_neg (by decide), except_map_eq_ok]
  simp only [streamBytes, except_map_eq_ok]
  constructor
  · rintro ⟨_, ⟨extents, hr, rfl⟩, rfl⟩
    exact ⟨extents, hr, rfl⟩
  · rintro ⟨extents, hr, rfl⟩
    exact ⟨_, ⟨extents, hr, rfl⟩, rfl⟩

theorem contentOf_storage (h : node.isStorage = true) : contentOf m node = .ok c ↔
    ∃ cs, contentsOf m node.children = .ok cs ∧ .storage (labelOf node) cs = c := by
  obtain ⟨⟩ := node
  rw [contentOf]
  simp only at h
  rw [h, if_pos rfl, except_map_eq_ok]

theorem label_of_content (h : contentOf m node = .ok c) : c.label = labelOf node := by
  cases hs : node.isStorage with
  | false =>
      obtain ⟨extents, -, rfl⟩ := (contentOf_stream hs).1 h
      rfl
  | true =>
      obtain ⟨cs, -, rfl⟩ := (contentOf_storage hs).1 h
      rfl

theorem name_of_content (h : contentOf m node = .ok c) : c.name = node.name := by
  rw [Content.name, label_of_content h]
  rfl

/-- A node has what its children have. -/
theorem nodeInduction {P : CfbNode → Prop} (h : ∀ node, (∀ child ∈ node.children, P child) → P node) : ∀ node, P node :=
  CfbNode.rec (motive_1 := P) (motive_2 := fun children => ∀ child ∈ children, P child)
    (fun _ _ _ _ _ _ _ _ _ _ _ _ ih => h _ ih) (by simp)
    fun _ _ hc hcs child hmem => (List.mem_cons.1 hmem).elim (fun h => h ▸ hc) (hcs child)

theorem names_of_contents (h : contentsOf m nodes = .ok cs) : cs.map Content.name = nodes.map CfbNode.name := by
  rw [contentsOf_eq_ok] at h
  induction h with
  | nil => rfl
  | cons hc _ ih => rw [List.map_cons, List.map_cons, ih, name_of_content hc]

theorem contents_perm {others : List CfbNode} (hp : nodes.Perm others) (h : contentsOf m nodes = .ok cs) :
    ∃ ds, contentsOf m others = .ok ds ∧ cs.Perm ds := by
  rw [contentsOf_eq_ok] at h
  obtain ⟨ds, hds, hf⟩ := List.perm_comp_forall₂ hp.symm h
  exact ⟨ds, contentsOf_eq_ok.2 hds, hf.symm⟩

end TheSeed.CfbContent
