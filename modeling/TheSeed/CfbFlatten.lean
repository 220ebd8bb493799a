import Mathlib.Algebra.BigOperators.Group.List.Basic
import TheSeed.CfbWriter
import TheSeed.MsiFingerprint

namespace TheSeed.CfbFlatten

open Bytes Checked BoundedBytes CfbReader CfbResolve CfbJoint MsiAuthenticode CfbWriter SortedBy CfbNames CfbContent
  Content MsiFingerprint

/-! The entries of the output are the content of the model in the order of names, each storage's entries
next to each other and what is below them after them. -/

variable {m : PackageModel} {node : CfbNode} {item : Item} {sequence : List Item} {done : List CfbNode}
  {u u' : Usage} {entries entries' : List Entry} {entry : Entry} {c : Content} {cs : List Content}
  {position first last : Nat}

/-- The entry at a position is the given content, and what is below it takes the positions from `first`
to `last`. -/
inductive Laid (entries : List Entry) : Nat → Nat → Nat → Content → Prop
  | stream {position first : Nat} {entry : Entry} (h : entries[position]? = some entry)
      (hs : entry.node.isStorage = false) (hsize : entry.size = entry.pieces.flatten.length) :
      Laid entries position first first (.stream (labelOf entry.node) entry.pieces.flatten)
  | storage {position first last : Nat} {entry : Entry} {cs : List Content} (h : entries[position]? = some entry)
      (hs : entry.node.isStorage = true) (hchildren : entry.children = List.range' first cs.length)
      (part : Nat → Nat) (hfirst : part 0 = first + cs.length) (hlast : part cs.length = last)
      (hc : ∀ i c, cs[i]? = some c → Laid entries (first + i) (part i) (part (i + 1)) c) :
      Laid entries position first last (.storage (labelOf entry.node) cs)

theorem part_mono {part : Nat → Nat} {n : Nat} (h : ∀ i < n, part i ≤ part (i + 1)) {i j : Nat} (hij : i ≤ j)
    (hj : j ≤ n) : part i ≤ part j := by
  induction j with
  | zero =>
      rw [Nat.le_zero.1 hij]
  | succ j ih =>
      rcases Nat.lt_or_ge i (j + 1) with hlt | hge
      · exact Nat.le_trans (ih (by omega) (by omega)) (h j (by omega))
      · rw [Nat.le_antisymm hij hge]

theorem Laid.le (h : Laid entries position first last c) : first ≤ last := by
  induction h with
  | stream => exact Nat.le_refl _
  | @storage position first last entry cs _ _ _ part hfirst hlast _ ih =>
      have hstep : ∀ i < cs.length, part i ≤ part (i + 1) := fun i hi => ih i cs[i] (List.getElem?_eq_getElem hi)
      have hmono := part_mono hstep (Nat.zero_le cs.length) (Nat.le_refl _)
      omega

/-- Only the entry itself and the positions below it count. -/
theorem Laid.congr (h : Laid entries position first last c) (hp : entries'[position]? = entries[position]?)
    (hbelow : ∀ i, first ≤ i → i < last → entries'[i]? = entries[i]?) : Laid entries' position first last c := by
  induction h with
  | stream h hs hsize => exact .stream (hp.trans h) hs hsize
  | @storage position first last entry cs h hs hchildren part hfirst hlast hc ih =>
      have hstep : ∀ i < cs.length, part i ≤ part (i + 1) := fun i hi => (hc i cs[i] (List.getElem?_eq_getElem hi)).le
      refine .storage (hp.trans h) hs hchildren part hfirst hlast fun i c hi => ?_
      have hlt : i < cs.length := (List.getElem?_eq_some_iff.1 hi).1
      have hlow := part_mono hstep (Nat.zero_le i) (Nat.le_of_lt hlt)
      have hmid := hstep i hlt
      have hhigh := part_mono hstep (show i + 1 ≤ cs.length from hlt) (Nat.le_refl _)
      exact ih i c hi (hbelow _ (by omega) (by omega)) fun j hj hj' => hbelow j (by omega) (by omega)

/-- What a layout leaves as it is. -/
def core (entry : Entry) : CfbNode × List Piece × List Nat × Nat :=
  (entry.node, entry.pieces, entry.children, entry.size)

theorem Laid.of_core (h : Laid entries position first last c)
    (hcore : ∀ i : Nat, entries'[i]?.map core = entries[i]?.map core) : Laid entries' position first last c := by
  have hget : ∀ {i : Nat} {entry : Entry}, entries[i]? = some entry →
      ∃ entry', entries'[i]? = some entry' ∧ core entry' = core entry := by
    intro i entry hi
    have hmap := hcore i
    rw [hi] at hmap
    exact Option.map_eq_some_iff.1 hmap
  induction h with
  | stream h hs hsize =>
      obtain ⟨entry', h', heq⟩ := hget h
      simp only [core, Prod.mk.injEq] at heq
      obtain ⟨hnode, hpieces, -, hsize'⟩ := heq
      rw [← hnode, ← hpieces]
      exact .stream h' (hnode ▸ hs) (by rw [hsize', hpieces, hsize])
  | storage h hs hchildren part hfirst hlast _ ih =>
      obtain ⟨entry', h', heq⟩ := hget h
      simp only [core, Prod.mk.injEq] at heq
      obtain ⟨hnode, -, hchildren', -⟩ := heq
      rw [← hnode]
      exact .storage h' (hnode ▸ hs) (hchildren'.trans hchildren) part hfirst hlast ih

/-- What an item stands for. -/
def ItemContent (m : PackageModel) (item : Item) (c : Content) : Prop :=
  match item.blob with
  | some blob => item.node.isStorage = false ∧ c = .stream (labelOf item.node) blob
  | none => contentOf m item.node = .ok c

theorem ItemContent.label (h : ItemContent m item c) : c.label = labelOf item.node := by
  rw [ItemContent] at h
  cases hb : item.blob with
  | some blob =>
      rw [hb] at h
      rw [h.2]
      rfl
  | none =>
      rw [hb] at h
      exact label_of_content h

theorem extentBytes_length {extents : ByteExtents} {source : List UInt8}
    (h : ∀ extent ∈ extents, extent.offset + extent.length ≤ source.length) :
    (extentBytes source extents).length = (extents.map ByteExtent.length).sum := by
  induction extents with
  | nil => rfl
  | cons extent extents ih =>
      rw [extentBytes, List.flatMap_cons, List.length_append, length_slice_of_le (h extent List.mem_cons_self),
        List.map_cons, List.sum_cons, ← ih fun e he => h e (List.mem_cons_of_mem _ he)]
      rfl

theorem stream_length (hg : Geometry m) (hs : node.isStorage = false) {extents : ByteExtents}
    (h : (m.resolve node {}).1 = .ok extents) : (extentBytes m.source.bytes extents).length = node.size := by
  have hfull := resolve_full (Tracked.initial m) hg hs (Prod.ext h rfl)
  rw [extentBytes_length hfull.inside, hfull.size]

/-- The entry that an item becomes, before the entries of a storage are known. -/
structure Made (m : PackageModel) (item : Item) (entry : Entry) : Prop where
  node : entry.node = item.node
  size : item.node.isStorage = false → entry.size = entry.pieces.flatten.length
  content : item.node.isStorage = false → ItemContent m item (.stream (labelOf item.node) entry.pieces.flatten)

theorem makeEntry_made (hg : Geometry m) (h : After m done u) (hm : makeEntry m item u = .ok (entry, u')) :
    Made m item entry ∧ ∃ done', After m done' u' := by
  rw [makeEntry] at hm
  cases hs : item.node.isStorage with
  | true =>
      rw [hs, if_pos rfl] at hm
      cases hm
      exact ⟨⟨rfl, by simp [hs], by simp [hs]⟩, done, h⟩
  | false =>
      rw [hs, if_neg (by decide)] at hm
      cases hb : item.blob with
      | some blob =>
          rw [hb] at hm
          cases hm
          refine ⟨⟨rfl, by simp, fun _ => ?_⟩, done, h⟩
          simp [ItemContent, hb, hs]
      | none =>
          rw [hb] at hm
          obtain ⟨⟨extents, v⟩, hr, heq⟩ := bind_eq_ok.1 hm
          cases heq
          obtain ⟨halone, h'⟩ := h.resolve hg (resolveOrThrow_eq_ok.1 hr)
          have hflat : (extents.map fun extent => slice m.source.bytes extent.offset extent.length).flatten =
              extentBytes m.source.bytes extents := (List.flatMap_def ..).symm
          refine ⟨⟨rfl, fun _ => ?_, fun _ => ?_⟩, _, h'⟩
          · exact (hflat ▸ stream_length hg hs halone).symm
          · rw [ItemContent, hb]
            exact (contentOf_stream hs).2 ⟨extents, halone, congrArg _ hflat.symm⟩

theorem pushEntries_made (hg : Geometry m) (h : After m done u)
    (hp : pushEntries m sequence (entries, u) = .ok (entries', u')) :
    ∃ made, entries' = entries ++ made ∧ List.Forall₂ (Made m) sequence made ∧ ∃ done', After m done' u' := by
  induction sequence generalizing done entries u with
  | nil =>
      cases hp
      exact ⟨[], (List.append_nil _).symm, .nil, done, h⟩
  | cons item sequence ih =>
      obtain ⟨⟨entry, v⟩, hm, hp⟩ := bind_eq_ok.1 hp
      obtain ⟨hmade, done', h'⟩ := makeEntry_made hg h hm
      obtain ⟨made, rfl, hall, hdone⟩ := ih h' hp
      exact ⟨entry :: made, by rw [List.append_assoc]; rfl, .cons hmade hall, hdone⟩

/-! How many entries there are -/

/-- The number of nodes below a node. -/
def below : CfbNode → Nat
  | ⟨_, isStorage, _, _, _, _, _, _, children, _, _, _⟩ => if isStorage then belowAll children else 0
where
  belowAll : List CfbNode → Nat
    | [] => 0
    | child :: rest => below child + 1 + belowAll rest

theorem belowAll_eq (nodes : List CfbNode) : below.belowAll nodes = (nodes.map fun child => below child + 1).sum := by
  induction nodes with
  | nil => rfl
  | cons node nodes ih => rw [below.belowAll, List.map_cons, List.sum_cons, ih]

theorem below_storage (h : node.isStorage = true) :
    below node = (node.children.map fun child => below child + 1).sum := by
  obtain ⟨⟩ := node
  simp only at h
  rw [below, h, if_pos rfl, belowAll_eq]

theorem below_stream (h : node.isStorage = false) : below node = 0 := by
  obtain ⟨⟩ := node
  simp only at h
  rw [below, h, if_neg (by decide)]

/-- An expansion adds the entries below its storage. -/
def Counts (node : CfbNode) (inner : Expansion) : Prop :=
  ∀ ⦃parent entries u entries' u'⦄, node.isStorage = true → inner parent (entries, u) = .ok (entries', u') →
    entries'.length = entries.length + below node

theorem pushEntries_length (h : pushEntries m sequence (entries, u) = .ok (entries', u')) :
    entries'.length = entries.length + sequence.length := by
  induction sequence generalizing entries u with
  | nil =>
      cases h
      rfl
  | cons item sequence ih =>
      obtain ⟨⟨entry, v⟩, -, h⟩ := bind_eq_ok.1 h
      have hrest : entries'.length = (entries ++ [entry]).length + sequence.length := ih h
      rw [hrest, List.length_append, List.length_singleton, List.length_cons]
      omega

theorem expandItems_length {positions : List Nat} (hlen : positions.length = sequence.length)
    (hinner : ∀ item ∈ sequence, Counts item.node item.inner)
    (h : expandItems (positions.zip sequence) (entries, u) = .ok (entries', u')) :
    entries'.length = entries.length + (sequence.map fun item => below item.node).sum := by
  induction sequence generalizing positions entries u with
  | nil =>
      rw [List.zip_nil_right] at h
      cases h
      rfl
  | cons item sequence ih =>
      cases positions with
      | nil => cases hlen
      | cons position positions =>
          have hrest := fun item hi => hinner item (List.mem_cons_of_mem _ hi)
          rw [List.zip_cons_cons, expandItems] at h
          rw [List.map_cons, List.sum_cons]
          cases hs : item.node.isStorage with
          | true =>
              rw [hs, if_pos rfl] at h
              obtain ⟨⟨mid, v⟩, hmid, h⟩ := bind_eq_ok.1 h
              rw [ih (Nat.succ.inj hlen) hrest h, hinner item List.mem_cons_self hs hmid, Nat.add_assoc]
          | false =>
              rw [hs, if_neg (by decide)] at h
              rw [ih (Nat.succ.inj hlen) hrest h, below_stream hs, Nat.zero_add]

def inOrder (sequence : List Item) : List Item := sortBy (fun item => nameKey item.node.name) sequence

theorem inOrder_perm (sequence : List Item) : (inOrder sequence).Perm sequence := sortBy_perm _ _

theorem expandSequence_eq_ok {parent : Nat} : expandSequence m parent sequence (entries, u) = .ok (entries', u') ↔
    Distinct (fun item => nameKey item.node.name) sequence ∧
    ∃ pushed v, pushEntries m (inOrder sequence) (entries, u) = .ok (pushed, v) ∧
      expandItems (((List.range' entries.length (inOrder sequence).length).map (· % 2 ^ 32)).zip (inOrder sequence))
        (pushed.modify parent fun entry => { entry with
          children := (List.range' entries.length (inOrder sequence).length).map (· % 2 ^ 32) }, v) =
        .ok (entries', u') := by
  have hsorted : (sequence.insertionSort fun a b => compareNames a.node.name b.node.name ≠ .gt) = inOrder sequence :=
    insertionSort_eq_sortBy (fun item : Item => nameKey item.node.name) (fun _ _ => compareNames_ne_gt) sequence
  rw [expandSequence]
  simp only [hsorted, checkUniqueNames, bind_eq_ok, rejectEqualNames_eq_ok, distinct_map, exists_const, Prod.exists]

theorem sum_map_succ {α : Type} (f : α → Nat) (xs : List α) :
    (xs.map fun x => f x + 1).sum = (xs.map f).sum + xs.length := by
  induction xs with
  | nil => rfl
  | cons x xs ih =>
      rw [List.map_cons, List.map_cons, List.sum_cons, List.sum_cons, ih, List.length_cons]
      omega

theorem expandSequence_length {parent : Nat} (hinner : ∀ item ∈ sequence, Counts item.node item.inner)
    (h : expandSequence m parent sequence (entries, u) = .ok (entries', u')) :
    entries'.length = entries.length + (sequence.map fun item => below item.node + 1).sum := by
  obtain ⟨-, pushed, v, hpush, hexpand⟩ := expandSequence_eq_ok.1 h
  have hp := inOrder_perm sequence
  have hsum := (hp.map fun item => below item.node + 1).sum_eq
  have hlength := expandItems_length (by simp) (fun item hi => hinner item (hp.mem_iff.1 hi)) hexpand
  rw [hlength, List.length_modify, pushEntries_length hpush, ← hsum, sum_map_succ]
  omega

theorem items_eq (nodes : List CfbNode) :
    items m nodes = nodes.map fun child => { node := child, inner := expand m child } := by
  induction nodes with
  | nil => rfl
  | cons node nodes ih => rw [items, List.map_cons, ih]

theorem expand_eq (m : PackageModel) (node : CfbNode) (parent : Nat) :
    expand m node parent = expandSequence m parent (items m node.children) := by
  obtain ⟨⟩ := node
  rw [expand]

theorem expand_counts (m : PackageModel) (node : CfbNode) : Counts node (expand m node) := by
  induction node using nodeInduction with
  | h node ih =>
      intro parent entries u entries' u' hs h
      rw [expand_eq, items_eq] at h
      have hinner : ∀ item ∈ node.children.map fun child => ({ node := child, inner := expand m child } : Item),
          Counts item.node item.inner := by
        intro item hi
        obtain ⟨child, hc, rfl⟩ := List.mem_map.1 hi
        exact ih child hc
      rw [expandSequence_length hinner h, below_storage hs, List.map_map]
      rfl

/-- What the expansion of a storage does. -/
def Expands (m : PackageModel) (node : CfbNode) (inner : Expansion) : Prop :=
  ∀ ⦃parent entries u entries' u' done entry⦄, After m done u → entries'.length ≤ 2 ^ 32 →
    entries[parent]? = some entry → entry.node = node → node.isStorage = true →
    inner parent (entries, u) = .ok (entries', u') →
    (∀ i < entries.length, i ≠ parent → entries'[i]? = entries[i]?) ∧ (∃ done', After m done' u') ∧
    ∃ cs, contentsOf m node.children = .ok cs ∧ Separate (.storage (labelOf node) cs) ∧
      Laid entries' parent entries.length entries'.length (Content.storage (labelOf node) cs).sorted

/-- The entries of a row of items and what is below each of them. -/
structure Row (m : PackageModel) (sequence : List Item) (position : Nat) (before after : List Entry)
    (cs : List Content) (part : Nat → Nat) : Prop where
  contents : List.Forall₂ (ItemContent m) sequence cs
  separate : ∀ c ∈ cs, Separate c
  first : part 0 = before.length
  last : part sequence.length = after.length
  laid : ∀ i c, cs[i]? = some c → Laid after (position + i) (part i) (part (i + 1)) c.sorted
  kept : ∀ i < before.length, i < position ∨ position + sequence.length ≤ i → after[i]? = before[i]?

/-- One item more in front of a row. -/
theorem Row.cons {before mid after : List Entry} {part : Nat → Nat} (hitem : ItemContent m item c) (hsep : Separate c)
    (hlaid : Laid mid position before.length mid.length c.sorted) (hle : before.length ≤ mid.length)
    (hkept : ∀ i < before.length, i ≠ position → mid[i]? = before[i]?)
    (hfit : position + (sequence.length + 1) ≤ before.length) (h : Row m sequence (position + 1) mid after cs part) :
    Row m (item :: sequence) position before after (c :: cs) fun
      | 0 => before.length
      | i + 1 => part i := by
  refine ⟨.cons hitem h.contents, List.forall_mem_cons.2 ⟨hsep, h.separate⟩, rfl, h.last, ?_, ?_⟩
  · intro i d hi
    cases i with
    | zero =>
        cases hi
        change Laid after position before.length (part 0) c.sorted
        rw [h.first]
        refine hlaid.congr (h.kept position (by omega) (by omega)) fun i hi hi' => h.kept i hi' (by omega)
    | succ i =>
        have hd := h.laid i d hi
        rwa [Nat.add_assoc, Nat.add_comm 1] at hd
  · intro i hi hout
    rw [List.length_cons] at hout
    rw [h.kept i (by omega) (by omega), hkept i hi (by omega)]

theorem expandItems_row (hblob : ∀ item ∈ sequence, item.node.isStorage = true → item.blob = none)
    (hexpands : ∀ item ∈ sequence, Expands m item.node item.inner)
    (hcounts : ∀ item ∈ sequence, Counts item.node item.inner) (h : After m done u)
    (hmade : ∀ (i : Nat) item, sequence[i]? = some item → ∃ entry, entries[position + i]? = some entry ∧ Made m item entry)
    (hfit : position + sequence.length ≤ entries.length) (hbound : entries'.length ≤ 2 ^ 32)
    (hr : expandItems ((List.range' position sequence.length).zip sequence) (entries, u) = .ok (entries', u')) :
    (∃ done', After m done' u') ∧ ∃ cs part, Row m sequence position entries entries' cs part := by
  induction sequence generalizing position entries u done with
  | nil =>
      rw [List.zip_nil_right] at hr
      cases hr
      exact ⟨⟨done, h⟩, [], fun _ => entries'.length, .nil, by simp, rfl, rfl, by simp, fun _ _ _ => rfl⟩
  | cons item sequence ih =>
      have hblobs := fun item hi => hblob item (List.mem_cons_of_mem _ hi)
      have hexpandss := fun item hi => hexpands item (List.mem_cons_of_mem _ hi)
      have hcountss := fun item hi => hcounts item (List.mem_cons_of_mem _ hi)
      obtain ⟨entry, hentry, hitem⟩ := hmade 0 item rfl
      rw [Nat.add_zero] at hentry
      rw [List.length_cons] at hfit
      rw [List.length_cons, List.range'_succ, List.zip_cons_cons, expandItems] at hr
      cases hs : item.node.isStorage with
      | true =>
          rw [hs, if_pos rfl] at hr
          obtain ⟨⟨mid, v⟩, hmid, hr⟩ := bind_eq_ok.1 hr
          have hgrows := hcounts item List.mem_cons_self hs hmid
          have hrest := expandItems_length (by simp) hcountss hr
          obtain ⟨hkept, ⟨done', h'⟩, ds, hds, hsep, hlaid⟩ :=
            hexpands item List.mem_cons_self h (by omega) hentry hitem.node hs hmid
          have hcontent : ItemContent m item (.storage (labelOf item.node) ds) := by
            rw [ItemContent, hblob item List.mem_cons_self hs]
            exact (contentOf_storage hs).2 ⟨ds, hds, rfl⟩
          have hmade' : ∀ (i : Nat) next, sequence[i]? = some next →
              ∃ entry, mid[position + 1 + i]? = some entry ∧ Made m next entry := by
            intro i next hi
            obtain ⟨entry, hentry, hnext⟩ := hmade (i + 1) next hi
            have hlt := (List.getElem?_eq_some_iff.1 hi).1
            refine ⟨entry, ?_, hnext⟩
            rw [hkept _ (by omega) (by omega), ← hentry]
            congr 1
            omega
          obtain ⟨hdone, cs, part, hrow⟩ := ih hblobs hexpandss hcountss h' hmade' (by omega) hr
          exact ⟨hdone, _, _, hrow.cons hcontent hsep hlaid (by omega) hkept hfit⟩
      | false =>
          rw [hs, if_neg (by decide)] at hr
          have hmade' : ∀ (i : Nat) next, sequence[i]? = some next →
              ∃ entry, entries[position + 1 + i]? = some entry ∧ Made m next entry := by
            intro i next hi
            obtain ⟨entry, hentry, hnext⟩ := hmade (i + 1) next hi
            refine ⟨entry, ?_, hnext⟩
            rw [← hentry]
            congr 1
            omega
          obtain ⟨hdone, cs, part, hrow⟩ := ih hblobs hexpandss hcountss h hmade' (by omega) hr
          have hlaid : Laid entries position entries.length entries.length
              (Content.stream (labelOf item.node) entry.pieces.flatten).sorted := by
            rw [sorted, ← hitem.node]
            exact .stream hentry (hitem.node ▸ hs) (hitem.size hs)
          exact ⟨hdone, _, _, hrow.cons (hitem.content hs) (.stream _ _) hlaid (Nat.le_refl _) (fun _ _ _ => rfl) hfit⟩

theorem positions_lt {n : Nat} (h : first + n ≤ 2 ^ 32) :
    (List.range' first n).map (· % 2 ^ 32) = List.range' first n := by
  refine (List.map_congr_left fun i hi => ?_).trans (List.map_id _)
  obtain ⟨-, hlt⟩ := List.mem_range'_1.1 hi
  exact Nat.mod_eq_of_lt (by omega)

/-- A row in the order of names is the sorted storage. -/
theorem sorted_of_row (label : Label) {ds : List Content} (hd : Distinct (fun item => nameKey item.node.name) sequence)
    (hcs : List.Forall₂ (ItemContent m) sequence cs) (hds : List.Forall₂ (ItemContent m) (inOrder sequence) ds)
    (hp : cs.Perm ds) : Distinct (fun c => nameKey c.name) cs ∧
      (Content.storage label cs).sorted = .storage label (ds.map Content.sorted) := by
  have hnames : ∀ {items : List Item} {cs : List Content}, List.Forall₂ (ItemContent m) items cs →
      cs.map Content.name = items.map fun item => item.node.name := by
    intro items cs h
    induction h with
    | nil => rfl
    | cons hc _ ih =>
        rw [List.map_cons, List.map_cons, ih, Content.name, hc.label]
        rfl
  have hdc : Distinct (fun c => nameKey c.name) cs := by
    have hd' : Distinct nameKey (cs.map Content.name) := by
      rw [hnames hcs]
      exact distinct_map.2 hd
    exact distinct_map.1 hd'
  refine ⟨hdc, ?_⟩
  rw [sorted]
  congr 1
  refine eq_of_strict (sortBy_strict (sorted_children hdc)) ?_ ((sortBy_perm _ _).trans (hp.map _))
  have hstrict : (ds.map Content.name).Pairwise fun a b => nameKey a < nameKey b := by
    rw [hnames hds]
    exact List.pairwise_map.2 (sortBy_strict hd)
  have hstrict := List.pairwise_map.1 hstrict
  refine List.pairwise_map.2 (hstrict.imp fun h => ?_)
  rwa [name_sorted, name_sorted]

theorem expandSequence_laid (hg : Geometry m) (hblob : ∀ item ∈ sequence, item.node.isStorage = true → item.blob = none)
    (hexpands : ∀ item ∈ sequence, Expands m item.node item.inner)
    (hcounts : ∀ item ∈ sequence, Counts item.node item.inner) (h : After m done u) {parent : Nat}
    (hbound : entries'.length ≤ 2 ^ 32) (hparent : entries[parent]? = some entry) (hs : entry.node.isStorage = true)
    (hr : expandSequence m parent sequence (entries, u) = .ok (entries', u')) :
    (∀ i < entries.length, i ≠ parent → entries'[i]? = entries[i]?) ∧ (∃ done', After m done' u') ∧
    ∃ cs, List.Forall₂ (ItemContent m) sequence cs ∧ Separate (.storage (labelOf entry.node) cs) ∧
      Laid entries' parent entries.length entries'.length (Content.storage (labelOf entry.node) cs).sorted := by
  obtain ⟨hd, pushed, v, hpush, hexpand⟩ := expandSequence_eq_ok.1 hr
  have hp := inOrder_perm sequence
  have hlength := expandItems_length (by simp) (fun item hi => hcounts item (hp.mem_iff.1 hi)) hexpand
  obtain ⟨made, rfl, hmade, done', h'⟩ := pushEntries_made hg h hpush
  have hmadelen := hmade.length_eq
  rw [List.length_modify, List.length_append] at hlength
  rw [positions_lt (by omega)] at hexpand
  have hlt : parent < entries.length := (List.getElem?_eq_some_iff.1 hparent).1
  have hget : ∀ (i : Nat) item, (inOrder sequence)[i]? = some item →
      ∃ entry, ((entries ++ made).modify parent fun entry => { entry with
        children := List.range' entries.length (inOrder sequence).length })[entries.length + i]? = some entry ∧
        Made m item entry := by
    intro i item hi
    obtain ⟨entry, hentry, hitem⟩ := forall₂_getElem? hmade hi
    refine ⟨entry, ?_, hitem⟩
    rw [List.getElem?_modify_ne _ _ (by omega), List.getElem?_append_right (by omega), Nat.add_sub_cancel_left, hentry]
  obtain ⟨hdone, ds, part, hrow⟩ := expandItems_row (fun item hi => hblob item (hp.mem_iff.1 hi))
    (fun item hi => hexpands item (hp.mem_iff.1 hi)) (fun item hi => hcounts item (hp.mem_iff.1 hi)) h' hget
    (by rw [List.length_modify, List.length_append]; omega) hbound hexpand
  obtain ⟨cs, hcs, hpd⟩ := List.perm_comp_forall₂ hp.symm hrow.contents
  obtain ⟨hdc, hsorted⟩ := sorted_of_row (labelOf entry.node) hd hcs hrow.contents hpd
  have hkept : ∀ i < entries.length, i ≠ parent → entries'[i]? = entries[i]? := by
    intro i hi hne
    rw [hrow.kept i (by rw [List.length_modify, List.length_append]; omega) (.inl hi),
      List.getElem?_modify_ne _ _ hne.symm, List.getElem?_append_left hi]
  refine ⟨hkept, hdone, cs, hcs, .storage _ _ hdc fun c hc => hrow.separate c (hpd.mem_iff.1 hc), ?_⟩
  have hsame : ds.length = (inOrder sequence).length := hrow.contents.length_eq.symm
  have hentry : entries'[parent]? = some { entry with children := List.range' entries.length ds.length } := by
    rw [hrow.kept parent (by rw [List.length_modify, List.length_append]; omega) (.inl hlt), List.getElem?_modify_eq,
      List.getElem?_append_left hlt, hparent, hsame]
    rfl
  rw [hsorted]
  refine @Laid.storage _ _ _ _ { entry with children := List.range' entries.length ds.length } _ hentry hs ?_ part ?_ ?_
    fun i c hi => ?_
  · rw [List.length_map]
  · rw [hrow.first, List.length_modify, List.length_append, List.length_map, hsame, hmadelen]
  · rw [List.length_map, hsame]
    exact hrow.last
  · rw [List.getElem?_map] at hi
    obtain ⟨d, hd, rfl⟩ := Option.map_eq_some_iff.1 hi
    exact hrow.laid i d hd

theorem expand_expands (hg : Geometry m) (node : CfbNode) : Expands m node (expand m node) := by
  induction node using nodeInduction with
  | h node ih =>
      intro parent entries u entries' u' done entry h hbound hparent hnode hs hr
      rw [expand_eq, items_eq] at hr
      have hitem : ∀ item ∈ node.children.map fun child => ({ node := child, inner := expand m child } : Item),
          item.blob = none ∧ Expands m item.node item.inner ∧ Counts item.node item.inner := by
        intro item hi
        obtain ⟨child, hc, rfl⟩ := List.mem_map.1 hi
        exact ⟨rfl, ih child hc, expand_counts m child⟩
      subst hnode
      obtain ⟨hkept, hdone, cs, hcs, hsep, hlaid⟩ := expandSequence_laid hg (fun item hi _ => (hitem item hi).1)
        (fun item hi => (hitem item hi).2.1) (fun item hi => (hitem item hi).2.2) h hbound hparent hs hr
      refine ⟨hkept, hdone, cs, contentsOf_eq_ok.2 ?_, hsep, hlaid⟩
      exact List.forall₂_map_left_iff.1 hcs

/-! The root -/

/-- The content of the root of a package without its signature streams, and with a new one. -/
def rootContents (signature : Option (List UInt8)) (kept : List Content) : List Content :=
  match signature with
  | none => kept
  | some blob => .stream (labelOf (signatureItem blob).node) blob :: kept

/-- The children of the root that are copied. -/
def keptChildren (m : PackageModel) : List CfbNode :=
  m.root.children.filter fun child => isMsiSignatureName child.name = false

def keptItems (m : PackageModel) : List Item :=
  (keptChildren m).map fun child => { node := child, inner := expand m child }

theorem rootSequence_perm (m : PackageModel) (signature : Option (List UInt8)) :
    (rootSequence m signature).Perm (match signature with
      | none => keptItems m
      | some blob => signatureItem blob :: keptItems m) := by
  have hkept : ((items m m.root.children).filter fun item => isMsiSignatureName item.node.name = false) = keptItems m := by
    rw [items_eq, List.filter_map]
    rfl
  cases signature with
  | none =>
      simp only [rootSequence, hkept]
      exact .refl _
  | some blob =>
      simp only [rootSequence, hkept]
      refine List.perm_middle.trans (.cons _ (.of_eq ?_))
      have hlead := List.prefix_iff_eq_take.1 (List.takeWhile_prefix (l := keptItems m)
        fun item : Item => compareNames msiSignatureName item.node.name ≠ .lt)
      conv_lhs => rw [hlead]
      rw [List.length_take, Nat.min_eq_left (List.takeWhile_prefix _).length_le, List.take_append_drop]

theorem rootItem_expands (hg : Geometry m) {signature : Option (List UInt8)} (hi : item ∈ rootSequence m signature) :
    (item.node.isStorage = true → item.blob = none) ∧ Expands m item.node item.inner ∧ Counts item.node item.inner := by
  have hitem : ∀ item ∈ keptItems m, item.blob = none ∧ Expands m item.node item.inner ∧ Counts item.node item.inner := by
    intro item hi
    obtain ⟨child, -, rfl⟩ := List.mem_map.1 hi
    exact ⟨rfl, expand_expands hg child, expand_counts m child⟩
  have hmem := (rootSequence_perm m signature).mem_iff.1 hi
  cases signature with
  | none => exact ⟨fun _ => (hitem item hmem).1, (hitem item hmem).2⟩
  | some blob =>
      rcases List.mem_cons.1 hmem with rfl | hmem
      · refine ⟨fun h => ?_, fun _ _ _ _ _ _ _ _ _ _ _ h => ?_, fun _ _ _ _ _ h => ?_⟩
        all_goals cases h
      · exact ⟨fun _ => (hitem item hmem).1, (hitem item hmem).2⟩

/-- The entries are the intended package, sorted. -/
theorem flatten_laid (hg : Geometry m) (hroot : m.root.isStorage = true) {signature : Option (List UInt8)}
    (h : flatten m signature = .ok entries) (hbound : entries.length ≤ 2 ^ 32) :
    ∃ kept, contentsOf m (keptChildren m) = .ok kept ∧
      Separate (.storage (labelOf m.root) (rootContents signature kept)) ∧
      Laid entries 0 1 entries.length (Content.storage (labelOf m.root) (rootContents signature kept)).sorted := by
  rw [flatten] at h
  obtain ⟨⟨entries', u⟩, hr, heq⟩ := bind_eq_ok.1 h
  cases heq
  obtain ⟨-, -, cs, hcs, hsep, hlaid⟩ := expandSequence_laid hg (fun item hi => (rootItem_expands hg hi).1)
    (fun item hi => (rootItem_expands hg hi).2.1) (fun item hi => (rootItem_expands hg hi).2.2) (After.initial m) hbound
    rfl hroot hr
  obtain ⟨ds, hds, hp⟩ := List.perm_comp_forall₂ (rootSequence_perm m signature).symm hcs
  obtain ⟨kept, hkept, rfl⟩ : ∃ kept, contentsOf m (keptChildren m) = .ok kept ∧ rootContents signature kept = ds := by
    cases signature with
    | none => exact ⟨ds, contentsOf_eq_ok.2 (List.forall₂_map_left_iff.1 hds), rfl⟩
    | some blob =>
        cases hds with
        | cons hc hds =>
            refine ⟨_, contentsOf_eq_ok.2 (List.forall₂_map_left_iff.1 hds), ?_⟩
            rw [rootContents, hc.2]
  refine ⟨kept, hkept, hsep.perm hp.symm, ?_⟩
  cases hsep with
  | storage _ _ hd _ =>
      rw [← sorted_eq_of_perm hd hp.symm]
      exact hlaid

theorem flatten_length (hg : Geometry m) {signature : Option (List UInt8)} (h : flatten m signature = .ok entries) :
    entries.length = 1 + ((rootSequence m signature).map fun item => below item.node + 1).sum := by
  obtain ⟨⟨entries', u⟩, hr, heq⟩ := bind_eq_ok.1 h
  cases heq
  exact expandSequence_length (fun item hi => (rootItem_expands hg hi).2.2) hr

end TheSeed.CfbFlatten
