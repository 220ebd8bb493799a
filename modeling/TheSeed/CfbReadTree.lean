import TheSeed.CfbLinks
import TheSeed.CfbSearch

namespace TheSeed.CfbReadTree

open Checked BoundedBytes CfbReader CfbWriter SearchTree CfbTree CfbSearch CfbContent CfbFlatten CfbLinks

/-! A directory whose storages are search trees of entries next to each other is read, and each entry becomes one
node. -/

variable {directory : List DirEntry} {visited visited' : Visited} {stack : List Frame} {order ids : List Nat} {id : Nat}

/-- What is reached when some more entries are. -/
def mark (visited : Visited) (ids : List Nat) : Visited := fun i => visited i || decide (i ∈ ids)

theorem mark_nil : mark visited [] = visited := by
  funext i
  rw [mark, decide_eq_false List.not_mem_nil, Bool.or_false]

theorem mark_of_not_mem {i : Nat} (h : i ∉ ids) : mark visited ids i = visited i := by
  rw [mark, decide_eq_false h, Bool.or_false]

/-- The entries of a tree that can be read: in the directory, in use, and not reached before. -/
structure Ready (directory : List DirEntry) (visited : Visited) (ids : List Nat) : Prop where
  nodup : ids.Nodup
  inside : ∀ i ∈ ids, i < directory.length
  used : ∀ i ∈ ids, (directory.getD i {}).type ≠ kTypeUnknown
  free : ∀ i ∈ ids, visited i = false

theorem Ready.push (hne : id ≠ kCfbNoStream) (hin : id < directory.length) (hused : (directory.getD id {}).type ≠ kTypeUnknown)
    (hfree : visited id = false) :
    pushEntry directory visited stack id = .ok (Function.update visited id true, ⟨id, 0⟩ :: stack) := by
  apply pushEntry_eq_ok.2
  exact .inr ⟨⟨hne, hin, hfree, hused⟩, rfl, rfl⟩

/-- The walk of a whole tree: three rounds for each entry, and its entries in order. -/
theorem readOrder_tree (h : InOrder (dirLinks directory) id ids) (hready : Ready directory visited ids) (steps : Nat)
    (stack : List Frame) (order : List Nat) : ∃ pushed, pushEntry directory visited stack id = .ok pushed ∧
      readOrder directory (3 * ids.length + steps) pushed.1 pushed.2 order =
        readOrder directory steps (mark visited ids) stack (order ++ ids) := by
  induction h generalizing visited steps stack order with
  | stop =>
      refine ⟨(visited, stack), if_pos rfl, ?_⟩
      rw [mark_nil, List.append_nil, List.length_nil, Nat.mul_zero, Nat.zero_add]
  | @node id before after hne hl hr ihl ihr =>
      have hnodup := hready.nodup
      rw [List.nodup_append, List.nodup_cons] at hnodup
      obtain ⟨hbefore, ⟨hafter, hnodupAfter⟩, hapart⟩ := hnodup
      have hhere : id ∈ before ++ id :: after := List.mem_append_right _ List.mem_cons_self
      have hnot : id ∉ before := fun hmem => hapart id hmem id List.mem_cons_self rfl
      have hreadyLeft : Ready directory (Function.update visited id true) before := by
        refine ⟨hbefore, fun i hi => ?_, fun i hi => ?_, fun i hi => ?_⟩
        · exact hready.inside i (List.mem_append_left _ hi)
        · exact hready.used i (List.mem_append_left _ hi)
        · have hne : i ≠ id := fun heq => hnot (heq ▸ hi)
          rw [Function.update_of_ne hne]
          exact hready.free i (List.mem_append_left _ hi)
      have hreadyRight : Ready directory (mark (Function.update visited id true) before) after := by
        refine ⟨hnodupAfter, fun i hi => ?_, fun i hi => ?_, fun i hi => ?_⟩
        · exact hready.inside i (List.mem_append_right _ (List.mem_cons_of_mem _ hi))
        · exact hready.used i (List.mem_append_right _ (List.mem_cons_of_mem _ hi))
        · have hne : i ≠ id := fun heq => hafter (heq ▸ hi)
          rw [mark_of_not_mem fun hmem => hapart i hmem i (List.mem_cons_of_mem _ hi) rfl, Function.update_of_ne hne]
          exact hready.free i (List.mem_append_right _ (List.mem_cons_of_mem _ hi))
      obtain ⟨left, hleft, hwalkLeft⟩ := ihl hreadyLeft (3 * after.length + steps + 1 + 1) (⟨id, 1⟩ :: stack) order
      obtain ⟨right, hright, hwalkRight⟩ := ihr hreadyRight steps stack (order ++ before ++ [id])
      have hleft : pushEntry directory (Function.update visited id true) (⟨id, 1⟩ :: stack) (directory.getD id {}).left =
          .ok left := hleft
      have hright : pushEntry directory (mark (Function.update visited id true) before) stack
          (directory.getD id {}).right = .ok right := hright
      have hmark : mark (mark (Function.update visited id true) before) after = mark visited (before ++ id :: after) := by
        funext i
        rw [mark, mark, mark, Function.update_apply]
        by_cases heq : i = id
        · simp [heq]
        · simp [heq, Bool.or_assoc]
      refine ⟨_, Ready.push hne (hready.inside id hhere) (hready.used id hhere) (hready.free id hhere), ?_⟩
      have hsteps : 3 * (before ++ id :: after).length + steps =
          3 * before.length + (3 * after.length + steps + 1 + 1) + 1 := by
        rw [List.length_append, List.length_cons]
        omega
      have horder : order ++ before ++ [id] ++ after = order ++ (before ++ id :: after) := by simp
      rw [hsteps, readOrder]
      dsimp only
      rw [if_pos rfl, hleft, ok_bind, hwalkLeft, readOrder]
      rw [if_neg (by decide), if_pos rfl, readOrder]
      rw [if_neg (by decide), if_neg (by decide), hright, ok_bind, hwalkRight, hmark, horder]

/-- A storage whose tree can be walked is read when its nodes are. -/
theorem readStorage_ok {levels p : Nat} {nodes : List (Nat × CfbNode)}
    (htree : InOrder (dirLinks directory) (directory.getD p {}).child ids) (hready : Ready directory visited ids)
    (hnodes : readNodes (readStorage directory levels) directory ids (mark visited ids) = .ok (nodes, visited')) :
    readStorage directory (levels + 1) p visited =
      .ok (nodes.map (linkNode directory (nodes.map Prod.fst)),
        lookup (nodes.map Prod.fst) (directory.getD p {}).child, visited') := by
  rw [readStorage]
  dsimp only
  by_cases hnone : (directory.getD p {}).child = kCfbNoStream
  · have hnil : ids = [] := by
      rw [hnone] at htree
      exact htree.unique .stop
    rw [hnil, mark_nil] at hnodes
    cases hnodes
    rw [if_pos hnone]
    rfl
  · have hlength : ids.length ≤ directory.length := by
      have hsub : ids.Subperm (List.range directory.length) :=
        List.subperm_of_subset hready.nodup fun i hi => List.mem_range.2 (hready.inside i hi)
      simpa using hsub.length_le
    obtain ⟨pushed, hpush, hwalk⟩ := readOrder_tree htree hready (3 * directory.length + 1 - 3 * ids.length) [] []
    obtain ⟨rest, hrest⟩ : ∃ rest, 3 * directory.length + 1 - 3 * ids.length = rest + 1 :=
      ⟨3 * directory.length - 3 * ids.length, by omega⟩
    have hsteps : 3 * ids.length + (3 * directory.length + 1 - 3 * ids.length) = 3 * directory.length + 1 := by omega
    rw [hsteps, hrest, readOrder, List.nil_append] at hwalk
    rw [if_neg hnone, hpush, ok_bind, hwalk, ok_bind, hnodes, ok_bind]
    rfl

/-! The directory of a package -/

/-- A package with so many levels of storages at most. -/
inductive Nested : Nat → Content → Prop
  | stream {levels : Nat} {label : Label} {bytes : List UInt8} : Nested levels (.stream label bytes)
  | storage {levels : Nat} {label : Label} {cs : List Content} (h : ∀ c ∈ cs, Nested levels c) :
      Nested (levels + 1) (.storage label cs)

/-- A directory that holds the entries at their positions, each storage with a search tree of its entries. -/
structure Shows (directory : List DirEntry) (entries : List Entry) : Prop where
  enough : entries.length ≤ directory.length
  few : entries.length ≤ kCfbNoStream
  label : ∀ (p : Nat) entry, entries[p]? = some entry → (directory.getD p {}).name = entry.node.name ∧
    (directory.getD p {}).classId = entry.node.classId ∧ (directory.getD p {}).stateBits = entry.node.stateBits ∧
    (directory.getD p {}).creationTime = entry.node.creationTime ∧
    (directory.getD p {}).modificationTime = entry.node.modificationTime
  kind : ∀ (p : Nat) entry, entries[p]? = some entry → p ≠ 0 →
    (directory.getD p {}).type = if entry.node.isStorage then kTypeStorage else kTypeStream
  stream : ∀ (p : Nat) entry, entries[p]? = some entry → p ≠ 0 → entry.node.isStorage = false →
    (directory.getD p {}).startSector = entry.start ∧ (directory.getD p {}).size = entry.size
  tree : ∀ (p : Nat) entry, entries[p]? = some entry → entry.node.isStorage = true →
    InOrder (dirLinks directory) (directory.getD p {}).child entry.children

/-- A node that was read from the entry at a position, with all that is below it. -/
inductive Copied (directory : List DirEntry) (entries : List Entry) : Nat → CfbNode → Prop
  | stream {p : Nat} {entry : Entry} {node : CfbNode} (h : entries[p]? = some entry) (hs : entry.node.isStorage = false)
      (hnode : node.isStorage = false) (hlabel : labelOf entry.node = labelOf node) (hstart : node.startSector = entry.start)
      (hsize : node.size = entry.size) : Copied directory entries p node
  | storage {p : Nat} {entry : Entry} {node : CfbNode} (h : entries[p]? = some entry) (hs : entry.node.isStorage = true)
      (hnode : node.isStorage = true) (hlabel : labelOf entry.node = labelOf node) (hread : ReadAs directory p node)
      (hlength : node.children.length = entry.children.length)
      (hchildren : ∀ (i q : Nat) child, entry.children[i]? = some q → node.children[i]? = some child →
        Copied directory entries q child) : Copied directory entries p node

section row

variable {entries : List Entry} {entry : Entry} {p first last levels : Nat} {c : Content} {cs : List Content}
  {part : Nat → Nat}

/-- The storage at a position can be read, and nothing but what is below it is reached. -/
def Reads (directory : List DirEntry) (entries : List Entry) (p first last : Nat) (c : Content) : Prop :=
  ∀ ⦃entry⦄, entries[p]? = some entry → entry.node.isStorage = true → ∀ ⦃levels⦄, Nested levels c → ∀ ⦃visited : Visited⦄,
    (∀ i, first ≤ i → i < last → visited i = false) → ∃ read, readStorage directory levels p visited = .ok read ∧
      (∀ i, i < first ∨ last ≤ i → read.2.2 i = visited i) ∧ read.1.length = entry.children.length ∧
      ∀ (i q : Nat) child, entry.children[i]? = some q → read.1[i]? = some child → Copied directory entries q child

theorem laid_storage {label : Label} (h : Laid entries p first last (.storage label cs)) :
    ∃ entry, entries[p]? = some entry ∧ entry.node.isStorage = true := by
  cases h with
  | storage hentry hkind => exact ⟨_, hentry, hkind⟩

theorem laid_stream {label : Label} {bytes : List UInt8} (h : Laid entries p first last (.stream label bytes)) :
    ∃ entry, entries[p]? = some entry ∧ entry.node.isStorage = false ∧ last = first := by
  cases h with
  | stream hentry hkind => exact ⟨_, hentry, hkind, rfl⟩

/-- The entries of a storage become its nodes, one after the other. -/
theorem readNodes_row (hs : Shows directory entries) (hfirst : 0 < first)
    (hlaid : ∀ i c, cs[i]? = some c → Laid entries (first + i) (part i) (part (i + 1)) c)
    (hreads : ∀ i c, cs[i]? = some c → Reads directory entries (first + i) (part i) (part (i + 1)) c)
    (hnested : ∀ c ∈ cs, Nested levels c) (hfree : ∀ i, part 0 ≤ i → i < part cs.length → visited i = false) :
    ∃ nodes visited', readNodes (readStorage directory levels) directory (List.range' first cs.length) visited =
        .ok (nodes, visited') ∧ nodes.map Prod.fst = List.range' first cs.length ∧
      (∀ i, i < part 0 ∨ part cs.length ≤ i → visited' i = visited i) ∧
      ∀ node ∈ nodes, ∀ source, Copied directory entries node.1 (linkNode directory source node) := by
  induction cs generalizing first part visited with
  | nil => exact ⟨[], visited, rfl, rfl, fun _ _ => rfl, fun node hnode => absurd hnode List.not_mem_nil⟩
  | cons c cs ih =>
      have hstep : ∀ i < (c :: cs).length, part i ≤ part (i + 1) := fun i hi =>
        (hlaid i _ (List.getElem?_eq_getElem hi)).le
      have hhead : part 0 ≤ part 1 := hstep 0 (Nat.succ_pos _)
      have htail : part 1 ≤ part (cs.length + 1) := part_mono hstep (Nat.succ_le_succ (Nat.zero_le _)) (Nat.le_refl _)
      obtain ⟨hnest, hnestedRest⟩ := List.forall_mem_cons.1 hnested
      have hlaidRest : ∀ i d, cs[i]? = some d → Laid entries (first + 1 + i) (part (i + 1)) (part (i + 1 + 1)) d := by
        intro i d hi
        have hd := hlaid (i + 1) d hi
        rwa [Nat.add_comm i 1, ← Nat.add_assoc, Nat.add_comm 1 i] at hd
      have hreadsRest : ∀ i d, cs[i]? = some d →
          Reads directory entries (first + 1 + i) (part (i + 1)) (part (i + 1 + 1)) d := by
        intro i d hi
        have hd := hreads (i + 1) d hi
        rwa [Nat.add_comm i 1, ← Nat.add_assoc, Nat.add_comm 1 i] at hd
      rw [List.length_cons] at hfree ⊢
      rw [List.range'_succ, readNodes]
      dsimp only
      have hlabelOf : ∀ entry, entries[first]? = some entry → ∀ node : CfbNode, node.name = (directory.getD first {}).name →
          node.classId = (directory.getD first {}).classId → node.stateBits = (directory.getD first {}).stateBits →
          node.creationTime = (directory.getD first {}).creationTime →
          node.modificationTime = (directory.getD first {}).modificationTime → labelOf entry.node = labelOf node := by
        intro entry hentry node h1 h2 h3 h4 h5
        obtain ⟨hname, hclass, hbits, hcreated, hmodified⟩ := hs.label first entry hentry
        rw [labelOf, labelOf, h1, h2, h3, h4, h5, hname, hclass, hbits, hcreated, hmodified]
      have hc : Laid entries first (part 0) (part 1) c := hlaid 0 c rfl
      have hr : Reads directory entries first (part 0) (part 1) c := hreads 0 c rfl
      cases c with
      | storage label ds =>
          obtain ⟨entry, hentry, hkind⟩ := laid_storage hc
          have htype : (directory.getD first {}).type = kTypeStorage := by
            rw [hs.kind first entry hentry (by omega), if_pos hkind]
          obtain ⟨read, hread, hkept, hlength, hcopied⟩ := hr hentry hkind hnest fun i hlow hhigh => hfree i hlow (by omega)
          have hfreeRest : ∀ i, part 1 ≤ i → i < part (cs.length + 1) → read.2.2 i = false := by
            intro i hlow hhigh
            rw [hkept i (.inr hlow)]
            exact hfree i (by omega) hhigh
          obtain ⟨nodes, visited', hnodes, hids, houtside, hall⟩ := @ih read.2.2 (first + 1) (fun i => part (i + 1))
            (Nat.succ_pos first) hlaidRest hreadsRest hnestedRest hfreeRest
          rw [if_pos htype, hread, ok_bind, hnodes, ok_bind]
          refine ⟨_, _, rfl, ?_, ?_, ?_⟩
          · rw [List.map_cons, hids]
          · intro i hi
            have houtside : i < part 1 ∨ part (cs.length + 1) ≤ i → visited' i = read.2.2 i := houtside i
            exact (houtside (by omega)).trans (hkept i (by omega))
          · rw [List.forall_mem_cons]
            refine ⟨fun source => ?_, hall⟩
            apply Copied.storage hentry hkind rfl _ ⟨levels, visited, read.2.2, hread⟩ hlength hcopied
            exact hlabelOf entry hentry _ rfl rfl rfl rfl rfl
      | stream label bytes =>
          obtain ⟨entry, hentry, hkind, hnone⟩ := laid_stream hc
          have htype : (directory.getD first {}).type = kTypeStream := by
            rw [hs.kind first entry hentry (by omega), if_neg (by rw [hkind]; decide)]
          have hnot : (directory.getD first {}).type ≠ kTypeStorage := by
            rw [htype]
            decide
          obtain ⟨hstart, hsize⟩ := hs.stream first entry hentry (by omega) hkind
          have hfreeRest : ∀ i, part 1 ≤ i → i < part (cs.length + 1) → visited i = false := fun i hlow hhigh =>
            hfree i (by omega) hhigh
          obtain ⟨nodes, visited', hnodes, hids, houtside, hall⟩ := @ih visited (first + 1) (fun i => part (i + 1))
            (Nat.succ_pos first) hlaidRest hreadsRest hnestedRest hfreeRest
          rw [if_neg hnot, if_pos htype, hnodes, ok_bind]
          refine ⟨_, _, rfl, ?_, ?_, ?_⟩
          · rw [List.map_cons, hids]
          · intro i hi
            have houtside : i < part 1 ∨ part (cs.length + 1) ≤ i → visited' i = visited i := houtside i
            exact houtside (by omega)
          · rw [List.forall_mem_cons]
            refine ⟨fun source => ?_, hall⟩
            apply Copied.stream hentry hkind rfl _ hstart hsize
            exact hlabelOf entry hentry _ rfl rfl rfl rfl rfl

/-- Every storage of the package can be read. -/
theorem reads_laid (hs : Shows directory entries) (h : Laid entries p first last c) (hfirst : 0 < first)
    (hlast : last ≤ entries.length) : Reads directory entries p first last c := by
  induction h with
  | @stream position first entry h hkind =>
      intro other hother hstorage
      rw [h, Option.some.injEq] at hother
      subst hother
      rw [hkind] at hstorage
      cases hstorage
  | @storage position first last entry cs h hkind hchildren part hpart hend hc ih =>
      intro other hother _ levels hnested visited hfree
      rw [h, Option.some.injEq] at hother
      subst hother
      have hle : ∀ i c, cs[i]? = some c → part i ≤ part (i + 1) := fun i c hi => (hc i c hi).le
      have hstep : ∀ i < cs.length, part i ≤ part (i + 1) := fun i hi => hle i _ (List.getElem?_eq_getElem hi)
      have hrow : part 0 ≤ part cs.length := part_mono hstep (Nat.zero_le _) (Nat.le_refl _)
      have hreads : ∀ i c, cs[i]? = some c → Reads directory entries (first + i) (part i) (part (i + 1)) c := by
        intro i c hi
        have hinside := part_inside hpart hend hle (List.getElem?_eq_some_iff.1 hi).1
        exact ih i c hi (by omega) (by omega)
      cases hnested with
      | @storage levels _ _ hnested =>
          have henough := hs.enough
          have hready : Ready directory visited (List.range' first cs.length) := by
            refine ⟨List.nodup_range', fun i hi => ?_, fun i hi => ?_, fun i hi => ?_⟩
            · have hi := (List.mem_range'_1.1 hi).2
              omega
            · have hi := List.mem_range'_1.1 hi
              obtain ⟨entry, hentry⟩ : ∃ entry, entries[i]? = some entry :=
                ⟨_, List.getElem?_eq_getElem (by omega)⟩
              rw [hs.kind i entry hentry (by omega)]
              split <;> decide
            · have hi := List.mem_range'_1.1 hi
              exact hfree i hi.1 (by omega)
          have hmarked : ∀ i, part 0 ≤ i → i < part cs.length → mark visited (List.range' first cs.length) i = false := by
            intro i hlow hhigh
            have hnot : i ∉ List.range' first cs.length := by
              intro hmem
              have hi := (List.mem_range'_1.1 hmem).2
              omega
            rw [mark_of_not_mem hnot]
            exact hfree i (by omega) (by omega)
          obtain ⟨nodes, visited', hnodes, hids, houtside, hall⟩ := @readNodes_row directory _ entries first levels cs part hs
            hfirst hc hreads hnested hmarked
          have htree := hs.tree position entry h hkind
          rw [hchildren] at htree
          refine ⟨_, readStorage_ok htree hready hnodes, ?_, ?_, ?_⟩
          · intro i hi
            dsimp only
            rw [houtside i (by omega), mark_of_not_mem]
            intro hmem
            have hi' := List.mem_range'_1.1 hmem
            omega
          · dsimp only
            rw [List.length_map, hchildren, ← hids, List.length_map]
          · intro i q child hq hchild
            dsimp only at hchild
            rw [hchildren, ← hids, List.getElem?_map, Option.map_eq_some_iff] at hq
            obtain ⟨node, hnode, rfl⟩ := hq
            rw [List.getElem?_map, hnode, Option.map_some, Option.some.injEq] at hchild
            subst hchild
            exact hall node (List.mem_of_getElem? hnode) _

/-- The whole tree is read from the root. -/
theorem buildTree_ok (hs : Shows directory entries) (h : Laid entries 0 1 entries.length c) (hentry : entries[0]? = some entry)
    (hkind : entry.node.isStorage = true) (hroot : (directory.getD 0 {}).type = kTypeRoot)
    (hnested : Nested kCfbMaxStorageDepth c) (m : PackageModel) :
    ∃ root, CfbReader.buildTree m directory = .ok { m with
        root
        miniContainerStart := (directory.getD 0 {}).startSector
        miniContainerSize := (directory.getD 0 {}).size } ∧ Copied directory entries 0 root := by
  have hfree : ∀ i, 1 ≤ i → i < entries.length → Function.update (fun _ => false) 0 true i = false := by
    intro i hlow _
    exact Function.update_of_ne (by omega) _ _
  obtain ⟨read, hread, -, hlength, hcopied⟩ := reads_laid hs h Nat.one_pos (Nat.le_refl _) hentry hkind hnested hfree
  have hlabel := hs.label 0 entry hentry
  have hsome : directory ≠ [] := by
    have henough := hs.enough
    have hpos := (List.getElem?_eq_some_iff.1 hentry).1
    rintro rfl
    rw [List.length_nil] at henough
    omega
  have hreal : ¬(directory = [] ∨ (directory.getD 0 {}).type ≠ kTypeRoot) := by
    rintro (hnil | hne)
    · exact hsome hnil
    · exact hne hroot
  rw [CfbReader.buildTree]
  rw [rejectIf_of_not hreal, ok_bind, hread, ok_bind]
  refine ⟨_, rfl, ?_⟩
  apply Copied.storage hentry hkind rfl _ ⟨_, _, read.2.2, hread⟩ hlength hcopied
  rw [labelOf, labelOf, hlabel.1, hlabel.2.1, hlabel.2.2.1, hlabel.2.2.2.1, hlabel.2.2.2.2]

end row

end TheSeed.CfbReadTree
