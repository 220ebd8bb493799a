import TheSeed.CfbFlatten
import TheSeed.CfbSearch
import TheSeed.CfbWriter

namespace TheSeed.CfbLinks

open CfbReader CfbWriter SearchTree CfbFlatten CfbContent

/-! The trees of a rebuilt directory: linking gives each storage a search tree of its entries in their order. -/

variable {entries entries' : List Entry} {entry : Entry} {sequence positions : List Nat} {bound low high p q : Nat} {L : Links}

/-- Two links of an entry. -/
def sides (entry : Entry) : Nat × Nat := (entry.left, entry.right)

/-- The entry without them. -/
def trunk (entry : Entry) : Entry := { entry with left := kCfbNoStream, right := kCfbNoStream }

/-- The entry without any link. -/
def bare (entry : Entry) : Entry := { entry with left := kCfbNoStream, right := kCfbNoStream, child := kCfbNoStream }

theorem node_of_bare {other : Entry} (h : bare other = bare entry) : other.node = entry.node := by
  have hnode := congrArg Entry.node h
  exact hnode

theorem children_of_bare {other : Entry} (h : bare other = bare entry) : other.children = entry.children := by
  have hchildren := congrArg Entry.children h
  exact hchildren

/-- The links at a position are those of the entry there. -/
def Agrees (L : Links) (entries : List Entry) (p : Nat) : Prop := entries[p]?.map sides = some (L.left p, L.right p)

/-- A part of a sequence. -/
def part (sequence : List Nat) (low high : Nat) : List Nat := (sequence.drop low).take (high - low)

theorem map_modify_of {β : Type} {g : Entry → β} {f : Entry → Entry} (h : ∀ entry, g (f entry) = g entry) (i : Nat) :
    (entries.modify i f).map g = entries.map g := by
  apply List.ext_getElem?
  intro k
  rw [List.getElem?_map, List.getElem?_map, List.getElem?_modify]
  cases entries[k]? with
  | none => rfl
  | some entry =>
      by_cases hk : i = k <;> simp [hk, h]

theorem get_of_map {β : Type} {g : Entry → β} (h : entries'.map g = entries.map g) (q : Nat) :
    entries'[q]?.map g = entries[q]?.map g := by
  rw [← List.getElem?_map, h, List.getElem?_map]

theorem length_of_map {β : Type} {g : Entry → β} (h : entries'.map g = entries.map g) : entries'.length = entries.length := by
  have hlength := congrArg List.length h
  rwa [List.length_map, List.length_map] at hlength

theorem part_nil (h : high ≤ low) : part sequence low high = [] := by
  rw [part, Nat.sub_eq_zero_of_le h, List.take_zero]

/-- The middle of a part stands between two parts. -/
theorem part_split {middle : Nat} (hlow : low ≤ middle) (hhigh : middle < high) (hlength : high ≤ sequence.length) :
    part sequence low high = part sequence low middle ++ sequence.getD middle 0 :: part sequence (middle + 1) high := by
  have hget : sequence.getD middle 0 = sequence[middle] := List.getD_eq_getElem _ _ (by omega)
  have hcount : high - low = middle - low + (high - (middle + 1) + 1) := by omega
  have hdrop : (sequence.drop low).drop (middle - low) = sequence[middle] :: sequence.drop (middle + 1) := by
    rw [List.drop_drop, Nat.add_sub_of_le hlow, List.drop_eq_getElem_cons (by omega)]
  rw [part, part, part, hget, hcount, List.take_add, hdrop, List.take_succ_cons]

theorem part_all : part sequence 0 sequence.length = sequence := by
  rw [part, List.drop_zero, Nat.sub_zero, List.take_length]

theorem nodup_part (h : sequence.Nodup) (low high : Nat) : (part sequence low high).Nodup :=
  (h.sublist (List.drop_sublist _ _)).sublist (List.take_sublist _ _)

/-! One tree -/

theorem buildTree_trunk : (CfbWriter.buildTree sequence bound low high entries).2.map trunk = entries.map trunk := by
  induction bound generalizing low high entries with
  | zero => rfl
  | succ bound ih =>
      rw [CfbWriter.buildTree]
      split
      · rfl
      · dsimp only
        rw [map_modify_of, ih, ih]
        exact fun _ => rfl

/-- Only the entries of the part are linked. -/
theorem buildTree_outside (hhigh : high ≤ sequence.length) (h : q ∉ part sequence low high) :
    (CfbWriter.buildTree sequence bound low high entries).2[q]? = entries[q]? := by
  induction bound generalizing low high entries with
  | zero => rfl
  | succ bound ih =>
      rw [CfbWriter.buildTree]
      split
      · rfl
      · next hlow =>
        rw [part_split (by omega : low ≤ (low + high) / 2) (by omega) hhigh, List.mem_append, List.mem_cons, not_or,
          not_or] at h
        dsimp only
        rw [List.getElem?_modify_ne _ _ (Ne.symm h.2.1), ih hhigh h.2.2, ih (by omega) h.1]

/-- The tree of a part has its entries in order. -/
theorem buildTree_inOrder (hstop : L.stop = kCfbNoStream) (hbound : high - low ≤ bound) (hhigh : high ≤ sequence.length)
    (hnodup : sequence.Nodup) (hin : ∀ p ∈ sequence, p < entries.length ∧ p ≠ kCfbNoStream)
    (hagrees : ∀ p ∈ part sequence low high, Agrees L (CfbWriter.buildTree sequence bound low high entries).2 p) :
    InOrder L (CfbWriter.buildTree sequence bound low high entries).1 (part sequence low high) := by
  induction bound generalizing low high entries with
  | zero =>
      rw [part_nil (by omega), CfbWriter.buildTree, ← hstop]
      exact .stop
  | succ bound ih =>
      by_cases hlow : high ≤ low
      · rw [part_nil hlow, CfbWriter.buildTree, if_pos hlow, ← hstop]
        exact .stop
      · have hsplit := part_split (by omega : low ≤ (low + high) / 2) (by omega) hhigh
        have hapart := nodup_part hnodup low high
        rw [hsplit, List.nodup_append, List.nodup_cons] at hapart
        obtain ⟨-, ⟨hmiddle, -⟩, hapart⟩ := hapart
        rw [CfbWriter.buildTree, if_neg hlow] at hagrees ⊢
        dsimp only at hagrees ⊢
        rw [hsplit] at hagrees ⊢
        obtain ⟨left, hleft⟩ : ∃ left, left = CfbWriter.buildTree sequence bound low ((low + high) / 2) entries := ⟨_, rfl⟩
        obtain ⟨right, hright⟩ : ∃ right, right = CfbWriter.buildTree sequence bound ((low + high) / 2 + 1) high left.2 :=
          ⟨_, rfl⟩
        rw [← hleft, ← hright] at hagrees
        have hlengths : left.2.length = entries.length := by
          rw [hleft]
          exact length_of_map buildTree_trunk
        have hlengths' : right.2.length = entries.length := by
          rw [hright, length_of_map buildTree_trunk, hlengths]
        have hmem : sequence.getD ((low + high) / 2) 0 ∈ sequence := by
          rw [List.getD_eq_getElem _ _ (by omega)]
          exact List.getElem_mem _
        obtain ⟨hsize, hne⟩ := hin _ hmem
        -- what the entry in the middle has in the end
        have hhere := hagrees _ (List.mem_append_right _ List.mem_cons_self)
        rw [Agrees, List.getElem?_modify_eq, List.getElem?_eq_getElem (hlengths'.symm ▸ hsize), Option.map_eq_map,
          Option.map_some, Option.map_some, Option.some.injEq, sides, Prod.mk.injEq] at hhere
        have hl : left.1 = L.left (sequence.getD ((low + high) / 2) 0) := hhere.1
        have hr : right.1 = L.right (sequence.getD ((low + high) / 2) 0) := hhere.2
        have hbefore : InOrder L left.1 (part sequence low ((low + high) / 2)) := by
          rw [hleft]
          apply ih (by omega) (by omega) hin
          intro p hp
          have hother : p ∉ part sequence ((low + high) / 2 + 1) high := fun h =>
            hapart p hp p (List.mem_cons_of_mem _ h) rfl
          have hne : sequence.getD ((low + high) / 2) 0 ≠ p := fun h => hapart p hp _ List.mem_cons_self h.symm
          have hfinal := hagrees p (List.mem_append_left _ hp)
          rw [Agrees, List.getElem?_modify_ne _ _ hne, hright, buildTree_outside hhigh hother, hleft] at hfinal
          exact hfinal
        have hafter : InOrder L right.1 (part sequence ((low + high) / 2 + 1) high) := by
          rw [hright]
          apply ih (by omega) hhigh
          · intro p hp
            rw [hlengths]
            exact hin p hp
          · intro p hp
            have hne : sequence.getD ((low + high) / 2) 0 ≠ p := fun h => hmiddle (h ▸ hp)
            have hfinal := hagrees p (List.mem_append_right _ (List.mem_cons_of_mem _ hp))
            rw [Agrees, List.getElem?_modify_ne _ _ hne, hright] at hfinal
            exact hfinal
        rw [hl] at hbefore
        rw [hr] at hafter
        exact .node (hstop ▸ hne) hbefore hafter

/-! All trees -/

/-- The entries after the storage at a position got its tree. -/
def linkTree (entries : List Entry) (i : Nat) (entry : Entry) : List Entry :=
  let built := CfbWriter.buildTree entry.children entry.children.length 0 entry.children.length entries
  built.2.modify i fun entry => { entry with child := built.1 }

theorem linkTrees_cons {i : Nat} {rest : List Nat} (h : entries[i]? = some entry) : linkTrees (i :: rest) entries =
    if entry.node.isStorage then linkTrees rest (linkTree entries i entry) else linkTrees rest entries := by
  rw [linkTrees, h]
  rfl

theorem linkTree_bare (i : Nat) : (linkTree entries i entry).map bare = entries.map bare := by
  have htrunk : ∀ es : List Entry, es.map bare = (es.map trunk).map bare := by
    intro es
    rw [List.map_map]
    rfl
  rw [linkTree, map_modify_of, htrunk, buildTree_trunk, ← htrunk]
  exact fun _ => rfl

theorem linkTrees_bare (positions : List Nat) (entries : List Entry) :
    (linkTrees positions entries).map bare = entries.map bare := by
  induction positions generalizing entries with
  | nil => rfl
  | cons i rest ih =>
      rw [linkTrees]
      split
      · exact ih entries
      · next entry hentry =>
        split
        · exact (ih _).trans (linkTree_bare i)
        · exact ih entries

/-- An entry keeps what linking does not set. -/
theorem linkTree_get (i : Nat) (q : Nat) : (linkTree entries i entry)[q]?.map bare = entries[q]?.map bare :=
  get_of_map (linkTree_bare i) q

/-- The links of an entry change with the tree it is in, and its child with its own tree. -/
theorem linkTree_sides {i : Nat} (h : q ∉ entry.children) : (linkTree entries i entry)[q]?.map sides = entries[q]?.map sides := by
  have houtside := @buildTree_outside entries entry.children entry.children.length 0 entry.children.length q
    (Nat.le_refl _) (by rwa [part_all])
  rw [← houtside]
  apply get_of_map
  apply map_modify_of
  exact fun _ => rfl

theorem linkTree_child {i : Nat} (h : i ≠ q) :
    (linkTree entries i entry)[q]?.map Entry.child = entries[q]?.map Entry.child := by
  have htrunk : ∀ es : List Entry, es.map Entry.child = (es.map trunk).map Entry.child := by
    intro es
    rw [List.map_map]
    rfl
  rw [linkTree, List.getElem?_modify_ne _ _ h]
  apply get_of_map
  rw [htrunk, buildTree_trunk, ← htrunk]

/-- The entries of a storage, wherever it is in the list. -/
def childrenAt (entries : List Entry) (p : Nat) : List Nat :=
  match entries[p]? with
  | some entry => if entry.node.isStorage then entry.children else []
  | none => []

theorem childrenAt_of_bare (h : entries'.map bare = entries.map bare) (p : Nat) : childrenAt entries' p = childrenAt entries p := by
  have hget := get_of_map h p
  unfold childrenAt
  cases hentry : entries[p]? with
  | none =>
      rw [hentry, Option.map_none, Option.map_eq_none_iff] at hget
      rw [hget]
  | some entry =>
      rw [hentry, Option.map_some, Option.map_eq_some_iff] at hget
      obtain ⟨other, hother, hbare⟩ := hget
      rw [hother]
      dsimp only
      rw [node_of_bare hbare, children_of_bare hbare]

theorem linkTrees_sides (h : ∀ p ∈ positions, q ∉ childrenAt entries p) :
    (linkTrees positions entries)[q]?.map sides = entries[q]?.map sides := by
  induction positions generalizing entries with
  | nil => rfl
  | cons i rest ih =>
      obtain ⟨hi, hrest⟩ := List.forall_mem_cons.1 h
      cases hentry : entries[i]? with
      | none =>
          rw [linkTrees, hentry]
          exact ih hrest
      | some entry =>
          rw [linkTrees_cons hentry]
          by_cases hstorage : entry.node.isStorage = true
          · have hchildren : childrenAt entries i = entry.children := by
              rw [childrenAt, hentry]
              exact if_pos hstorage
            rw [if_pos hstorage, ih, linkTree_sides (hchildren ▸ hi)]
            intro p hp
            rw [childrenAt_of_bare (linkTree_bare i)]
            exact hrest p hp
          · rw [if_neg hstorage]
            exact ih hrest

theorem linkTrees_child (h : q ∉ positions) : (linkTrees positions entries)[q]?.map Entry.child = entries[q]?.map Entry.child := by
  induction positions generalizing entries with
  | nil => rfl
  | cons i rest ih =>
      rw [List.mem_cons, not_or] at h
      cases hentry : entries[i]? with
      | none =>
          rw [linkTrees, hentry]
          exact ih h.2
      | some entry =>
          rw [linkTrees_cons hentry]
          by_cases hstorage : entry.node.isStorage = true
          · rw [if_pos hstorage, ih h.2, linkTree_child (Ne.symm h.1)]
          · rw [if_neg hstorage]
            exact ih h.2

/-- Its links have room in their fields. -/
structure Small (entry : Entry) : Prop where
  left : entry.left < 2 ^ 32
  right : entry.right < 2 ^ 32
  child : entry.child < 2 ^ 32

theorem noStream_small : kCfbNoStream < 2 ^ 32 := by decide

theorem forall_modify {P : Entry → Prop} {f : Entry → Entry} (h : ∀ entry ∈ entries, P entry)
    (hf : ∀ entry, P entry → P (f entry)) (i : Nat) : ∀ entry ∈ entries.modify i f, P entry := by
  intro entry hentry
  obtain ⟨k, hk⟩ := List.getElem?_of_mem hentry
  rw [List.getElem?_modify] at hk
  cases hget : entries[k]? with
  | none =>
      rw [hget] at hk
      cases hk
  | some before =>
      have hbefore := h before (List.mem_of_getElem? hget)
      rw [hget, Option.map_eq_map, Option.map_some, Option.some.injEq] at hk
      rw [← hk]
      split
      · exact hf before hbefore
      · exact hbefore

theorem buildTree_small (hsequence : ∀ p ∈ sequence, p < 2 ^ 32) (h : ∀ entry ∈ entries, Small entry) :
    (CfbWriter.buildTree sequence bound low high entries).1 < 2 ^ 32 ∧
      ∀ entry ∈ (CfbWriter.buildTree sequence bound low high entries).2, Small entry := by
  induction bound generalizing low high entries with
  | zero =>
      rw [CfbWriter.buildTree]
      exact ⟨noStream_small, h⟩
  | succ bound ih =>
      rw [CfbWriter.buildTree]
      split
      · exact ⟨noStream_small, h⟩
      · dsimp only
        obtain ⟨hleft, hentries⟩ := @ih entries low ((low + high) / 2) h
        obtain ⟨hright, hentries⟩ := @ih _ ((low + high) / 2 + 1) high hentries
        refine ⟨?_, ?_⟩
        rotate_left
        · apply forall_modify hentries
          intro entry hentry
          exact Small.mk hleft hright hentry.child
        rw [List.getD_eq_getElem?_getD]
        cases hget : sequence[(low + high) / 2]? with
        | none => decide
        | some position => exact hsequence position (List.mem_of_getElem? hget)

theorem linkTrees_small (hinside : ∀ p, ∀ q ∈ childrenAt entries p, q < 2 ^ 32) (h : ∀ entry ∈ entries, Small entry) :
    ∀ entry ∈ linkTrees positions entries, Small entry := by
  induction positions generalizing entries with
  | nil => exact h
  | cons i rest ih =>
      cases hentry : entries[i]? with
      | none =>
          rw [linkTrees, hentry]
          exact ih hinside h
      | some entry =>
          rw [linkTrees_cons hentry]
          by_cases hstorage : entry.node.isStorage = true
          · rw [if_pos hstorage]
            have hchildren : childrenAt entries i = entry.children := by
              rw [childrenAt, hentry]
              exact if_pos hstorage
            have hbuilt := @buildTree_small entries entry.children entry.children.length 0 entry.children.length
              (hchildren ▸ hinside i) h
            apply ih
            · intro p
              rw [childrenAt_of_bare (linkTree_bare i)]
              exact hinside p
            · apply forall_modify hbuilt.2
              intro entry hentry
              exact Small.mk hentry.left hentry.right hbuilt.1
          · rw [if_neg hstorage]
            exact ih hinside h

/-- The entries of the storages are in the list, and no two storages share one. -/
structure Family (entries : List Entry) : Prop where
  nodup : ∀ p, (childrenAt entries p).Nodup
  inside : ∀ p, ∀ q ∈ childrenAt entries p, q < entries.length
  apart : ∀ p p' q, q ∈ childrenAt entries p → q ∈ childrenAt entries p' → p = p'

/-- Each storage has a search tree of its entries, in their order. -/
theorem linkTrees_inOrder (hstop : L.stop = kCfbNoStream) (hf : Family entries) (hfew : entries.length ≤ kCfbNoStream)
    (hnodup : positions.Nodup) (hp : p ∈ positions) (hlt : p < entries.length) {linked : List Entry}
    (hlinked : linkTrees positions entries = linked) (hstorage : ∀ entry, entries[p]? = some entry → entry.node.isStorage = true)
    (hagrees : ∀ q ∈ childrenAt entries p, Agrees L linked q) :
    ∃ root, linked[p]?.map Entry.child = some root ∧ InOrder L root (childrenAt entries p) := by
  subst hlinked
  induction positions generalizing entries with
  | nil => cases hp
  | cons i rest ih =>
      obtain ⟨hi, hrest⟩ := List.nodup_cons.1 hnodup
      by_cases hhere : p = i
      · subst hhere
        obtain ⟨entry, hentry⟩ : ∃ entry, entries[p]? = some entry := ⟨_, List.getElem?_eq_getElem hlt⟩
        have hs := hstorage entry hentry
        have hchildren : childrenAt entries p = entry.children := by
          rw [childrenAt, hentry]
          exact if_pos hs
        have hsame := @linkTree_bare entries entry p
        rw [linkTrees_cons hentry, if_pos hs] at hagrees ⊢
        rw [hchildren] at hagrees ⊢
        obtain ⟨built, hbuilt⟩ : ∃ built, built =
          CfbWriter.buildTree entry.children entry.children.length 0 entry.children.length entries := ⟨_, rfl⟩
        refine ⟨built.1, ?_, ?_⟩
        · have hlength : built.2.length = entries.length := by
            rw [hbuilt]
            exact length_of_map buildTree_trunk
          rw [linkTrees_child hi, linkTree, ← hbuilt, List.getElem?_modify_eq,
            List.getElem?_eq_getElem (hlength.symm ▸ hlt)]
          rfl
        · have htree := @buildTree_inOrder entries entry.children entry.children.length 0 entry.children.length L hstop
            (by omega) (Nat.le_refl _) (hchildren ▸ hf.nodup p) ?_ ?_
          · rwa [← hbuilt, part_all] at htree
          · intro q hq
            have hsmall := hf.inside p q (hchildren.symm ▸ hq)
            exact ⟨hsmall, by omega⟩
          · intro q hq
            rw [part_all] at hq
            have hfinal := hagrees q hq
            have hkept : ∀ p' ∈ rest, q ∉ childrenAt (linkTree entries p entry) p' := by
              intro p' hp' hmem
              rw [childrenAt_of_bare hsame] at hmem
              exact hi (hf.apart p p' q (hchildren.symm ▸ hq) hmem ▸ hp')
            have hmodify : (linkTree entries p entry)[q]?.map sides = built.2[q]?.map sides := by
              rw [linkTree, ← hbuilt]
              apply get_of_map
              apply map_modify_of
              exact fun _ => rfl
            rw [Agrees, linkTrees_sides hkept, hmodify, hbuilt] at hfinal
            exact hfinal
      · have hp' : p ∈ rest := (List.mem_cons.1 hp).resolve_left hhere
        cases hentry : entries[i]? with
        | none =>
            have hskip : linkTrees (i :: rest) entries = linkTrees rest entries := by rw [linkTrees, hentry]
            rw [hskip] at hagrees ⊢
            exact ih hf hfew hrest hp' hlt hstorage hagrees
        | some entry =>
            rw [linkTrees_cons hentry] at hagrees ⊢
            by_cases hs : entry.node.isStorage = true
            · have hsame := @linkTree_bare entries entry i
              have hlength := length_of_map hsame
              have hfamily : Family (linkTree entries i entry) := by
                refine ⟨fun p => ?_, fun p q hq => ?_, fun p p' q hq hq' => ?_⟩
                · rw [childrenAt_of_bare hsame]
                  exact hf.nodup p
                · rw [childrenAt_of_bare hsame] at hq
                  rw [hlength]
                  exact hf.inside p q hq
                · rw [childrenAt_of_bare hsame] at hq hq'
                  exact hf.apart p p' q hq hq'
              rw [if_pos hs] at hagrees ⊢
              rw [← childrenAt_of_bare hsame] at hagrees ⊢
              apply ih hfamily (hlength ▸ hfew) hrest hp' (hlength ▸ hlt) ?_ hagrees
              intro other hother
              have hget := @linkTree_get entries entry i p
              rw [hother, Option.map_some, eq_comm, Option.map_eq_some_iff] at hget
              obtain ⟨before, hbefore, hbare⟩ := hget
              rw [← node_of_bare hbare]
              exact hstorage before hbefore
            · rw [if_neg hs] at hagrees ⊢
              exact ih hf hfew hrest hp' hlt hstorage hagrees

/-! The entries of a package are such a family -/

section laid

variable {position first last : Nat} {c : Content} {cs : List Content} {part : Nat → Nat}

/-- A position between the ends of a row of parts lies in one of them. -/
theorem part_of_between {n i : Nat} (hlow : part 0 ≤ i) (hhigh : i < part n) : ∃ j < n, part j ≤ i ∧ i < part (j + 1) := by
  induction n with
  | zero => omega
  | succ n ih =>
      by_cases h : i < part n
      · obtain ⟨j, hj, hin⟩ := ih h
        exact ⟨j, Nat.lt_succ_of_lt hj, hin⟩
      · exact ⟨n, Nat.lt_succ_self n, Nat.le_of_not_lt h, hhigh⟩

/-- The positions of an entry and of what is below it. -/
def Within (position first last p : Nat) : Prop := p = position ∨ first ≤ p ∧ p < last

theorem within_row (hfirst : part 0 = first + cs.length) (hlast : part cs.length = last)
    (h : Within position first last p) :
    p = position ∨ ∃ i c, cs[i]? = some c ∧ Within (first + i) (part i) (part (i + 1)) p := by
  rcases h with rfl | ⟨hlow, hhigh⟩
  · exact .inl rfl
  · right
    by_cases hrow : p < first + cs.length
    · exact ⟨p - first, cs[p - first], List.getElem?_eq_getElem (by omega), .inl (by omega)⟩
    · obtain ⟨i, hi, hin⟩ := part_of_between (by omega : part 0 ≤ p) (hlast ▸ hhigh)
      exact ⟨i, cs[i], List.getElem?_eq_getElem hi, .inr hin⟩

/-- Each part lies behind the row and inside the whole. -/
theorem part_bounds (hfirst : part 0 = first + cs.length) (hlast : part cs.length = last)
    (hle : ∀ i c, cs[i]? = some c → part i ≤ part (i + 1)) {i j : Nat} (hij : i < j) (hj : j < cs.length) :
    first + cs.length ≤ part i ∧ part (i + 1) ≤ part j ∧ part (j + 1) ≤ last := by
  have hstep : ∀ i < cs.length, part i ≤ part (i + 1) := fun i hi => hle i cs[i] (List.getElem?_eq_getElem hi)
  have hlow := part_mono hstep (Nat.zero_le i) (by omega)
  have hmiddle : part (i + 1) ≤ part j := part_mono hstep hij (by omega)
  have hhigh : part (j + 1) ≤ part cs.length := part_mono hstep hj (Nat.le_refl _)
  omega

theorem part_inside (hfirst : part 0 = first + cs.length) (hlast : part cs.length = last)
    (hle : ∀ i c, cs[i]? = some c → part i ≤ part (i + 1)) {i : Nat} (hi : i < cs.length) :
    first + cs.length ≤ part i ∧ part (i + 1) ≤ last := by
  have hstep : ∀ i < cs.length, part i ≤ part (i + 1) := fun i hi => hle i cs[i] (List.getElem?_eq_getElem hi)
  have hlow := part_mono hstep (Nat.zero_le i) (Nat.le_of_lt hi)
  have hhigh : part (i + 1) ≤ part cs.length := part_mono hstep hi (Nat.le_refl _)
  omega

theorem childrenAt_storage (h : entries[p]? = some entry) (hs : entry.node.isStorage = true) :
    childrenAt entries p = entry.children := by
  rw [childrenAt, h]
  exact if_pos hs

theorem childrenAt_stream (h : entries[p]? = some entry) (hs : entry.node.isStorage = false) : childrenAt entries p = [] := by
  rw [childrenAt, h]
  exact if_neg (by rw [hs]; decide)

/-- What stands at a position of the package. -/
theorem laid_at (h : Laid entries position first last c) (hp : Within position first last p) :
    ∃ first' last' d, Laid entries p first' last' d ∧ first ≤ first' ∧ last' ≤ last := by
  induction h with
  | @stream position first entry h hs hsize =>
      rcases hp with rfl | hp
      · exact ⟨first, first, _, .stream h hs hsize, Nat.le_refl _, Nat.le_refl _⟩
      · omega
  | @storage position first last entry cs h hs hchildren part hfirst hlast hc ih =>
      have hle : ∀ i c, cs[i]? = some c → part i ≤ part (i + 1) := fun i c hi => (hc i c hi).le
      rcases within_row hfirst hlast hp with rfl | ⟨i, d, hi, hin⟩
      · exact ⟨first, last, _, .storage h hs hchildren part hfirst hlast hc, Nat.le_refl _, Nat.le_refl _⟩
      · obtain ⟨hlow, hhigh⟩ := part_inside hfirst hlast hle (List.getElem?_eq_some_iff.1 hi).1
        obtain ⟨first', last', d', hlaid, hfirst', hlast'⟩ := ih i d hi hin
        exact ⟨first', last', d', hlaid, by omega, by omega⟩

/-- The entries of a storage stand behind it, next to each other. -/
theorem children_laid (h : Laid entries p first last c) :
    (childrenAt entries p).Nodup ∧ ∀ q ∈ childrenAt entries p, first ≤ q ∧ q < last := by
  cases h with
  | stream h hs =>
      rw [childrenAt_stream h hs]
      exact ⟨List.nodup_nil, fun q hq => absurd hq List.not_mem_nil⟩
  | @storage _ _ _ entry cs h hs hchildren part hfirst hlast hc =>
      rw [childrenAt_storage h hs, hchildren]
      refine ⟨List.nodup_range', fun q hq => ?_⟩
      have hle : ∀ i c, cs[i]? = some c → part i ≤ part (i + 1) := fun i c hi => (hc i c hi).le
      have hq := List.mem_range'_1.1 hq
      have hinside := part_inside hfirst hlast hle (i := q - first) (by omega)
      have hpart := hle (q - first) _ (List.getElem?_eq_getElem (by omega))
      omega

theorem apart_laid (h : Laid entries position first last c) {p' : Nat} (hp : Within position first last p)
    (hp' : Within position first last p') (hq : q ∈ childrenAt entries p) (hq' : q ∈ childrenAt entries p') : p = p' := by
  induction h with
  | @stream position first entry h hs hsize =>
      rcases hp with rfl | hp
      · rw [childrenAt_stream h hs] at hq
        exact absurd hq List.not_mem_nil
      · omega
  | @storage position first last entry cs h hs hchildren part hfirst hlast hc ih =>
      have hle : ∀ i c, cs[i]? = some c → part i ≤ part (i + 1) := fun i c hi => (hc i c hi).le
      have hroot : ∀ q ∈ childrenAt entries position, q < first + cs.length := by
        intro q hq
        rw [childrenAt_storage h hs, hchildren] at hq
        exact (List.mem_range'_1.1 hq).2
      -- what is below a member of the row stands in its part
      have hbelow : ∀ i c p q, cs[i]? = some c → Within (first + i) (part i) (part (i + 1)) p → q ∈ childrenAt entries p →
          part i ≤ q ∧ q < part (i + 1) := by
        intro i c p q hi hin hq
        obtain ⟨first', last', d, hlaid, hlow, hhigh⟩ := laid_at (hc i c hi) hin
        have hbounds := (children_laid hlaid).2 q hq
        omega
      rcases within_row hfirst hlast hp with rfl | ⟨i, d, hi, hin⟩
      · rcases within_row hfirst hlast hp' with rfl | ⟨i, d, hi, hin⟩
        · rfl
        · have hsmall := hroot q hq
          have hlarge := hbelow i d p' q hi hin hq'
          have hinside := part_inside hfirst hlast hle (List.getElem?_eq_some_iff.1 hi).1
          omega
      · have hmine := hbelow i d p q hi hin hq
        have hi' := (List.getElem?_eq_some_iff.1 hi).1
        rcases within_row hfirst hlast hp' with rfl | ⟨j, e, hj, hin'⟩
        · have hsmall := hroot q hq'
          have hinside := part_inside hfirst hlast hle hi'
          omega
        · have hother := hbelow j e p' q hj hin' hq'
          have hj' := (List.getElem?_eq_some_iff.1 hj).1
          rcases Nat.lt_trichotomy i j with hlt | rfl | hlt
          · have hbounds := part_bounds hfirst hlast hle hlt hj'
            omega
          · exact ih i d hi hin hin'
          · have hbounds := part_bounds hfirst hlast hle hlt hi'
            omega

/-- What the whole list stands for makes it a family. -/
theorem family_of_laid (h : Laid entries 0 1 entries.length c) : Family entries := by
  have hwithin : ∀ {p q}, q ∈ childrenAt entries p → Within 0 1 entries.length p := by
    intro p q hq
    have hlt : p < entries.length := by
      by_contra hge
      rw [childrenAt, List.getElem?_eq_none (Nat.le_of_not_lt hge)] at hq
      cases hq
    rcases Nat.eq_zero_or_pos p with hp | hp
    · exact .inl hp
    · exact .inr ⟨hp, hlt⟩
  refine ⟨fun p => ?_, fun p q hq => ?_, fun p p' q hq hq' => ?_⟩
  · cases hchildren : childrenAt entries p with
    | nil => exact List.nodup_nil
    | cons q rest =>
        have hq : q ∈ childrenAt entries p := hchildren ▸ List.mem_cons_self
        obtain ⟨first', last', d, hlaid, -, -⟩ := laid_at h (hwithin hq)
        rw [← hchildren]
        exact (children_laid hlaid).1
  · obtain ⟨first', last', d, hlaid, -, hlast⟩ := laid_at h (hwithin hq)
    have hbounds := (children_laid hlaid).2 q hq
    omega
  · exact apart_laid h (hwithin hq) (hwithin hq') hq hq'

end laid

/-! What is written apart from the directory does not depend on the links -/

theorem allocationIndex_of_bare (h : entries'.map bare = entries.map bare) (layout : Layout) :
    allocationIndex entries' layout = allocationIndex entries layout := by
  have hfold : ∀ es : List Entry, allocationIndex es layout = allocationIndex (es.map bare) layout := by
    intro es
    rw [allocationIndex, allocationIndex, List.foldl_map]
    rfl
  rw [hfold entries', h, ← hfold]

theorem miniIndex_of_bare (h : entries'.map bare = entries.map bare) : miniIndex entries' = miniIndex entries := by
  have hfold : ∀ es : List Entry, miniIndex es = miniIndex (es.map bare) := by
    intro es
    rw [miniIndex, miniIndex, List.foldl_map]
    rfl
  rw [hfold entries', h, ← hfold]

theorem writeStreams_of_bare (h : entries'.map bare = entries.map bare) (layout : Layout) (out : List UInt8) :
    writeStreams layout entries' out = writeStreams layout entries out := by
  have hfold : ∀ es : List Entry, writeStreams layout es out = writeStreams layout (es.map bare) out := by
    intro es
    rw [writeStreams, writeStreams, List.foldl_map]
    rfl
  rw [hfold entries', h, ← hfold]

end TheSeed.CfbLinks
