import TheSeed.CfbReadBack
import TheSeed.CfbReadTree
import TheSeed.CfbSelfCheck

namespace TheSeed.CfbOutputTree

open Checked BoundedBytes CfbReader CfbWriter SearchTree CfbSearch CfbResolve CfbNarrowing CfbRuns CfbLinks CfbFlatten CfbContent CfbSlots
  CfbRegions CfbReadBack CfbReadTree CfbSelfCheck

/-! The output of the writer is read: its directory shows the entries as they were placed, so the reader finds the
tree that was meant. -/

variable {m : PackageModel} {entries placed : List Entry} {layout : Layout} {stored entry : Entry} {label : Label}
  {cs : List Content} {p : Nat}

section written

variable (h : Written m entries placed layout)

include h

theorem placed_small (hmem : stored ∈ placed) : Small stored := by
  obtain ⟨i, hi⟩ := List.getElem?_of_mem hmem
  obtain ⟨entry, hentry, rfl⟩ := placed_of_get h.laidOut hi
  obtain ⟨-, -, hleft, hright, hchild⟩ := h.unplaced entry (List.mem_of_getElem? hentry)
  have hlinks : ∀ e : Entry, e.left = entry.left → e.right = entry.right → e.child = entry.child → Small e := by
    intro e h1 h2 h3
    constructor
    · rw [h1, hleft]
      exact noStream_small
    · rw [h2, hright]
      exact noStream_small
    · rw [h3, hchild]
      exact noStream_small
  rw [placedAt]
  split_ifs
  · exact hlinks _ rfl rfl rfl
  · exact hlinks _ rfl rfl rfl
  · exact hlinks _ rfl rfl rfl

theorem placed_start (hmem : stored ∈ placed) : stored.start < 2 ^ 32 := by
  obtain ⟨i, hi⟩ := List.getElem?_of_mem hmem
  obtain ⟨entry, hentry, rfl⟩ := placed_of_get h.laidOut hi
  have hstart := (h.unplaced entry (List.mem_of_getElem? hentry)).2.1
  rw [placedAt]
  split_ifs
  · exact Nat.mod_lt _ (by decide)
  · exact Nat.mod_lt _ (by decide)
  · rw [hstart]
    decide

theorem placed_sizes (hmem : stored ∈ placed) (hs : stored.node.isStorage = false) :
    stored.size < if m.header.majorVersion = 4 then 2 ^ 64 else 2 ^ 32 := by
  obtain ⟨i, hi⟩ := List.getElem?_of_mem hmem
  obtain ⟨entry, hentry, rfl⟩ := placed_of_get h.laidOut hi
  rw [placed_node] at hs
  rw [placed_size]
  exact h.sizes entry (List.mem_of_getElem? hentry) hs

omit h in
/-- An entry with its links is otherwise as it was placed. -/
theorem linked_get (hp : placed[p]? = some stored) : ∃ entry, (linked placed)[p]? = some entry ∧ bare entry = bare stored := by
  have hget := get_of_map (linked_bare placed) p
  rw [hp, Option.map_some] at hget
  exact Option.map_eq_some_iff.1 hget

omit h in
theorem placed_get (hp : (linked placed)[p]? = some entry) : ∃ stored, placed[p]? = some stored ∧ bare entry = bare stored := by
  have hget := get_of_map (linked_bare placed) p
  rw [hp, Option.map_some] at hget
  obtain ⟨stored, hstored, heq⟩ := Option.map_eq_some_iff.1 hget.symm
  exact ⟨stored, hstored, heq.symm⟩

theorem placed_laid (hl : Laid entries 0 1 entries.length (.storage label cs)) :
    Laid placed 0 1 placed.length (.storage label cs) := by
  rw [h.length_eq]
  exact Laid.of_map_core hl (computeLayout_core h.laidOut)

theorem linked_small (hl : Laid entries 0 1 entries.length (.storage label cs)) (hfew : entries.length ≤ kCfbNoStream)
    (hmem : entry ∈ linked placed) : Small entry := by
  have hplaced := placed_laid h hl
  have hlength := h.length_eq
  apply @linkTrees_small placed (List.range placed.length) _ _ entry hmem
  · intro p q hq
    have hlt := (family_of_laid hplaced).inside p q hq
    rw [kCfbNoStream] at hfew
    omega
  · intro entry hentry
    exact placed_small h hentry

/-- Every entry has room in its slot. -/
theorem linked_fits (hl : Laid entries 0 1 entries.length (.storage label cs)) (hfew : entries.length ≤ kCfbNoStream)
    (hp : (linked placed)[p]? = some entry) : Fits m.header.majorVersion entry (p = 0) layout := by
  obtain ⟨stored, hstored, hbare⟩ := placed_get hp
  obtain ⟨hleft, hright, hchild⟩ := linked_small h hl hfew (List.mem_of_getElem? hp)
  have hstart : entry.start = stored.start := by
    have heq := congrArg Entry.start hbare
    exact heq
  have hsize : entry.size = stored.size := by
    have heq := congrArg Entry.size hbare
    exact heq
  have hsmall := h.small
  have hnumbers := sector_numbers h.toArranged
  have hregions := h.regions
  have horder := region_order h.toArranged
  have hend : kCfbEndOfChain < 2 ^ 32 := by decide
  refine ⟨hleft, hright, hchild, ?_, ?_⟩
  · rw [CfbSlots.shown]
    dsimp only
    split_ifs
    · exact hend
    · omega
    · decide
    · rw [hstart]
      exact placed_start h (List.mem_of_getElem? hstored)
  · have hwidth : 2 ^ 32 ≤ if m.header.majorVersion = 4 then 2 ^ 64 else 2 ^ 32 := by
      split_ifs
      · decide
      · exact Nat.le_refl _
    rw [CfbSlots.shown]
    dsimp only
    by_cases hroot : (decide (p = 0)) = true
    · rw [if_pos hroot]
      exact hsmall
    · rw [if_neg hroot]
      by_cases hstorage : entry.node.isStorage = true
      · rw [if_pos hstorage]
        exact (Nat.two_pow_pos 32).trans_le hwidth
      · rw [if_neg hstorage, hsize]
        rw [Bool.not_eq_true, node_of_bare hbare] at hstorage
        exact placed_sizes h (List.mem_of_getElem? hstored) hstorage

omit h in
theorem length_directoryOf : (directoryOf m placed layout).length =
    layout.directorySectors * (layout.sectorSize / kDirEntrySize) := by
  rw [directoryOf, List.length_map, List.length_range]

theorem directory_enough : entries.length ≤ (directoryOf m placed layout).length := by
  have hregions := h.regions
  rw [length_directoryOf, hregions.directorySectors, hregions.sectorSize]
  apply unitsFor_covers
  rcases h.versioned.sector with hsize | hsize <;> rw [hsize] <;> decide

/-- The directory shows each entry at its position. -/
theorem directory_entry (hl : Laid entries 0 1 entries.length (.storage label cs)) (hfew : entries.length ≤ kCfbNoStream)
    (hp : (linked placed)[p]? = some entry) :
    (directoryOf m placed layout).getD p {} = CfbSlots.shown entry (p = 0) layout := by
  obtain ⟨stored, hstored, -⟩ := placed_get hp
  have hlt := (List.getElem?_eq_some_iff.1 hstored).1
  have henough := directory_enough h
  rw [length_directoryOf] at henough
  rw [h.length_eq] at hlt
  have hget : (directoryOf m placed layout)[p]? = some (entryIn m.header.majorVersion (slotAt (linked placed) layout p)) := by
    rw [directoryOf, List.getElem?_map, List.getElem?_range (hlt.trans_le henough)]
    rfl
  rw [List.getD_eq_getElem?_getD, hget, Option.getD_some, slotAt, hp]
  exact entryIn_slot (linked_fits h hl hfew hp)

/-- The directory shows all entries, and the trees of the storages. -/
theorem directory_shows (hl : Laid entries 0 1 entries.length (.storage label cs)) (hfew : entries.length ≤ kCfbNoStream) :
    Shows (directoryOf m placed layout) placed := by
  have hlength := h.length_eq
  have hplaced := placed_laid h hl
  have hfamily := family_of_laid hplaced
  have hall : ∀ (p : Nat) stored, placed[p]? = some stored → ∃ entry, (linked placed)[p]? = some entry ∧
      bare entry = bare stored ∧ (directoryOf m placed layout).getD p {} = CfbSlots.shown entry (p = 0) layout := by
    intro p stored hp
    obtain ⟨entry, hentry, hbare⟩ := linked_get hp
    exact ⟨entry, hentry, hbare, directory_entry h hl hfew hentry⟩
  constructor
  · rw [hlength]
    exact directory_enough h
  · rw [hlength]
    exact hfew
  · intro p stored hp
    obtain ⟨entry, -, hbare, hshown⟩ := hall p stored hp
    rw [hshown, ← node_of_bare hbare]
    exact ⟨rfl, rfl, rfl, rfl, rfl⟩
  · intro p stored hp hne
    obtain ⟨entry, -, hbare, hshown⟩ := hall p stored hp
    rw [hshown, ← node_of_bare hbare, decide_eq_false hne]
    rfl
  · intro p stored hp hne hstream
    obtain ⟨entry, -, hbare, hshown⟩ := hall p stored hp
    have hstart := congrArg Entry.start hbare
    have hsize := congrArg Entry.size hbare
    rw [← node_of_bare hbare] at hstream
    rw [hshown, decide_eq_false hne, CfbSlots.shown, hstream]
    exact ⟨hstart, hsize⟩
  · intro p stored hp hstorage
    obtain ⟨entry, hentry, hbare, hshown⟩ := hall p stored hp
    have hlt := (List.getElem?_eq_some_iff.1 hp).1
    rw [← hlength] at hfew
    have hagrees : ∀ q ∈ childrenAt placed p, Agrees (dirLinks (directoryOf m placed layout)) (linked placed) q := by
      intro q hq
      obtain ⟨child, hchild⟩ : ∃ child, placed[q]? = some child := ⟨_, List.getElem?_eq_getElem (hfamily.inside p q hq)⟩
      obtain ⟨other, hother, -, hsides⟩ := hall q child hchild
      have hleft : (dirLinks (directoryOf m placed layout)).left q = other.left := congrArg DirEntry.left hsides
      have hright : (dirLinks (directoryOf m placed layout)).right q = other.right := congrArg DirEntry.right hsides
      rw [Agrees, hother, Option.map_some, hleft, hright]
      rfl
    have hkind : ∀ other, placed[p]? = some other → other.node.isStorage = true := by
      intro other hother
      rw [hp, Option.some.injEq] at hother
      rw [← hother]
      exact hstorage
    obtain ⟨root, hroot, htree⟩ := linkTrees_inOrder rfl hfamily hfew List.nodup_range (List.mem_range.2 hlt) hlt rfl hkind
      hagrees
    rw [← linked] at hroot
    rw [hentry, Option.map_some, Option.some.injEq] at hroot
    rw [childrenAt_storage hp hstorage] at htree
    have hchild := congrArg DirEntry.child hshown
    rw [hchild]
    have hsame : (CfbSlots.shown entry (p = 0) layout).child = root := hroot
    rw [hsame]
    exact htree

end written

/-- The output as it is read. -/
def checked (m : PackageModel) (placed : List Entry) (layout : Layout) (root : CfbNode) : PackageModel :=
  { tabled m placed layout with
    root
    miniContainerStart := if layout.miniSectors = 0 then kCfbEndOfChain else layout.miniStreamStart
    miniContainerSize := layout.miniSectors * kMiniSectorSize }

theorem checked_indexed (root : CfbNode) : Indexed m placed layout (checked m placed layout root) := ⟨⟨rfl, rfl⟩, rfl⟩

/-- The output is read back as the tree that was meant. -/
theorem parse_output (h : Written m entries placed layout) (hl : Laid entries 0 1 entries.length (.storage label cs))
    (hfew : entries.length ≤ kCfbNoStream) (hnested : Nested kCfbMaxStorageDepth (.storage label cs)) :
    ∃ root, parse (serialise m placed layout) = .ok (checked m placed layout root) ∧
      Copied (directoryOf m placed layout) placed 0 root := by
  have hlength := h.length_eq
  have hplaced := placed_laid h hl
  obtain ⟨stored, hstored, hstorage⟩ := laid_storage hplaced
  obtain ⟨entry, hentry, -⟩ := linked_get hstored
  have hroot := directory_entry h hl hfew hentry
  have hsome : entries ≠ [] := by
    have hpos := (List.getElem?_eq_some_iff.1 hstored).1
    rintro rfl
    rw [hlength] at hpos
    cases hpos
  have hkind : ((directoryOf m placed layout).getD 0 {}).type = kTypeRoot := by
    rw [hroot]
    rfl
  obtain ⟨root, hbuilt, hcopied⟩ := buildTree_ok (directory_shows h hl hfew) hplaced hstored hstorage hkind hnested
    (tabled m placed layout)
  refine ⟨root, ?_, hcopied⟩
  rw [parse_out h.toArranged hsome, hbuilt, hroot]
  rfl

end TheSeed.CfbOutputTree
