import TheSeed.CfbOutputCheck
import TheSeed.MsiHistory

namespace TheSeed.CfbComplete

open Checked BoundedBytes CfbReader CfbResolve CfbWriter CfbNarrowing CfbRuns CfbJoint CfbLinks CfbContent CfbFlatten CfbTree
  CfbSearch CfbReadTree CfbRegions CfbReadBack CfbSelfCheck MsiFingerprint CfbOutputTree CfbOutputStreams CfbOutputRoom
  CfbOutputCheck

/-! What the writer makes passes its self-check: the writer returns whenever the package can be rebuilt and its numbers
have room in the format. -/

variable {m : PackageModel} {entries placed : List Entry} {layout : Layout} {bytes : List UInt8} {directory : List DirEntry}
  {visited visited' : Visited} {limit levels position first last : Nat} {node : CfbNode} {c : Content} {cs : List Content}

/-- The sizes that a reader of the version can take. -/
def sizeLimit (header : CfbHeader) : Nat := if header.majorVersion = 4 then 2 ^ 64 else 2 ^ 32

/-! What was read is not nested deeper than a reader allows -/

/-- So many levels of storages at most, and streams below a size. -/
inductive Shallow (limit : Nat) : Nat → CfbNode → Prop
  | stream {levels : Nat} {node : CfbNode} (h : node.isStorage = false) (hsize : node.size < limit) : Shallow limit levels node
  | storage {levels : Nat} {node : CfbNode} (h : node.isStorage = true)
      (hchildren : ∀ child ∈ node.children, Shallow limit levels child) : Shallow limit (levels + 1) node

theorem Shallow.of_same {other : CfbNode} (h : Shallow limit levels node) (hkind : other.isStorage = node.isStorage)
    (hsize : other.size = node.size) (hchildren : other.children = node.children) : Shallow limit levels other := by
  cases h with
  | stream h hlt => exact .stream (hkind.trans h) (hsize ▸ hlt)
  | storage h hall => exact .storage (hkind.trans h) (hchildren ▸ hall)

theorem readNodes_shallow {order : List Nat} {nodes : List (Nat × CfbNode)} (hsizes : ∀ p, (directory.getD p {}).size < limit)
    (hinner : ∀ p visited read, readStorage directory levels p visited = .ok read → ∀ node : CfbNode,
      node.isStorage = true → node.children = read.1 → Shallow limit levels node)
    (h : readNodes (readStorage directory levels) directory order visited = .ok (nodes, visited')) :
    ∀ node ∈ nodes, Shallow limit levels node.2 := by
  induction order generalizing visited nodes with
  | nil =>
      cases h
      exact fun node hnode => absurd hnode List.not_mem_nil
  | cons id order ih =>
      rw [readNodes] at h
      dsimp only at h
      by_cases hstorage : (directory.getD id {}).type = kTypeStorage
      · rw [if_pos hstorage] at h
        obtain ⟨read, hread, h⟩ := bind_eq_ok.1 h
        obtain ⟨⟨rest, after⟩, hrest, h⟩ := bind_eq_ok.1 h
        cases h
        exact List.forall_mem_cons.2 ⟨hinner id visited read hread _ rfl rfl, ih hrest⟩
      · rw [if_neg hstorage] at h
        by_cases hstream : (directory.getD id {}).type = kTypeStream
        · rw [if_pos hstream] at h
          obtain ⟨⟨rest, after⟩, hrest, h⟩ := bind_eq_ok.1 h
          cases h
          exact List.forall_mem_cons.2 ⟨.stream rfl (hsizes id), ih hrest⟩
        · rw [if_neg hstream] at h
          exact ih h

/-- Each level of storages takes one of the levels that a reader allows. -/
theorem readStorage_shallow (hsizes : ∀ p, (directory.getD p {}).size < limit) {p : Nat} {read : StorageRead}
    (h : readStorage directory levels p visited = .ok read) (node : CfbNode) (hkind : node.isStorage = true)
    (hchildren : node.children = read.1) : Shallow limit levels node := by
  induction levels generalizing p visited read node with
  | zero => cases h
  | succ levels ih =>
      apply Shallow.storage hkind
      rw [hchildren]
      rw [readStorage] at h
      dsimp only at h
      by_cases hnone : (directory.getD p {}).child = kCfbNoStream
      · rw [if_pos hnone] at h
        cases h
        exact fun child hchild => absurd hchild List.not_mem_nil
      · rw [if_neg hnone] at h
        obtain ⟨pushed, -, h⟩ := bind_eq_ok.1 h
        obtain ⟨walked, -, h⟩ := bind_eq_ok.1 h
        obtain ⟨⟨nodes, after⟩, hnodes, h⟩ := bind_eq_ok.1 h
        cases h
        have hall := readNodes_shallow hsizes (fun p visited read hread node hkind hsame => ih hread node hkind hsame) hnodes
        intro child hchild
        obtain ⟨node, hnode, rfl⟩ := List.mem_map.1 hchild
        exact (hall node hnode).of_same rfl rfl rfl

theorem parseDirEntry_size {span : ByteSpan} {base : Nat} {entry : DirEntry} (h : parseDirEntry m span base = .ok entry) :
    entry.size < sizeLimit m.header := by
  simp only [parseDirEntry, bind_eq_ok, pure_eq_ok, Except.ok.injEq] at h
  obtain ⟨name, -, type, -, left, -, right, -, child, -, classId, -, stateBits, -, created, -, modified, -, start, -, h⟩ := h
  obtain ⟨size, hsize, rfl⟩ := h
  have hlt := readField_lt hsize
  rw [sizeLimit]
  split_ifs at hlt ⊢
  · exact hlt
  · exact hlt

theorem parseDirectory_sizes (h : parseDirectory m = .ok directory) (p : Nat) :
    (directory.getD p {}).size < sizeLimit m.header := by
  have hpos : 0 < sizeLimit m.header := by
    rw [sizeLimit]
    split_ifs <;> decide
  simp only [parseDirectory, bind_eq_ok, pure_eq_ok, Except.ok.injEq] at h
  obtain ⟨chain, -, parts, hparts, rfl⟩ := h
  have hall : ∀ part ∈ parts, ∀ entry ∈ part, entry.size < sizeLimit m.header := by
    refine mapM_forall (fun sector part hpart => ?_) hparts
    obtain ⟨span, -, hpart⟩ := bind_eq_ok.1 hpart
    exact mapM_forall (fun _ _ => parseDirEntry_size) hpart
  rw [List.getD_eq_getElem?_getD]
  cases hp : parts.flatten[p]? with
  | none => exact hpos
  | some entry =>
      obtain ⟨part, hpart, hentry⟩ := List.mem_flatten.1 (List.mem_of_getElem? hp)
      exact hall part hpart entry hentry

theorem parse_shallow (h : parse bytes = .ok m) : Shallow (sizeLimit m.header) kCfbMaxStorageDepth m.root := by
  obtain ⟨header, fat, mini, directory, -, -, -, hdirectory, htree⟩ := parse_eq_ok.1 h
  simp only [CfbReader.buildTree, bind_eq_ok, pure_eq_ok, Except.ok.injEq] at htree
  obtain ⟨-, -, read, hread, rfl⟩ := htree
  exact readStorage_shallow (parseDirectory_sizes hdirectory) hread _ rfl rfl

/-! What is to be written is not nested deeper either -/

/-- So many levels of storages at most, and streams below a size. -/
inductive Bounded (limit : Nat) : Nat → Content → Prop
  | stream {levels : Nat} {label : Label} {bytes : List UInt8} (h : bytes.length < limit) :
      Bounded limit levels (.stream label bytes)
  | storage {levels : Nat} {label : Label} {cs : List Content} (h : ∀ c ∈ cs, Bounded limit levels c) :
      Bounded limit (levels + 1) (.storage label cs)

theorem Bounded.nested (h : Bounded limit levels c) : Nested levels c := by
  induction h with
  | stream => exact .stream
  | storage _ ih => exact .storage ih

theorem Bounded.sorted (h : Bounded limit levels c) : Bounded limit levels c.sorted := by
  induction h with
  | stream h =>
      rw [Content.sorted]
      exact .stream h
  | storage _ ih =>
      rw [Content.sorted]
      apply Bounded.storage
      intro c hc
      obtain ⟨d, hd, rfl⟩ := List.mem_map.1 ((SortedBy.sortBy_perm _ _).mem_iff.1 hc)
      exact ih d hd

theorem bounded_of_shallow (hg : Geometry m) (h : Shallow limit levels node) (hc : contentOf m node = .ok c) :
    Bounded limit levels c := by
  induction h generalizing c with
  | stream hkind hsize =>
      obtain ⟨extents, halone, rfl⟩ := (contentOf_stream hkind).1 hc
      apply Bounded.stream
      rw [stream_length hg hkind halone]
      exact hsize
  | storage hkind _ ih =>
      obtain ⟨cs, hcs, rfl⟩ := (contentOf_storage hkind).1 hc
      apply Bounded.storage
      intro c hmem
      obtain ⟨i, hi⟩ := List.getElem?_of_mem hmem
      obtain ⟨child, hchild, hof⟩ := forall₂_getElem? (contentsOf_eq_ok.1 hcs).flip hi
      exact ih child (List.mem_of_getElem? hchild) hof

/-- The package with its new signature is no deeper than the package was. -/
theorem bounded_rootContents (hparse : parse bytes = .ok m) {signature : Option (List UInt8)} {kept : List Content}
    (hkept : contentsOf m (keptChildren m) = .ok kept) (hblob : ∀ blob ∈ signature, blob.length < sizeLimit m.header) :
    Bounded (sizeLimit m.header) kCfbMaxStorageDepth (.storage (labelOf m.root) (rootContents signature kept)) := by
  have hg := (parse_accepted hparse).geometry
  have hshallow := parse_shallow hparse
  have hroot := (parse_root hparse).1
  have hlevels : kCfbMaxStorageDepth = 31 + 1 := rfl
  rw [hlevels] at hshallow ⊢
  cases hshallow with
  | stream hstream =>
      rw [hroot] at hstream
      cases hstream
  | storage _ hchildren =>
      have hall : ∀ c ∈ kept, Bounded (sizeLimit m.header) 31 c := by
        intro c hc
        obtain ⟨i, hi⟩ := List.getElem?_of_mem hc
        obtain ⟨child, hchild, hof⟩ := forall₂_getElem? (contentsOf_eq_ok.1 hkept).flip hi
        exact bounded_of_shallow hg (hchildren child (List.mem_of_mem_filter (List.mem_of_getElem? hchild))) hof
      apply Bounded.storage
      cases signature with
      | none => exact hall
      | some blob => exact List.forall_mem_cons.2 ⟨.stream (hblob blob rfl), hall⟩

/-- The streams among the entries are whole and below the size. -/
theorem entries_bounded (h : Laid entries position first last c) (hbounded : Bounded limit levels c) {p : Nat}
    (hp : Within position first last p) {entry : Entry} (hentry : entries[p]? = some entry)
    (hs : entry.node.isStorage = false) : entry.size = entry.pieces.flatten.length ∧ entry.size < limit := by
  induction h generalizing levels with
  | @stream position first stored hstored hkind hsize =>
      cases hbounded with
      | stream hlt =>
          obtain rfl : p = position := by
            rw [Within] at hp
            omega
          rw [hstored, Option.some.injEq] at hentry
          subst hentry
          exact ⟨hsize, hsize ▸ hlt⟩
  | @storage position first last stored cs hstored hkind _ part hpart hend _ ih =>
      cases hbounded with
      | storage hall =>
          rcases within_row hpart hend hp with rfl | ⟨i, c, hi, hin⟩
          · rw [hstored, Option.some.injEq] at hentry
            subst hentry
            rw [hkind] at hs
            cases hs
          · exact ih i c hi (hall c (List.mem_of_getElem? hi)) hin

/-! The writer returns -/

/-- The numbers of a package have room in the fields that hold them. -/
structure Fitting (header : CfbHeader) (entries : List Entry) (layout : Layout) : Prop where
  entries : entries.length ≤ kCfbNoStream
  minis : layout.miniSectors ≤ kCfbEndOfChain
  container : layout.miniSectors * kMiniSectorSize < sizeLimit header

theorem arranged_of_layout (hparse : parse bytes = .ok m) (hlayout : computeLayout m.header entries = .ok (layout, placed)) :
    Arranged m entries placed layout := by
  have haccepted := parse_accepted hparse
  have hminor := (MsiHistory.readHeader_bounds (MsiHistory.parse_read hparse)).1
  exact ⟨hlayout, ⟨haccepted.version, haccepted.cutoff⟩, hminor, haccepted.mini⟩

theorem written_of_flatten (hparse : parse bytes = .ok m) {signature : Option (List UInt8)}
    (hblob : ∀ blob ∈ signature, blob.length < sizeLimit m.header) (hflatten : flatten m signature = .ok entries)
    (hlayout : computeLayout m.header entries = .ok (layout, placed)) (hfitting : Fitting m.header entries layout) :
    ∃ kept, contentsOf m (keptChildren m) = .ok kept ∧ Written m entries placed layout ∧
      Laid entries 0 1 entries.length (Content.storage (labelOf m.root) (rootContents signature kept)).sorted ∧
      Ascending (Content.storage (labelOf m.root) (rootContents signature kept)).sorted ∧
      Nested kCfbMaxStorageDepth (Content.storage (labelOf m.root) (rootContents signature kept)).sorted := by
  have haccepted := parse_accepted hparse
  obtain ⟨kept, hkept, hsep, hlaid⟩ := flatten_laid haccepted.geometry (parse_root hparse).1 hflatten
    (flatten_bound hparse hflatten)
  have hbounded := (bounded_rootContents hparse hkept hblob).sorted
  refine ⟨kept, hkept, ?_, hlaid, ascending_sorted hsep, hbounded.nested⟩
  have hstreams : ∀ entry ∈ entries, entry.node.isStorage = false →
      entry.size = entry.pieces.flatten.length ∧ entry.size < sizeLimit m.header := by
    intro entry hentry hs
    obtain ⟨p, hp⟩ := List.getElem?_of_mem hentry
    have hlt := (List.getElem?_eq_some_iff.1 hp).1
    exact entries_bounded hlaid hbounded (by rw [Within]; omega) hp hs
  have hfresh := CfbCanonical.flatten_unplaced hflatten
  refine ⟨arranged_of_layout hparse hlayout, ?_, ?_, hfitting.minis, hfitting.container, ?_⟩
  · intro entry hentry
    obtain ⟨⟨hmini, hstart⟩, hleft, hright, hchild⟩ := hfresh entry hentry
    exact ⟨hmini, hstart, hleft, hright, hchild⟩
  · intro entry hentry hs
    exact (hstreams entry hentry hs).1
  · intro entry hentry hs
    exact (hstreams entry hentry hs).2

/-- What is read from the output of some entries. -/
structure ReadOf (m : PackageModel) (placed : List Entry) (layout : Layout) (check : PackageModel) : Prop where
  parsed : parse (serialise m placed layout) = .ok check
  opened : Opened m placed layout check
  shown : Shows (directoryOf m placed layout) placed
  links : CfbTree.Links (directoryOf m placed layout)
  copied : Copied (directoryOf m placed layout) placed 0 check.root

section written

variable {check : PackageModel} {label : Label} (h : Written m entries placed layout)
  (hlaid : Laid entries 0 1 entries.length (.storage label cs)) (hfew : entries.length ≤ kCfbNoStream)

include h hlaid hfew

theorem read_output (hnested : Nested kCfbMaxStorageDepth (.storage label cs)) : ∃ check, ReadOf m placed layout check := by
  obtain ⟨root, hparse, hcopied⟩ := parse_output h hlaid hfew hnested
  have hentries : entries ≠ [] := by
    obtain ⟨stored, hstored, -⟩ := laid_storage hlaid
    rintro rfl
    cases hstored
  have hdirectory : parseDirectory (checked m placed layout root) = .ok (directoryOf m placed layout) := by
    have hout := parseDirectory_out h.toArranged hentries
    exact hout
  obtain ⟨hlinks, -⟩ := parse_directory hparse hdirectory
  exact ⟨checked m placed layout root, hparse, checked_opened root, directory_shows h hlaid hfew, hlinks, hcopied⟩

/-- All streams of the output can be read one after the other. -/
theorem joint_of_read (hread : ReadOf m placed layout check) : Joint check (streamNodes check.root) := by
  have hplaced := placed_laid h hlaid
  obtain ⟨first, hfirst, hkind⟩ := laid_storage hplaced
  obtain ⟨ps, hps, -⟩ := positions_of_copied hplaced hread.copied
  apply joint_output h hread.opened hfew hps (List.getElem?_eq_some_iff.1 hfirst).1
  intro q hq
  obtain ⟨i, hi⟩ := List.getElem?_of_mem hq
  obtain ⟨s, -, stored, hstored, hof⟩ := forall₂_getElem? hps.reads hi
  have hne : q ≠ 0 := by
    rintro rfl
    rw [hfirst, Option.some.injEq] at hstored
    subst hstored
    rw [hof.isStream] at hkind
    cases hkind
  exact ⟨Nat.pos_of_ne_zero hne, (List.getElem?_eq_some_iff.1 hstored).1⟩

/-- The output passes the comparison that follows it. -/
theorem compare_output (hread : ReadOf m placed layout check) (hascending : Ascending (.storage label cs)) :
    ∃ u, compareEntry placed check check.root 0 {} = .ok u := by
  have hjoint := joint_of_read h hlaid hfew hread
  apply passes_copied h hread.opened hread.shown hread.links check.root (placed_laid h hlaid) Nat.one_pos (Nat.le_refl _)
    hascending hread.copied (After.initial _)
  rw [List.append_nil]
  exact hjoint

end written

/-- The names in a storage ascend, and a search finds every one of them. -/
structure Ordered (storage : CfbNode) : Prop where
  ascending : storage.children.Pairwise fun a b => compareNames a.name b.name = .lt
  found : ∀ i child, storage.children[i]? = some child → findBySearch storage child.name = some i

/-- A storage that was read, with the contents that were meant for it. -/
def StorageOf (directory : List DirEntry) (placed : List Entry) (storage : CfbNode) : Prop := ∃ p first last label cs,
  Laid placed p first last (.storage label cs) ∧ 0 < first ∧ last ≤ placed.length ∧ Ascending (.storage label cs) ∧
    Copied directory placed p storage

theorem storageOf_copied (hlaid : Laid placed position first last c) (hfirst : 0 < first) (hlast : last ≤ placed.length)
    (hascending : Ascending c) (hcopied : Copied directory placed position node) (hkind : node.isStorage = true) :
    StorageOf directory placed node := by
  cases hlaid with
  | stream hentry hstream =>
      cases hcopied with
      | stream _ _ hnode =>
          rw [hkind] at hnode
          cases hnode
      | storage hother hstorage =>
          rw [hentry, Option.some.injEq] at hother
          subst hother
          rw [hstream] at hstorage
          cases hstorage
  | storage hentry hstorage hchildren part hpart hend hc =>
      exact ⟨_, _, _, _, _, .storage hentry hstorage hchildren part hpart hend hc, hfirst, hlast, hascending, hcopied⟩

theorem StorageOf.child {storage : CfbNode} (h : StorageOf directory placed storage) (hnode : node ∈ storage.children)
    (hkind : node.isStorage = true) : StorageOf directory placed node := by
  obtain ⟨p, first, last, label, cs, hlaid, hfirst, hlast, hascending, hcopied⟩ := h
  have hnames := congrArg List.length (names_copied hlaid hcopied)
  rw [List.length_map, List.length_map] at hnames
  obtain ⟨i, hi⟩ := List.getElem?_of_mem hnode
  have hlt := (List.getElem?_eq_some_iff.1 hi).1
  rw [hnames] at hlt
  cases hascending with
  | storage _ hall =>
      cases hlaid with
      | @storage _ _ _ entry _ hentry hstorage hchildren part hpart hend hc =>
          have hle : ∀ j d, cs[j]? = some d → part j ≤ part (j + 1) := fun j d hj => (hc j d hj).le
          have hinside := part_inside hpart hend hle hlt
          cases hcopied with
          | stream hother hstream =>
              rw [hentry, Option.some.injEq] at hother
              subst hother
              rw [hstorage] at hstream
              cases hstream
          | storage hother _ _ _ _ _ hcopied =>
              rw [hentry, Option.some.injEq] at hother
              subst hother
              apply storageOf_copied (hc i _ (List.getElem?_eq_getElem hlt)) (by omega) (by omega)
                (hall _ (List.getElem_mem hlt)) _ hkind
              apply hcopied i (first + i) node _ hi
              rw [hchildren, List.getElem?_range' hlt, Nat.one_mul]

theorem StorageOf.ordered {storage : CfbNode} (hs : Shows directory placed) (hl : CfbTree.Links directory)
    (h : StorageOf directory placed storage) : Ordered storage := by
  obtain ⟨p, first, last, label, cs, hlaid, hfirst, hlast, hascending, hcopied⟩ := h
  refine ⟨ascending_copied hlaid hascending hcopied, ?_⟩
  intro i child hi
  exact finds_copied hs hl hlaid hfirst hlast hascending hcopied hi

/-- What the writer gives when the numbers of the package have room. -/
structure RoundTrip (m : PackageModel) (signature : Option (List UInt8)) (kept : List Content) (out : List UInt8) : Prop where
  written : writeCfb m signature = .ok out
  read : ∃ check, parse out = .ok check ∧
    contentOf check check.root = .ok
      (Content.storage (labelOf m.root) (rootContents (signature.filter fun blob => blob ≠ []) kept)).sorted ∧
    ∀ storage, StorageIn check.root storage → Ordered storage

/-- A package whose names are separate and whose kept streams can be read together is flattened, and when the layout
admits its numbers it is written; what is written is read back as the package that was meant, each storage in the order
of names with a search tree that finds every entry. -/
theorem rebuild_then_parse (hparse : parse bytes = .ok m) (signature : Option (List UInt8))
    (hblob : ∀ blob ∈ signature, blob.length < sizeLimit m.header) {kept : List Content}
    (hkept : contentsOf m (keptChildren m) = .ok kept)
    (hsep : (Content.storage (labelOf m.root) (rootContents (signature.filter fun blob => blob ≠ []) kept)).Separate)
    (hjoint : Joint m ((keptChildren m).flatMap streamNodes)) :
    ∃ entries, flatten m (signature.filter fun blob => blob ≠ []) = .ok entries ∧
      ∀ layout placed, computeLayout m.header entries = .ok (layout, placed) → Fitting m.header entries layout →
        RoundTrip m signature kept (serialise m placed layout) := by
  have hg := (parse_accepted hparse).geometry
  obtain ⟨entries, hflatten⟩ := CfbStreams.flatten_ok hg hkept hsep hjoint
  refine ⟨entries, hflatten, ?_⟩
  intro layout placed hlayout hfitting
  have hkeptBlob : ∀ blob ∈ signature.filter fun blob => blob ≠ [], blob.length < sizeLimit m.header := by
    intro blob hb
    exact hblob blob (Option.mem_filter_iff.1 hb).1
  obtain ⟨kept', hkept', h, hlaid, hascending, hnested⟩ := written_of_flatten hparse hkeptBlob hflatten hlayout hfitting
  rw [hkept, Except.ok.injEq] at hkept'
  subst hkept'
  rw [Content.sorted] at hlaid hascending hnested
  obtain ⟨check, hread⟩ := read_output h hlaid hfitting.entries hnested
  obtain ⟨u, hcompare⟩ := compare_output h hlaid hfitting.entries hread hascending
  have hplaced := placed_laid h hlaid
  refine ⟨?_, check, hread.parsed, ?_, ?_⟩
  · apply CfbCanonical.writeCfb_eq_ok.2
    exact ⟨entries, (layout, placed), hflatten, hlayout, rfl, check, u, hread.parsed, hcompare⟩
  · have hcheckGeometry := geometry_of h hread.opened.toOutput
    rw [Content.sorted]
    exact (compareEntry_sound hcheckGeometry check.root hplaced (After.initial check) hcompare).1
  · intro storage hin
    have hof : StorageOf (directoryOf m placed layout) placed storage := by
      induction hin with
      | root =>
          exact storageOf_copied hplaced Nat.one_pos (Nat.le_refl _) hascending hread.copied (parse_root hread.parsed).1
      | child _ hnode hkind ih => exact ih.child hnode hkind
    exact hof.ordered hread.shown hread.links

theorem rebuild_then_parse_pair : ∃ m kept out, parse (CfbCanonical.pairPackage 1 2 kCfbNoStream) = .ok m ∧
    RoundTrip m (some [1, 2, 3]) kept out := by
  obtain ⟨⟨m, first, laid⟩, h⟩ := exists_of_isOk (x := do
    let m ← parse (CfbCanonical.pairPackage 1 2 kCfbNoStream)
    let entries ← flatten m (some [1, 2, 3])
    let laid ← computeLayout m.header entries
    rejectIf (kCfbNoStream < entries.length ∨ kCfbEndOfChain < laid.1.miniSectors ∨
      ¬laid.1.miniSectors * kMiniSectorSize < sizeLimit m.header ∨ ¬3 < sizeLimit m.header) "" ""
    return (m, entries, laid)) (by decide +kernel)
  simp only [bind_eq_ok, rejectIf_eq_ok, pure_eq_ok, Except.ok.injEq, Prod.mk.injEq, not_or, not_not] at h
  obtain ⟨m', hparse, first', hflatten, laid', hlayout, _, ⟨hfew, hminis, hcontainer, hthree⟩, rfl, rfl, rfl⟩ := h
  have hblob : ∀ blob ∈ (some [1, 2, 3] : Option (List UInt8)), blob.length < sizeLimit m'.header := by
    intro blob hb
    cases hb
    exact hthree
  obtain ⟨kept, hkept, hsep, -⟩ := flatten_laid (parse_accepted hparse).geometry (parse_root hparse).1 hflatten
    (flatten_bound hparse hflatten)
  obtain ⟨entries, hentries, hall⟩ := rebuild_then_parse hparse (some [1, 2, 3]) hblob hkept hsep
    (CfbStreams.flatten_joint (parse_accepted hparse).geometry hflatten)
  have hsame : first' = entries := Except.ok.inj (hflatten.symm.trans hentries)
  subst hsame
  exact ⟨m', kept, _, hparse, hall laid'.1 laid'.2 hlayout ⟨Nat.le_of_not_lt hfew, Nat.le_of_not_lt hminis, hcontainer⟩⟩

end TheSeed.CfbComplete
