import TheSeed.CfbSelfCheck

namespace TheSeed.CfbCanonical

open Bytes Checked BoundedBytes CfbReader CfbResolve MsiAuthenticode CfbWriter SortedBy CfbNames CfbContent Content
  MsiFingerprint CfbFlatten CfbTree CfbSelfCheck

/-! What the writer puts out is decided by what the package holds: nothing of where it was read from shows. -/

variable {m n check : PackageModel} {entries entries' : List Entry} {entry other : Entry} {layout : Layout} {c : Content}
  {position first last last' : Nat} {header : CfbHeader} {bytes : List UInt8}

/-- What the output shows of an entry: not where its stream was, nor in how many pieces. -/
def shown (entry : Entry) : Entry :=
  { entry with
    node := {
      name := entry.node.name
      isStorage := entry.node.isStorage
      classId := entry.node.classId
      stateBits := entry.node.stateBits
      creationTime := entry.node.creationTime
      modificationTime := entry.node.modificationTime }
    pieces := if entry.node.isStorage then [] else [entry.pieces.flatten]
    children := if entry.node.isStorage then entry.children else []
    size := if entry.node.isStorage then 0 else entry.size }

theorem shown_shown (entry : Entry) : shown (shown entry) = shown entry := by
  rw [shown, shown]
  cases entry.node.isStorage <;> simp

/-- Two entries that show the same agree in all that is written. -/
structure Alike (a b : Entry) : Prop where
  label : labelOf a.node = labelOf b.node
  kind : a.node.isStorage = b.node.isStorage
  children : a.node.isStorage = true → a.children = b.children
  size : a.node.isStorage = false → a.size = b.size
  bytes : a.node.isStorage = false → a.pieces.flatten = b.pieces.flatten
  place : a.inMiniStream = b.inMiniStream ∧ a.start = b.start
  links : a.left = b.left ∧ a.right = b.right ∧ a.child = b.child

theorem shown_eq_iff : shown entry = shown other ↔ Alike entry other := by
  constructor
  · intro h
    simp only [shown, Entry.mk.injEq, CfbNode.mk.injEq, and_true] at h
    obtain ⟨⟨hname, hkind, hclass, hbits, hcreated, hmodified⟩, hpieces, hchildren, hsize, hmini, hstart, hlinks⟩ := h
    rw [hkind] at hpieces hchildren hsize
    refine ⟨?_, hkind, ?_, ?_, ?_, ⟨hmini, hstart⟩, hlinks⟩
    · rw [labelOf, labelOf, hname, hclass, hbits, hcreated, hmodified]
    · intro hs
      rw [hkind] at hs
      rwa [hs, if_pos rfl, if_pos rfl] at hchildren
    · intro hs
      rw [hkind] at hs
      rwa [hs, if_neg (by decide), if_neg (by decide)] at hsize
    · intro hs
      rw [hkind] at hs
      rw [hs, if_neg (by decide), if_neg (by decide)] at hpieces
      injection hpieces
  · rintro ⟨hlabel, hkind, hchildren, hsize, hbytes, ⟨hmini, hstart⟩, hleft, hright, hchild⟩
    simp only [labelOf, Label.mk.injEq] at hlabel
    obtain ⟨hname, hclass, hbits, hcreated, hmodified⟩ := hlabel
    rw [shown, shown, hname, hclass, hbits, hcreated, hmodified, hmini, hstart, hleft, hright, hchild]
    cases hs : entry.node.isStorage with
    | true =>
        rw [← hkind, hs, hchildren hs]
        rfl
    | false =>
        rw [← hkind, hs, hsize hs, hbytes hs]
        rfl

theorem alike_shown (entry : Entry) : Alike (shown entry) entry := shown_eq_iff.1 (shown_shown entry)

/-! Layout -/

theorem placeEntries_shown {chosen : Entry → Bool} {place : Nat → Entry → Entry} {unit next : Nat}
    (hchosen : ∀ entry, chosen (shown entry) = chosen entry)
    (hstream : ∀ entry, chosen entry = true → entry.node.isStorage = false)
    (hplace : ∀ n entry, place n (shown entry) = shown (place n entry)) :
    placeEntries chosen place unit next (entries.map shown) =
      ((placeEntries chosen place unit next entries).1.map shown, (placeEntries chosen place unit next entries).2) := by
  induction entries generalizing next with
  | nil => rfl
  | cons entry entries ih =>
      rw [List.map_cons, placeEntries, placeEntries, hchosen]
      by_cases h : chosen entry = true
      · have hsize : (shown entry).size = entry.size := (alike_shown entry).size (hstream entry h)
        simp only [if_pos h, hsize, ih, hplace, List.map_cons]
      · simp only [if_neg h, ih, List.map_cons]

theorem isOrdinary_shown (header : CfbHeader) (entry : Entry) :
    Entry.isOrdinary header (shown entry) = Entry.isOrdinary header entry := by
  rw [Entry.isOrdinary, Entry.isOrdinary, shown]
  cases entry.node.isStorage <;> simp

theorem isMini_shown (header : CfbHeader) (entry : Entry) :
    Entry.isMini header (shown entry) = Entry.isMini header entry := by
  rw [Entry.isMini, Entry.isMini, shown]
  cases entry.node.isStorage <;> simp

theorem placeOrdinary_shown : placeOrdinary header (entries.map shown) =
    ((placeOrdinary header entries).1.map shown, (placeOrdinary header entries).2) := by
  refine placeEntries_shown (isOrdinary_shown header) ?_ fun _ _ => rfl
  intro entry h
  cases hs : entry.node.isStorage with
  | true => simp [Entry.isOrdinary, hs] at h
  | false => rfl

theorem placeMini_shown : placeMini header (entries.map shown) =
    ((placeMini header entries).1.map shown, (placeMini header entries).2) := by
  refine placeEntries_shown (isMini_shown header) ?_ fun _ _ => rfl
  intro entry h
  cases hs : entry.node.isStorage with
  | true => simp [Entry.isMini, hs] at h
  | false => rfl

theorem computeLayout_shown (header : CfbHeader) (entries : List Entry) : computeLayout header (entries.map shown) =
    (computeLayout header entries).map fun laid => (laid.1, laid.2.map shown) := by
  simp only [computeLayout, placeOrdinary_shown, placeMini_shown, List.length_map]
  by_cases h : kCfbMaxSectors < (layOut header (placeOrdinary header entries).2
      (placeMini header (placeOrdinary header entries).1).2 entries.length).totalSectors
  · simp only [rejectIf, if_pos h]
    rfl
  · simp only [rejectIf, if_neg h]
    rfl

/-! The links between entries -/

theorem map_modify_shown {f : Entry → Entry} (h : ∀ entry, f (shown entry) = shown (f entry)) (i : Nat) :
    (entries.map shown).modify i f = (entries.modify i f).map shown := by
  apply List.ext_getElem?
  intro k
  rw [List.getElem?_modify, List.getElem?_map, List.getElem?_map, List.getElem?_modify]
  simp only [Option.map_eq_map, Option.map_map]
  congr 1
  funext entry
  rw [Function.comp_apply, Function.comp_apply]
  by_cases hk : i = k
  · rw [if_pos hk, if_pos hk, h]
  · rw [if_neg hk, if_neg hk]

theorem buildTree_shown {sequence : List Nat} {bound low high : Nat} :
    CfbWriter.buildTree sequence bound low high (entries.map shown) =
      ((CfbWriter.buildTree sequence bound low high entries).1,
        (CfbWriter.buildTree sequence bound low high entries).2.map shown) := by
  induction bound generalizing low high entries with
  | zero => rfl
  | succ bound ih =>
      rw [CfbWriter.buildTree, CfbWriter.buildTree]
      by_cases h : high ≤ low
      · rw [if_pos h, if_pos h]
      · simp only [if_neg h, ih]
        refine congrArg _ (map_modify_shown ?_ _)
        intro entry
        rfl

theorem linkTrees_shown (positions : List Nat) :
    linkTrees positions (entries.map shown) = (linkTrees positions entries).map shown := by
  induction positions generalizing entries with
  | nil => rfl
  | cons i positions ih =>
      rw [linkTrees, linkTrees, List.getElem?_map]
      cases entries[i]? with
      | none => exact ih
      | some entry =>
          have hkind : (shown entry).node.isStorage = entry.node.isStorage := (alike_shown entry).kind
          simp only [Option.map_some, hkind]
          by_cases hs : entry.node.isStorage = true
          · have hchildren : (shown entry).children = entry.children := (alike_shown entry).children (hkind.trans hs)
            simp only [if_pos hs, hchildren, buildTree_shown]
            rw [← ih]
            congr 1
            refine map_modify_shown ?_ i
            intro entry
            rfl
          · simp only [if_neg hs, ih]

/-! Serialisation -/

theorem allocationIndex_shown : allocationIndex (entries.map shown) layout = allocationIndex entries layout := by
  rw [allocationIndex, allocationIndex, List.foldl_map]
  congr
  funext fat entry
  rw [shown]
  cases entry.node.isStorage <;> rfl

theorem miniIndex_shown : miniIndex (entries.map shown) = miniIndex entries := by
  rw [miniIndex, miniIndex, List.foldl_map]
  congr
  funext index entry
  rw [shown]
  cases entry.node.isStorage <;> rfl

theorem writeStreams_shown {out : List UInt8} :
    writeStreams layout (entries.map shown) out = writeStreams layout entries out := by
  rw [writeStreams, writeStreams, List.foldl_map]
  congr
  funext out entry
  rw [shown]
  cases entry.node.isStorage <;> simp

theorem writeDirectoryEntry_shown (entry : Entry) (isRoot : Bool) (layout : Layout) :
    writeDirectoryEntry (shown entry) isRoot layout = writeDirectoryEntry entry isRoot layout := by
  rw [writeDirectoryEntry, writeDirectoryEntry, shown]
  cases isRoot with
  | true => simp only [if_true]
  | false => cases entry.node.isStorage <;> simp only [Bool.false_eq_true, if_false, if_true]

theorem directoryBytes_shown : directoryBytes (entries.map shown) layout = directoryBytes entries layout := by
  rw [directoryBytes, directoryBytes]
  congr
  funext i
  rw [List.getElem?_map]
  cases entries[i]? with
  | none => rfl
  | some entry => exact writeDirectoryEntry_shown entry _ layout

theorem serialise_shown (m : PackageModel) (entries : List Entry) (layout : Layout) :
    serialise m (entries.map shown) layout = serialise m entries layout := by
  rw [serialise, serialise, List.length_map]
  simp only [linkTrees_shown, writeStreams_shown, miniIndex_shown, directoryBytes_shown, allocationIndex_shown]

/-- What the header of the output takes from the package it was read from. -/
structure SameHeader (m n : PackageModel) : Prop where
  header : m.header = n.header
  early : slice m.source.bytes 8 16 = slice n.source.bytes 8 16
  late : slice m.source.bytes 52 4 = slice n.source.bytes 52 4

theorem headerBytes_congr (h : SameHeader m n) : headerBytes m layout = headerBytes n layout := by
  rw [headerBytes, headerBytes, h.header, h.early, h.late]

theorem serialise_congr (h : SameHeader m n) (hentries : entries.map shown = entries'.map shown) :
    serialise m entries layout = serialise n entries' layout := by
  rw [← serialise_shown m, ← serialise_shown n, hentries, serialise, serialise, headerBytes_congr h]

/-- The same entries, but for what does not show, are laid out and written the same way. -/
theorem layout_congr (h : SameHeader m n) (hentries : entries.map shown = entries'.map shown)
    {laid : Layout × List Entry} (hlaid : computeLayout n.header entries' = .ok laid) :
    ∃ others, computeLayout m.header entries = .ok (laid.1, others) ∧ others.map shown = laid.2.map shown ∧
      serialise m others laid.1 = serialise n laid.2 laid.1 := by
  have hshown : computeLayout m.header (entries.map shown) = .ok (laid.1, laid.2.map shown) := by
    rw [hentries, computeLayout_shown, h.header, hlaid]
    rfl
  rw [computeLayout_shown] at hshown
  obtain ⟨⟨layout, others⟩, hothers, heq⟩ := except_map_eq_ok.1 hshown
  injection heq with hlayout hmap
  subst hlayout
  exact ⟨others, hothers, hmap, serialise_congr h hmap⟩

/-! The entries themselves -/

/-- An entry that has no place in the output yet. -/
structure Unplaced (entry : Entry) : Prop where
  place : entry.inMiniStream = false ∧ entry.start = kCfbEndOfChain
  links : entry.left = kCfbNoStream ∧ entry.right = kCfbNoStream ∧ entry.child = kCfbNoStream

theorem part_cover (part : Nat → Nat) {n i : Nat} (hlow : part 0 ≤ i) (hhigh : i < part n) :
    ∃ j < n, part j ≤ i ∧ i < part (j + 1) := by
  induction n with
  | zero => omega
  | succ n ih =>
      by_cases hi : i < part n
      · obtain ⟨j, hj, hin⟩ := ih hi
        exact ⟨j, by omega, hin⟩
      · exact ⟨n, by omega, by omega, hhigh⟩

/-- A content lies in one way only: the positions are the same, and what stands there shows the same. -/
theorem Laid.unique (hu : ∀ entry ∈ entries, Unplaced entry) (hu' : ∀ entry ∈ entries', Unplaced entry)
    (h : Laid entries position first last c) (h' : Laid entries' position first last' c) : last = last' ∧
      ∀ i, i = position ∨ first ≤ i ∧ i < last → entries[i]?.map shown = entries'[i]?.map shown := by
  induction c using Content.induction generalizing position first last last' with
  | hstream label bytes =>
      cases h with
      | @stream _ _ a ha hs hsize =>
          generalize hc : Content.stream (labelOf a.node) a.pieces.flatten = c at h'
          cases h' with
          | @storage => cases hc
          | @stream _ _ b hb hs' hsize' =>
              injection hc with hlabel hbytes
              refine ⟨rfl, ?_⟩
              rintro i (rfl | ⟨hlow, hhigh⟩)
              · have ua := hu a (List.mem_of_getElem? ha)
                have ub := hu' b (List.mem_of_getElem? hb)
                rw [ha, hb, Option.map_some, Option.map_some, shown_eq_iff.2]
                refine ⟨hlabel, hs.trans hs'.symm, ?_, ?_, fun _ => hbytes, ⟨ua.place.1.trans ub.place.1.symm,
                  ua.place.2.trans ub.place.2.symm⟩, ua.links.1.trans ub.links.1.symm, ua.links.2.1.trans ub.links.2.1.symm,
                  ua.links.2.2.trans ub.links.2.2.symm⟩
                · intro hstorage
                  rw [hs] at hstorage
                  cases hstorage
                · intro _
                  rw [hsize, hsize', hbytes]
              · omega
  | hstorage label cs ih =>
      cases h with
      | @storage _ _ _ a _ ha hs hchildren part hfirst hlast hc =>
          generalize hcontent : Content.storage (labelOf a.node) cs = c at h'
          cases h' with
          | @stream => cases hcontent
          | @storage _ _ _ b ds hb hs' hchildren' part' hfirst' hlast' hc' =>
              injection hcontent with hlabel hcs
              subst hcs
              have hparts : ∀ j, j ≤ cs.length → part j = part' j := by
                intro j
                induction j with
                | zero =>
                    intro _
                    rw [hfirst, hfirst']
                | succ j ihj =>
                    intro hj
                    have hget : cs[j]? = some cs[j] := List.getElem?_eq_getElem (by omega)
                    have hone := hc j _ hget
                    have htwo := hc' j _ hget
                    rw [← ihj (by omega)] at htwo
                    exact (ih _ (List.getElem_mem _) hone htwo).1
              refine ⟨by rw [← hlast, ← hlast', hparts _ (Nat.le_refl _)], ?_⟩
              have hchild : ∀ j < cs.length, ∀ i, i = first + j ∨ part j ≤ i ∧ i < part (j + 1) →
                  entries[i]?.map shown = entries'[i]?.map shown := by
                intro j hj
                have hget : cs[j]? = some cs[j] := List.getElem?_eq_getElem hj
                have hone := hc j _ hget
                have htwo := hc' j _ hget
                rw [← hparts j (by omega)] at htwo
                exact (ih _ (List.getElem_mem _) hone htwo).2
              rintro i (rfl | ⟨hlow, hhigh⟩)
              · have ua := hu a (List.mem_of_getElem? ha)
                have ub := hu' b (List.mem_of_getElem? hb)
                rw [ha, hb, Option.map_some, Option.map_some, shown_eq_iff.2]
                refine ⟨hlabel, hs.trans hs'.symm, ?_, ?_, ?_, ⟨ua.place.1.trans ub.place.1.symm,
                  ua.place.2.trans ub.place.2.symm⟩, ua.links.1.trans ub.links.1.symm, ua.links.2.1.trans ub.links.2.1.symm,
                  ua.links.2.2.trans ub.links.2.2.symm⟩
                · intro _
                  rw [hchildren, hchildren']
                all_goals
                  intro hstream
                  rw [hs] at hstream
                  cases hstream
              · by_cases hrow : i < first + cs.length
                · obtain ⟨j, rfl⟩ : ∃ j, i = first + j := ⟨i - first, by omega⟩
                  exact hchild j (by omega) _ (.inl rfl)
                · obtain ⟨j, hj, hin⟩ := part_cover part (show part 0 ≤ i by omega) (show i < part cs.length by omega)
                  exact hchild j hj i (.inr hin)

/-- An expansion puts entries behind the others, and places none. -/
def KeepsUnplaced (inner : Expansion) : Prop :=
  ∀ ⦃position s s'⦄, inner position s = .ok s' → (∀ entry ∈ s.1, Unplaced entry) → ∀ entry ∈ s'.1, Unplaced entry

theorem makeEntry_unplaced {item : Item} {u u' : Usage} (h : makeEntry m item u = .ok (entry, u')) : Unplaced entry := by
  rw [makeEntry] at h
  split at h
  · cases h
    exact ⟨⟨rfl, rfl⟩, rfl, rfl, rfl⟩
  · split at h
    · cases h
      exact ⟨⟨rfl, rfl⟩, rfl, rfl, rfl⟩
    · obtain ⟨resolved, -, h⟩ := bind_eq_ok.1 h
      cases h
      exact ⟨⟨rfl, rfl⟩, rfl, rfl, rfl⟩

theorem pushEntries_unplaced {sequence : List Item} {s s' : Flattened} (h : pushEntries m sequence s = .ok s')
    (hs : ∀ entry ∈ s.1, Unplaced entry) : ∀ entry ∈ s'.1, Unplaced entry := by
  induction sequence generalizing s with
  | nil =>
      cases h
      exact hs
  | cons item sequence ih =>
      obtain ⟨⟨entry, u⟩, hmade, h⟩ := bind_eq_ok.1 h
      apply ih h
      intro other hother
      rcases List.mem_append.1 hother with hother | hother
      · exact hs other hother
      · rw [List.mem_singleton.1 hother]
        exact makeEntry_unplaced hmade

theorem expandItems_unplaced {row : List (Nat × Item)} {s s' : Flattened}
    (hinner : ∀ placed ∈ row, KeepsUnplaced placed.2.inner) (h : expandItems row s = .ok s')
    (hs : ∀ entry ∈ s.1, Unplaced entry) : ∀ entry ∈ s'.1, Unplaced entry := by
  induction row generalizing s with
  | nil =>
      cases h
      exact hs
  | cons placed row ih =>
      have hrest := fun other hother => hinner other (List.mem_cons_of_mem _ hother)
      obtain ⟨position, item⟩ := placed
      rw [expandItems] at h
      split at h
      · obtain ⟨mid, hmid, h⟩ := bind_eq_ok.1 h
        exact ih hrest h (hinner _ List.mem_cons_self hmid hs)
      · exact ih hrest h hs

theorem expandSequence_unplaced {sequence : List Item} (hinner : ∀ item ∈ sequence, KeepsUnplaced item.inner) :
    KeepsUnplaced fun parent => expandSequence m parent sequence := by
  intro parent s s' h hs
  obtain ⟨-, pushed, u, hpush, hexpand⟩ := expandSequence_eq_ok.1 h
  refine expandItems_unplaced ?_ hexpand ?_
  · intro placed hplaced
    exact hinner _ ((inOrder_perm sequence).mem_iff.1 (List.of_mem_zip hplaced).2)
  · intro entry hentry
    obtain ⟨i, hi⟩ := List.getElem?_of_mem hentry
    rw [List.getElem?_modify] at hi
    obtain ⟨old, hold, rfl⟩ := Option.map_eq_some_iff.1 hi
    have h := pushEntries_unplaced hpush hs old (List.mem_of_getElem? hold)
    split
    · exact ⟨h.place, h.links⟩
    · exact h

theorem expand_unplaced (m : PackageModel) (node : CfbNode) : KeepsUnplaced (expand m node) := by
  induction node using nodeInduction with
  | h node ih =>
      intro parent s s' h
      rw [expand_eq] at h
      refine expandSequence_unplaced ?_ h
      intro item hitem
      rw [items_eq] at hitem
      obtain ⟨child, hchild, rfl⟩ := List.mem_map.1 hitem
      exact ih child hchild

theorem flatten_unplaced {signature : Option (List UInt8)} (h : flatten m signature = .ok entries) :
    ∀ entry ∈ entries, Unplaced entry := by
  obtain ⟨s, hs, heq⟩ := bind_eq_ok.1 h
  cases heq
  refine expandSequence_unplaced (fun item hitem => ?_) hs ?_
  · have hmem := (rootSequence_perm m signature).mem_iff.1 hitem
    have hkept : ∀ item ∈ keptItems m, KeepsUnplaced item.inner := by
      intro item hitem
      obtain ⟨child, -, rfl⟩ := List.mem_map.1 hitem
      exact expand_unplaced m child
    cases signature with
    | none => exact hkept item hmem
    | some blob =>
        rcases List.mem_cons.1 hmem with rfl | hmem
        · intro position s s' h hs
          cases h
          exact hs
        · exact hkept item hmem
  · intro entry hentry
    rw [List.mem_singleton.1 hentry]
    exact ⟨⟨rfl, rfl⟩, rfl, rfl, rfl⟩

/-- Packages that are to hold the same give the same entries, but for what does not show. -/
theorem flatten_shown {signature : Option (List UInt8)} {bytes' : List UInt8} (hm : parse bytes = .ok m)
    (hn : parse bytes' = .ok n) {signature' : Option (List UInt8)} {kept kept' : List Content}
    (hkept : contentsOf m (keptChildren m) = .ok kept) (hkept' : contentsOf n (keptChildren n) = .ok kept')
    (hsame : (Content.storage (labelOf m.root) (rootContents signature kept)).sorted =
      (Content.storage (labelOf n.root) (rootContents signature' kept')).sorted)
    (h : flatten m signature = .ok entries) (h' : flatten n signature' = .ok entries') :
    entries.map shown = entries'.map shown := by
  obtain ⟨cs, hcs, -, hlaid⟩ := flatten_laid (parse_accepted hm).geometry (parse_root hm).1 h (flatten_bound hm h)
  obtain ⟨ds, hds, -, hlaid'⟩ := flatten_laid (parse_accepted hn).geometry (parse_root hn).1 h' (flatten_bound hn h')
  obtain rfl : kept = cs := Except.ok.inj (hkept.symm.trans hcs)
  obtain rfl : kept' = ds := Except.ok.inj (hkept'.symm.trans hds)
  rw [← hsame] at hlaid'
  obtain ⟨hlength, hget⟩ := Laid.unique (flatten_unplaced h) (flatten_unplaced h') hlaid hlaid'
  apply List.ext_getElem?
  intro i
  rw [List.getElem?_map, List.getElem?_map]
  by_cases hi : i < entries.length
  · exact hget i (by omega)
  · rw [List.getElem?_eq_none (by omega), List.getElem?_eq_none (by omega)]

/-! The comparison -/

theorem entryAt_alike (entries : List Entry) (position : Nat) :
    Alike (entryAt (entries.map shown) position) (entryAt entries position) := by
  rw [entryAt, entryAt, List.getD_eq_getElem?_getD, List.getD_eq_getElem?_getD, List.getElem?_map]
  cases entries[position]? with
  | none => exact shown_eq_iff.1 rfl
  | some entry => exact alike_shown entry

theorem compareStream_alike {got : CfbNode} {u : Usage} (h : Alike entry other) (hs : entry.node.isStorage = false) :
    compareStream check entry got u = compareStream check other got u := by
  have hname : entry.node.name = other.node.name := congrArg Label.name h.label
  have hbytes (pieces : List Piece) : sameBytes entry.pieces pieces = sameBytes other.pieces pieces := by
    rw [Bool.eq_iff_iff, sameBytes_iff, sameBytes_iff, h.bytes hs]
  rw [compareStream, compareStream, h.size hs, hname]
  simp only [hbytes]

theorem compareChildren_shown {got : CfbNode} {i : Nat} {row : List (Nat × ComparedChild)} {u : Usage} :
    compareChildren (entries.map shown) got i row u = compareChildren entries got i row u := by
  induction row generalizing i u with
  | nil => rfl
  | cons placed row ih =>
      obtain ⟨position, child⟩ := placed
      have hname : (entryAt (entries.map shown) position).node.name = (entryAt entries position).node.name :=
        congrArg Label.name (entryAt_alike entries position).label
      rw [compareChildren, compareChildren]
      simp only [hname, ih]

theorem compareWith_shown {got : CfbNode} {children : List ComparedChild} {u : Usage} :
    compareWith (entries.map shown) check got children position u = compareWith entries check got children position u := by
  have h := entryAt_alike entries position
  have hlabel := h.label
  simp only [labelOf, Label.mk.injEq] at hlabel
  obtain ⟨hname, hclass, hbits, hcreated, hmodified⟩ := hlabel
  rw [compareWith, compareWith]
  simp only [hname, h.kind, hclass, hbits, hcreated, hmodified, compareChildren_shown]
  cases hs : (entryAt entries position).node.isStorage with
  | true =>
      have hchildren := h.children (h.kind.trans hs)
      simp only [hchildren, if_true]
  | false =>
      have hstream : ∀ u, compareStream check (entryAt (entries.map shown) position) got u =
          compareStream check (entryAt entries position) got u := fun u => compareStream_alike h (h.kind.trans hs)
      simp only [hstream, Bool.false_eq_true, if_false]

/-- The self-check does not depend on what does not show. -/
theorem compareEntry_shown (check : PackageModel) (got : CfbNode) :
    compareEntry (entries.map shown) check got = compareEntry entries check got := by
  induction got using nodeInduction with
  | h got ih =>
      rw [compareEntry_eq, compareEntry_eq]
      have hchildren : got.children.map (compared (entries.map shown) check) =
          got.children.map (compared entries check) := by
        apply List.map_congr_left
        intro child hchild
        rw [compared, compared, ih child hchild]
      rw [hchildren]
      funext position u
      exact compareWith_shown

/-! One tree with its siblings in another order -/

/-- The entries of some storages of a tree put into another order. -/
inductive Reordered : Content → Content → Prop
  | refl (c : Content) : Reordered c c
  | trans {c d e : Content} (h : Reordered c d) (h' : Reordered d e) : Reordered c e
  | siblings {label : Label} {children others : List Content} (h : children.Perm others) :
      Reordered (.storage label children) (.storage label others)
  | inside {label : Label} {before after : List Content} {c d : Content} (h : Reordered c d) :
      Reordered (.storage label (before ++ c :: after)) (.storage label (before ++ d :: after))

theorem Reordered.label {c d : Content} (h : Reordered c d) : c.label = d.label := by
  induction h with
  | refl c => rfl
  | trans _ _ ih ih' => exact ih.trans ih'
  | siblings _ => rfl
  | inside _ _ => rfl

theorem Reordered.name {c d : Content} (h : Reordered c d) : c.name = d.name := by
  rw [Content.name, Content.name, h.label]

theorem distinct_replace {before after : List Content} {c d : Content} (hname : c.name = d.name)
    (h : Distinct (fun c => nameKey c.name) (before ++ c :: after)) :
    Distinct (fun c => nameKey c.name) (before ++ d :: after) := by
  have hmap : (before ++ c :: after).map Content.name = (before ++ d :: after).map Content.name := by
    rw [List.map_append, List.map_cons, hname, List.map_append, List.map_cons]
  have hnames : Distinct nameKey ((before ++ c :: after).map Content.name) := distinct_map.2 h
  rw [hmap] at hnames
  exact distinct_map.1 hnames

/-- Where no two siblings are one to the order, the sorted trees are one tree. -/
theorem Reordered.sorted {c d : Content} (h : Reordered c d) (hsep : Separate c) : Separate d ∧ c.sorted = d.sorted := by
  induction h with
  | refl c => exact ⟨hsep, rfl⟩
  | trans _ _ ih ih' =>
      obtain ⟨hd, heq⟩ := ih hsep
      obtain ⟨he, heq'⟩ := ih' hd
      exact ⟨he, heq.trans heq'⟩
  | siblings hp => exact ⟨hsep.perm hp, sorted_eq_of_perm hsep.distinct hp⟩
  | @inside label before after c d h ih =>
      obtain ⟨hd, heq⟩ := ih (hsep.child (List.mem_append_right _ List.mem_cons_self))
      refine ⟨.storage _ _ (distinct_replace h.name hsep.distinct) ?_, ?_⟩
      · intro e he
        rcases List.mem_append.1 he with he | he
        · exact hsep.child (List.mem_append_left _ he)
        · rcases List.mem_cons.1 he with rfl | he
          · exact hd
          · exact hsep.child (List.mem_append_right _ (List.mem_cons_of_mem _ he))
      · rw [Content.sorted, Content.sorted, List.map_append, List.map_cons, heq, List.map_append, List.map_cons]

/-- One more entry does not matter. -/
theorem Reordered.add {c d : Content} (h : Reordered c d) (more : Content) {label : Label} {children : List Content}
    (hc : c = .storage label children) : ∃ label' others, d = .storage label' others ∧
      Reordered (.storage label (more :: children)) (.storage label' (more :: others)) := by
  induction h generalizing label children with
  | refl c => exact ⟨label, children, hc, .refl _⟩
  | trans _ _ ih ih' =>
      obtain ⟨label', others, hd, h⟩ := ih hc
      obtain ⟨label'', rest, he, h'⟩ := ih' hd
      exact ⟨label'', rest, he, h.trans h'⟩
  | siblings hp =>
      cases hc
      exact ⟨_, _, rfl, .siblings (hp.cons _)⟩
  | inside h _ =>
      cases hc
      exact ⟨_, _, rfl, @Reordered.inside _ (more :: _) _ _ _ h⟩

theorem Reordered.root {label label' : Label} {kept kept' : List Content}
    (h : Reordered (.storage label kept) (.storage label' kept')) (signature : Option (List UInt8)) :
    Reordered (.storage label (rootContents signature kept)) (.storage label' (rootContents signature kept')) := by
  cases signature with
  | none => exact h
  | some blob =>
      obtain ⟨_, _, hd, h⟩ := h.add (.stream (labelOf (signatureItem blob).node) blob) rfl
      cases hd
      exact h

/-- A header that was accepted is decided by the two versions. -/
theorem sameHeader_of_accepted {bytes' : List UInt8} (hm : Accepted bytes m) (hn : Accepted bytes' n)
    (hmajor : m.header.majorVersion = n.header.majorVersion) (hminor : m.header.minorVersion = n.header.minorVersion)
    (hearly : slice bytes 8 16 = slice bytes' 8 16) (hlate : slice bytes 52 4 = slice bytes' 52 4) : SameHeader m n := by
  refine ⟨?_, by rw [hm.source, hn.source, hearly], by rw [hm.source, hn.source, hlate]⟩
  have hsector : m.header.sectorSize = n.header.sectorSize := by
    rcases hm.version with ⟨h, hs⟩ | ⟨h, hs⟩
    all_goals rcases hn.version with ⟨h', hs'⟩ | ⟨h', hs'⟩
    all_goals omega
  have hmini : m.header.miniSectorSize = n.header.miniSectorSize := hm.mini.trans hn.mini.symm
  have hcutoff : m.header.miniStreamCutoff = n.header.miniStreamCutoff := hm.cutoff.trans hn.cutoff.symm
  generalize m.header = a at *
  generalize n.header = b at *
  obtain ⟨_, _, _, _, _⟩ := a
  obtain ⟨_, _, _, _, _⟩ := b
  simp only at hmajor hminor hsector hmini hcutoff
  rw [hmajor, hminor, hsector, hmini, hcutoff]

/-- The steps of a successful rebuild. -/
theorem writeCfb_eq_ok {out : List UInt8} {signature : Option (List UInt8)} : writeCfb m signature = .ok out ↔
    ∃ entries laid, flatten m (signature.filter fun blob => blob ≠ []) = .ok entries ∧
      computeLayout m.header entries = .ok laid ∧ serialise m laid.2 laid.1 = out ∧
      ∃ check u, parse out = .ok check ∧ compareEntry laid.2 check check.root 0 {} = .ok u := by
  simp only [writeCfb, rebuild, bind_eq_ok, pure_eq_ok, Except.ok.injEq]
  constructor
  · rintro ⟨_, ⟨entries, hflatten, laid, hlayout, rfl⟩, check, hcheck, u, hcompare, rfl⟩
    exact ⟨entries, laid, hflatten, hlayout, rfl, check, u, hcheck, hcompare⟩
  · rintro ⟨entries, laid, hflatten, hlayout, rfl, check, u, hcheck, hcompare⟩
    exact ⟨_, ⟨entries, hflatten, laid, hlayout, rfl⟩, check, hcheck, u, hcompare, rfl⟩

/-- Two packages that hold the same tree, in whatever order and wherever in the file, are rebuilt alike. -/
theorem rebuilt_canonical {bytes' out out' : List UInt8} {signature : Option (List UInt8)} {kept kept' : List Content}
    (hm : parse bytes = .ok m) (hn : parse bytes' = .ok n) (hmajor : m.header.majorVersion = n.header.majorVersion)
    (hminor : m.header.minorVersion = n.header.minorVersion) (hearly : slice bytes 8 16 = slice bytes' 8 16)
    (hlate : slice bytes 52 4 = slice bytes' 52 4) (hkept : contentsOf m (keptChildren m) = .ok kept)
    (hkept' : contentsOf n (keptChildren n) = .ok kept')
    (hsame : Reordered (.storage (labelOf m.root) kept) (.storage (labelOf n.root) kept'))
    (hout : writeCfb m signature = .ok out) (hout' : writeCfb n signature = .ok out') : out = out' := by
  obtain ⟨entries, laid, hflatten, hlayout, rfl, -⟩ := writeCfb_eq_ok.1 hout
  obtain ⟨entries', laid', hflatten', hlayout', rfl, -⟩ := writeCfb_eq_ok.1 hout'
  have hheader := sameHeader_of_accepted (parse_accepted hm) (parse_accepted hn) hmajor hminor hearly hlate
  obtain ⟨cs, hcs, hsep, -⟩ := flatten_laid (parse_accepted hm).geometry (parse_root hm).1 hflatten
    (flatten_bound hm hflatten)
  obtain rfl : kept = cs := Except.ok.inj (hkept.symm.trans hcs)
  have hsorted := (hsame.root (signature.filter fun blob => blob ≠ [])).sorted hsep
  have hentries := flatten_shown hm hn hkept hkept' hsorted.2 hflatten hflatten'
  obtain ⟨others, hothers, -, hbytes⟩ := layout_congr hheader hentries hlayout'
  rw [hlayout] at hothers
  cases hothers
  exact hbytes

/-- Two empty streams, in the order in which the root lists them. -/
def pairPackage (child first second : Nat) : List UInt8 :=
  kMagic ++ List.replicate 16 0 ++ leBytes 2 0x3E ++ leBytes 2 3 ++ leBytes 2 0xFFFE ++ leBytes 2 9 ++ leBytes 2 6 ++
    List.replicate 10 0 ++ leBytes 4 1 ++ leBytes 4 1 ++ leBytes 4 0 ++ leBytes 4 4096 ++ leBytes 4 kCfbEndOfChain ++
    leBytes 4 0 ++ leBytes 4 kCfbEndOfChain ++ leBytes 4 0 ++ leBytes 4 0 ++ List.replicate 432 0xFF ++
  leBytes 4 kFatSector ++ leBytes 4 kCfbEndOfChain ++ List.replicate 504 0xFF ++
  sampleEntry 0x52 kTypeRoot kCfbNoStream child kCfbEndOfChain 0 ++
    sampleEntry 0x41 kTypeStream first kCfbNoStream 0 0 ++ sampleEntry 0x42 kTypeStream second kCfbNoStream 0 0 ++
    List.replicate 128 0

deriving instance DecidableEq for Label

/-- The two packages hold two streams each, and each has them in the order that the other has not. -/
def mirrored (m n : PackageModel) : Bool :=
  match contentsOf m (keptChildren m), contentsOf n (keptChildren n) with
  | .ok [.stream a as, .stream b bs], .ok [.stream c cs, .stream d ds] =>
      decide (m.header = n.header ∧ labelOf m.root = labelOf n.root ∧ a = d ∧ as = ds ∧ b = c ∧ bs = cs)
  | _, _ => false

theorem mirrored_reordered (h : mirrored m n = true) : m.header = n.header ∧ ∃ kept kept',
    contentsOf m (keptChildren m) = .ok kept ∧ contentsOf n (keptChildren n) = .ok kept' ∧
      Reordered (.storage (labelOf m.root) kept) (.storage (labelOf n.root) kept') := by
  rw [mirrored] at h
  split at h
  · rename_i hm hn
    obtain ⟨hheader, hroot, rfl, rfl, rfl, rfl⟩ := of_decide_eq_true h
    refine ⟨hheader, _, _, hm, hn, ?_⟩
    rw [hroot]
    exact .siblings (.swap _ _ _)
  · cases h

theorem rebuilt_canonical_pair : ∃ m n out, parse (pairPackage 1 2 kCfbNoStream) = .ok m ∧
    parse (pairPackage 2 kCfbNoStream 1) = .ok n ∧ mirrored m n = true ∧ writeCfb m none = .ok out ∧
    writeCfb n none = .ok out := by
  obtain ⟨⟨m, n⟩, h⟩ := exists_of_isOk (x := do
    let m ← parse (pairPackage 1 2 kCfbNoStream)
    let n ← parse (pairPackage 2 kCfbNoStream 1)
    rejectIf (mirrored m n = false) "" ""
    return (m, n)) (by decide +kernel)
  simp only [bind_eq_ok, rejectIf_eq_ok, pure_eq_ok, Except.ok.injEq, Prod.mk.injEq] at h
  obtain ⟨m', hm, n', hn, ⟨⟩, hmirrored, rfl, rfl⟩ := h
  rw [Bool.not_eq_false] at hmirrored
  obtain ⟨out, hout⟩ := exists_of_isOk (x := parse (pairPackage 1 2 kCfbNoStream) >>= fun m => writeCfb m none)
    (by decide +kernel)
  obtain ⟨out', hout'⟩ := exists_of_isOk (x := parse (pairPackage 2 kCfbNoStream 1) >>= fun m => writeCfb m none)
    (by decide +kernel)
  rw [hm, ok_bind] at hout
  rw [hn, ok_bind] at hout'
  obtain ⟨hheader, kept, kept', hkept, hkept', hsame⟩ := mirrored_reordered hmirrored
  obtain rfl := rebuilt_canonical hm hn (by rw [hheader]) (by rw [hheader]) (by decide +kernel) (by decide +kernel) hkept
    hkept' hsame hout hout'
  exact ⟨_, _, out, hm, hn, hmirrored, hout, hout'⟩

end TheSeed.CfbCanonical
