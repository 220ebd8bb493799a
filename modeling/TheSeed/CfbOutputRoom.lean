import TheSeed.CfbOutputStreams
import TheSeed.MsiFingerprint

namespace TheSeed.CfbOutputRoom

open Checked CfbReader CfbWriter CfbJoint CfbAllocation CfbNarrowing CfbRuns CfbLinks CfbContent CfbFlatten CfbTree CfbReadTree
  CfbRegions CfbReadBack MsiFingerprint CfbOutputTree CfbOutputStreams

/-! The streams of the output leave each other alone, so they can be read one after the other. -/

variable {m check : PackageModel} {entries placed : List Entry} {layout : Layout} {stored : Entry} {s node : CfbNode}
  {directory : List DirEntry} {p first last : Nat} {c : Content} {ps : List Nat} {streams : List CfbNode}

/-- The stream was read from the entry at a position. -/
def StreamAt (placed : List Entry) (p : Nat) (s : CfbNode) : Prop := ∃ stored, placed[p]? = some stored ∧ StreamOf stored s

/-- The positions of the streams, each once. -/
structure Positions (placed : List Entry) (ps : List Nat) (streams : List CfbNode) : Prop where
  nodup : ps.Nodup
  reads : List.Forall₂ (StreamAt placed) ps streams

theorem positions_row {part : Nat → Nat} {children : List CfbNode} (hbound : first + children.length ≤ part 0)
    (hle : ∀ i < children.length, part i ≤ part (i + 1))
    (hchildren : ∀ i child, children[i]? = some child → ∃ ps, Positions placed ps (streamNodes child) ∧
      ∀ q ∈ ps, Within (first + i) (part i) (part (i + 1)) q) :
    ∃ ps, Positions placed ps (children.flatMap streamNodes) ∧
      ∀ q ∈ ps, first ≤ q ∧ q < first + children.length ∨ part 0 ≤ q ∧ q < part children.length := by
  induction children generalizing first part with
  | nil => exact ⟨[], ⟨List.nodup_nil, .nil⟩, fun q hq => absurd hq List.not_mem_nil⟩
  | cons child children ih =>
      rw [List.length_cons] at hbound hle ⊢
      have hhead : part 0 ≤ part 1 := hle 0 (Nat.succ_pos _)
      have htail : part 1 ≤ part (children.length + 1) := part_mono hle (Nat.succ_le_succ (Nat.zero_le _)) (Nat.le_refl _)
      have hrest : ∀ i other, children[i]? = some other → ∃ ps, Positions placed ps (streamNodes other) ∧
          ∀ q ∈ ps, Within (first + 1 + i) (part (i + 1)) (part (i + 1 + 1)) q := by
        intro i other hi
        have hother := hchildren (i + 1) other hi
        rwa [Nat.add_comm i 1, ← Nat.add_assoc, Nat.add_comm 1 i] at hother
      obtain ⟨ps, hps, hin⟩ := hchildren 0 child rfl
      have hbehind : first + 1 + children.length ≤ part 1 := by omega
      obtain ⟨qs, hqs, hinside⟩ := @ih (first + 1) (fun i => part (i + 1)) hbehind
        (fun i hi => hle (i + 1) (Nat.succ_lt_succ hi)) hrest
      refine ⟨ps ++ qs, ⟨?_, ?_⟩, ?_⟩
      · apply List.nodup_append.2
        refine ⟨hps.nodup, hqs.nodup, ?_⟩
        intro a ha b hb heq
        have ha := hin a ha
        have hb := hinside b hb
        rw [Within] at ha
        rw [Nat.zero_add] at ha hb
        omega
      · rw [List.flatMap_cons]
        exact List.rel_append hps.reads hqs.reads
      · intro q hq
        rcases List.mem_append.1 hq with hq | hq
        · have hq := hin q hq
          rw [Within, Nat.zero_add] at hq
          omega
        · have hq := hinside q hq
          rw [Nat.zero_add] at hq
          omega

/-- Each stream below a node has a position of its own below the node's. -/
theorem positions_of_copied (h : Laid placed p first last c) (hcopied : Copied directory placed p node) :
    ∃ ps, Positions placed ps (streamNodes node) ∧ ∀ q ∈ ps, Within p first last q := by
  induction h generalizing node with
  | @stream position first stored hstored hkind =>
      cases hcopied with
      | @stream _ other _ hother _ hnode _ hstart hsize =>
          rw [hstored, Option.some.injEq] at hother
          subst hother
          rw [streamNodes_stream hnode]
          refine ⟨[position], ⟨List.nodup_singleton _, ?_⟩, ?_⟩
          · exact .cons ⟨stored, hstored, hkind, hnode, hstart, hsize⟩ .nil
          · intro q hq
            exact .inl (List.mem_singleton.1 hq)
      | storage hother hstorage =>
          rw [hstored, Option.some.injEq] at hother
          subst hother
          rw [hkind] at hstorage
          cases hstorage
  | @storage position first last stored cs hstored hkind hpositions part hpart hend hlaid ih =>
      cases hcopied with
      | stream hother hstream =>
          rw [hstored, Option.some.injEq] at hother
          subst hother
          rw [hkind] at hstream
          cases hstream
      | @storage _ other _ hother _ hnode _ _ hlength hchildren =>
          rw [hstored, Option.some.injEq] at hother
          subst hother
          rw [hpositions, List.length_range'] at hlength
          have hle : ∀ i < node.children.length, part i ≤ part (i + 1) := by
            intro i hi
            rw [hlength] at hi
            exact (hlaid i _ (List.getElem?_eq_getElem hi)).le
          obtain ⟨ps, hps, hin⟩ := @positions_row placed first part node.children (by omega) hle fun i child hi => by
            have hlt := (List.getElem?_eq_some_iff.1 hi).1
            rw [hlength] at hlt
            apply ih i _ (List.getElem?_eq_getElem hlt)
            apply hchildren i (first + i) child _ hi
            rw [hpositions, List.getElem?_range' hlt, Nat.one_mul]
          have hrow : part 0 ≤ part node.children.length := part_mono hle (Nat.zero_le _) (Nat.le_refl _)
          rw [hlength] at hrow
          rw [streamNodes_storage hnode]
          refine ⟨ps, hps, ?_⟩
          intro q hq
          have hq := hin q hq
          rw [hlength] at hq
          rw [Within]
          omega

theorem Positions.mem (h : Positions placed ps streams) (hs : s ∈ streams) : ∃ q ∈ ps, StreamAt placed q s := by
  obtain ⟨i, hi⟩ := List.getElem?_of_mem hs
  obtain ⟨q, hq, hat⟩ := forall₂_getElem? h.reads.flip hi
  exact ⟨q, List.mem_of_getElem? hq, hat⟩

theorem flatMap_positions {f : CfbNode → List Nat} {g : Entry → List Nat}
    (hfg : ∀ stored ∈ placed, ∀ s, StreamOf stored s → f s = g stored) (h : List.Forall₂ (StreamAt placed) ps streams) :
    streams.flatMap f = ps.flatMap fun q => placed[q]?.elim [] g := by
  induction h with
  | nil => rfl
  | @cons q s ps streams hs _ ih =>
      obtain ⟨stored, hstored, hof⟩ := hs
      rw [List.flatMap_cons, List.flatMap_cons, hfg stored (List.mem_of_getElem? hstored) s hof, hstored, ih]
      rfl

/-- Units that entries take one after the other are taken once. -/
theorem nodup_units {on : Entry → Bool} {units : Entry → Nat} (hps : ps.Nodup)
    (hapart : placed.Pairwise fun a b => on a = true → on b = true → a.start + units a ≤ b.start) :
    (ps.flatMap fun q => placed[q]?.elim [] fun stored => if on stored then List.range' stored.start (units stored) else []).Nodup := by
  have hunits : ∀ q x : Nat, x ∈ placed[q]?.elim [] (fun stored => if on stored then List.range' stored.start (units stored) else []) →
      ∃ stored, placed[q]? = some stored ∧ on stored = true ∧ stored.start ≤ x ∧ x < stored.start + units stored := by
    intro q x hx
    cases hget : placed[q]? with
    | none =>
        rw [hget] at hx
        exact absurd hx List.not_mem_nil
    | some stored =>
        rw [hget, Option.elim_some] at hx
        by_cases hon : on stored = true
        · rw [if_pos hon, List.mem_range'_1] at hx
          exact ⟨stored, rfl, hon, hx⟩
        · rw [if_neg hon] at hx
          exact absurd hx List.not_mem_nil
  have hordered : ∀ q r : Nat, q < r → ∀ a b, placed[q]? = some a → placed[r]? = some b → on a = true → on b = true →
      a.start + units a ≤ b.start := by
    intro q r hlt a b ha hb
    obtain ⟨hq, rfl⟩ := List.getElem?_eq_some_iff.1 ha
    obtain ⟨hr, rfl⟩ := List.getElem?_eq_some_iff.1 hb
    exact List.pairwise_iff_getElem.1 hapart q r hq hr hlt
  apply List.nodup_flatMap.2
  refine ⟨?_, ?_⟩
  · intro q _
    cases placed[q]? with
    | none => exact List.nodup_nil
    | some stored =>
        rw [Option.elim_some]
        split
        · exact List.nodup_range'
        · exact List.nodup_nil
  · apply hps.imp
    intro q r hne x hx hx'
    obtain ⟨a, ha, hona, hlow, hhigh⟩ := hunits q x hx
    obtain ⟨b, hb, honb, hlow', hhigh'⟩ := hunits r x hx'
    rcases Nat.lt_or_gt_of_ne hne with hlt | hlt
    · have hle := hordered q r hlt a b ha hb hona honb
      omega
    · have hle := hordered r q hlt b a hb ha honb hona
      omega

section written

variable (h : Written m entries placed layout) (ho : Opened m placed layout check)

include h ho

theorem sectorsOf_eq (hmem : stored ∈ placed) (hs : StreamOf stored s) : sectorsOf check s =
    if ownsSectors stored then List.range' stored.start (unitsFor stored.size m.header.sectorSize) else [] := by
  by_cases hholds : holdsBytes stored = true
  · have hordinary := isOrdinary_eq h ho hmem hholds hs
    cases hmini : stored.inMiniStream with
    | false =>
        rw [hmini] at hordinary
        rw [(ordinary_run h ho hmem hholds hmini hs).sectorsOf_eq hordinary, if_pos (ownsSectors_of hholds hmini), ho.header]
    | true =>
        rw [hmini] at hordinary
        rw [sectorsOf, if_neg (by rw [hordinary]; decide), ownsSectors, hmini, Bool.not_true, Bool.and_false, Bool.false_and,
          if_neg (by decide)]
  · have hempty : stored.size = 0 := by
      rw [holdsBytes, hs.isStream, Bool.false_or, Bool.not_eq_true', decide_eq_false_iff_not, not_not] at hholds
      exact hholds
    rw [sectorsOf, IsOrdinary, hs.size, ownsSectors, hempty]
    simp

theorem minisOf_eq (hmem : stored ∈ placed) (hs : StreamOf stored s) : minisOf check s =
    if ownsMinis stored then List.range' stored.start (unitsFor stored.size kMiniSectorSize) else [] := by
  by_cases hholds : holdsBytes stored = true
  · have hsmall := isMini_eq h ho hmem hholds hs
    cases hmini : stored.inMiniStream with
    | true =>
        rw [hmini] at hsmall
        rw [(mini_run h ho hmem hholds hmini hs).minisOf_eq hsmall, if_pos (ownsMinis_of hholds hmini), ho.header, h.mini]
    | false =>
        rw [hmini] at hsmall
        rw [minisOf, if_neg (by rw [hsmall]; decide), ownsMinis, hmini, Bool.and_false, if_neg (by decide)]
  · have hempty : stored.size = 0 := by
      rw [holdsBytes, hs.isStream, Bool.false_or, Bool.not_eq_true', decide_eq_false_iff_not, not_not] at hholds
      exact hholds
    rw [minisOf, IsMini, hs.size, ownsMinis, hempty]
    simp

/-- The streams of the output can be read one after the other, in any order. -/
theorem joint_output (hfew : entries.length ≤ kCfbNoStream) (hps : Positions placed ps streams)
    (hsome : 0 < placed.length)
    (hinside : ∀ q ∈ ps, 1 ≤ q ∧ q < placed.length) : Joint check streams := by
  have hregions := h.regions
  have halone : ∀ s ∈ streams, ∃ extents, (check.resolve s {}).1 = .ok extents := by
    intro s hs
    obtain ⟨q, -, stored, hstored, hof⟩ := hps.mem hs
    exact ⟨_, (stream_alone h ho (List.mem_of_getElem? hstored) hof).1⟩
  have hsectors : (streams.flatMap (sectorsOf check)).Nodup := by
    rw [flatMap_positions (fun stored hmem s hs => sectorsOf_eq h ho hmem hs) hps.reads]
    exact nodup_units hps.nodup (sectors_apart h.laidOut _ rfl)
  have hminis : (streams.flatMap (minisOf check)).Nodup := by
    rw [flatMap_positions (fun stored hmem s hs => minisOf_eq h ho hmem hs) hps.reads]
    exact nodup_units hps.nodup (minis_apart h.laidOut h.unplaced h.minis)
  have hbefore : ∀ x ∈ streams.flatMap (sectorsOf check), x < layout.miniStreamStart := by
    intro x hx
    obtain ⟨s, hs, hx⟩ := List.mem_flatMap.1 hx
    obtain ⟨q, -, stored, hstored, hof⟩ := hps.mem hs
    have hmem := List.mem_of_getElem? hstored
    rw [sectorsOf_eq h ho hmem hof] at hx
    by_cases hown : ownsSectors stored = true
    · rw [if_pos hown, List.mem_range'_1] at hx
      have hle := sectors_before h.laidOut hregions hmem hown
      rw [hregions.miniStreamStart]
      omega
    · rw [if_neg hown] at hx
      exact absurd hx List.not_mem_nil
  have hcount : streams.length + 1 ≤ placed.length := by
    have hsub : (0 :: ps).Subperm (List.range placed.length) := by
      apply List.subperm_of_subset
      · apply List.nodup_cons.2
        refine ⟨?_, hps.nodup⟩
        intro hzero
        have hpos := (hinside 0 hzero).1
        omega
      · intro q hq
        rw [List.mem_range]
        rcases List.mem_cons.1 hq with rfl | hq
        · exact hsome
        · exact (hinside q hq).2
    have hle := hsub.length_le
    rw [List.length_cons, List.length_range, hps.reads.length_eq] at hle
    exact hle
  refine ⟨halone, ?_, hminis, ?_⟩
  · rw [sectorsTaken]
    apply List.nodup_append.2
    refine ⟨hsectors, ?_, ?_⟩
    · split
      · rw [containerSectors_run h ho]
        exact List.nodup_range'
      · exact List.nodup_nil
    · intro x hx y hy heq
      have hlt := hbefore x hx
      subst heq
      split at hy
      · rw [containerSectors_run h ho, List.mem_range'_1] at hy
        omega
      · exact absurd hy List.not_mem_nil
  · have hle := @List.countP_le_length _ (fun s => IsMini check s || IsOrdinary check s) streams
    have hlength := h.length_eq
    rw [kCfbNoStream] at hfew
    rw [callsMade]
    split
    · omega
    · omega

end written

end TheSeed.CfbOutputRoom
