import TheSeed.CfbOutputRoom

namespace TheSeed.CfbOutputCheck

open Checked SortedBy SearchTree CfbReader CfbResolve CfbNames CfbWriter CfbJoint CfbLinks CfbContent CfbFlatten CfbTree CfbSearch CfbReadTree
  CfbRegions CfbReadBack CfbSelfCheck MsiFingerprint CfbOutputTree CfbOutputStreams CfbOutputRoom
open CfbDirectory (isNode isNode_iff)

/-! The self-check of the writer passes: the entries were read back as they were meant, and each is found by a search. -/

variable {m check : PackageModel} {entries placed : List Entry} {layout : Layout} {node got : CfbNode}
  {children done : List CfbNode} {directory : List DirEntry} {position first last : Nat} {c : Content} {cs : List Content}
  {u u' : Usage}

/-- The contents of each storage are in the order of names, and no two have the same. -/
inductive Ascending : Content → Prop
  | stream {label : Label} {bytes : List UInt8} : Ascending (.stream label bytes)
  | storage {label : Label} {cs : List Content} (hcs : cs.Pairwise fun a b => nameKey a.name < nameKey b.name)
      (h : ∀ c ∈ cs, Ascending c) : Ascending (.storage label cs)

theorem ascending_sorted (h : c.Separate) : Ascending c.sorted := by
  induction h with
  | stream label bytes =>
      rw [Content.sorted]
      exact .stream
  | storage label cs hd _ ih =>
      rw [Content.sorted]
      apply Ascending.storage
      · exact sortBy_strict (Content.sorted_children hd)
      · intro c hc
        obtain ⟨d, hd, rfl⟩ := List.mem_map.1 ((sortBy_perm _ _).mem_iff.1 hc)
        exact ih d hd

/-- The node that was read from an entry has its name. -/
theorem copied_name (h : Copied directory placed position node) : ∃ entry, placed[position]? = some entry ∧
    entry.node.name = node.name := by
  cases h with
  | stream hentry _ _ hlabel => exact ⟨_, hentry, congrArg Label.name hlabel⟩
  | storage hentry _ _ hlabel => exact ⟨_, hentry, congrArg Label.name hlabel⟩

theorem laid_name (h : Laid placed position first last c) : ∃ entry, placed[position]? = some entry ∧
    entry.node.name = c.name := by
  cases h with
  | stream hentry => exact ⟨_, hentry, rfl⟩
  | storage hentry => exact ⟨_, hentry, rfl⟩

theorem entryAt_of_get {entry : Entry} (h : placed[position]? = some entry) : entryAt placed position = entry := by
  rw [entryAt, List.getD_eq_getElem?_getD, h]
  rfl

/-- The nodes of a storage have the names that were meant. -/
theorem names_copied {label : Label} (h : Laid placed position first last (.storage label cs))
    (hcopied : Copied directory placed position node) : node.children.map CfbNode.name = cs.map Content.name := by
  cases h with
  | @storage _ _ _ entry _ hentry hkind hchildren part hpart hend hlaid =>
      cases hcopied with
      | stream hother hstream =>
          rw [hentry, Option.some.injEq] at hother
          subst hother
          rw [hkind] at hstream
          cases hstream
      | storage hother _ _ _ _ hlength hcopied =>
          rw [hentry, Option.some.injEq] at hother
          subst hother
          rw [hchildren, List.length_range'] at hlength
          apply List.ext_getElem?
          intro i
          rw [List.getElem?_map, List.getElem?_map]
          by_cases hi : i < cs.length
          · have hc := hlaid i _ (List.getElem?_eq_getElem hi)
            have hchild := hcopied i (first + i) _ (by rw [hchildren, List.getElem?_range' hi, Nat.one_mul])
              (List.getElem?_eq_getElem (hlength ▸ hi))
            obtain ⟨meant, hmeant, hname⟩ := laid_name hc
            obtain ⟨read, hread, hsame⟩ := copied_name hchild
            rw [hmeant, Option.some.injEq] at hread
            subst hread
            rw [List.getElem?_eq_getElem hi, List.getElem?_eq_getElem (hlength ▸ hi), Option.map_some, Option.map_some,
              ← hname, ← hsame]
          · rw [List.getElem?_eq_none (by omega), List.getElem?_eq_none (by omega)]
            rfl

theorem ascending_copied {label : Label} (h : Laid placed position first last (.storage label cs))
    (hascending : Ascending (.storage label cs)) (hcopied : Copied directory placed position node) :
    node.children.Pairwise fun a b => compareNames a.name b.name = .lt := by
  have hnames := names_copied h hcopied
  cases hascending with
  | storage hcs _ =>
      have hkeys : (cs.map Content.name).Pairwise fun a b => nameKey a < nameKey b := List.pairwise_map.2 hcs
      rw [← hnames, List.pairwise_map] at hkeys
      exact hkeys.imp compareNames_eq_lt.2

/-- A search of a storage that was read finds each of its nodes. -/
theorem finds_copied (hs : Shows directory placed) (hl : CfbTree.Links directory) {label : Label}
    (h : Laid placed position first last (.storage label cs)) (hfirst : 0 < first) (hlast : last ≤ placed.length)
    (hascending : Ascending (.storage label cs)) (hcopied : Copied directory placed position node) {i : Nat} {child : CfbNode}
    (hi : node.children[i]? = some child) : findBySearch node child.name = some i := by
  have hpairwise := ascending_copied h hascending hcopied
  cases h with
  | @storage _ _ _ entry _ hentry hkind hchildren part hpart hend hlaid =>
      cases hcopied with
      | stream hother hstream =>
          rw [hentry, Option.some.injEq] at hother
          subst hother
          rw [hkind] at hstream
          cases hstream
      | storage hother _ _ _ hread _ _ =>
          obtain ⟨ids, hshape⟩ := shape_of_readAs hl hread
          have hids : ids = List.range' first cs.length := by
            rw [← hchildren]
            exact hshape.inOrder.unique (hs.tree position entry hentry hkind)
          have hstep : ∀ j < cs.length, part j ≤ part (j + 1) := fun j hj =>
            (hlaid j _ (List.getElem?_eq_getElem hj)).le
          have hrow : part 0 ≤ part cs.length := part_mono hstep (Nat.zero_le _) (Nat.le_refl _)
          have hnodes : ∀ other ∈ ids, isNode directory other = true := by
            intro other hother
            rw [hids, List.mem_range'_1] at hother
            obtain ⟨read, hread⟩ : ∃ read, placed[other]? = some read := ⟨_, List.getElem?_eq_getElem (by omega)⟩
            rw [isNode_iff, CfbDirectory.entryAt, hs.kind other read hread (by omega)]
            split
            · exact .inl rfl
            · exact .inr rfl
          apply ((hshape.finds hnodes hpairwise).finds child.name i).2
          exact ⟨child, hi, compareNames_eq_eq.2 rfl⟩

/-- The comparison of a node that was read from its entry. -/
def Passes (directory : List DirEntry) (placed : List Entry) (check : PackageModel) (got : CfbNode) : Prop :=
  ∀ ⦃position first last c u done⦄, Laid placed position first last c → 0 < first → last ≤ placed.length → Ascending c →
    Copied directory placed position got → After check done u → Joint check (streamNodes got ++ done) →
    ∃ u', compareEntry placed check got position u = .ok u'

theorem compareChildren_ok (hg : Geometry check) (hpasses : ∀ child ∈ children, Passes directory placed check child)
    {i : Nat} {part : Nat → Nat} (hfirst : 0 < part 0) (hend : part children.length ≤ placed.length)
    (hlaid : ∀ j c, cs[j]? = some c → Laid placed (position + j) (part j) (part (j + 1)) c)
    (hlen : cs.length = children.length) (hascending : ∀ c ∈ cs, Ascending c)
    (hcopied : ∀ j child, children[j]? = some child → Copied directory placed (position + j) child)
    (hfinds : ∀ j child, children[j]? = some child → findBySearch got child.name = some (i + j))
    (h : After check done u) (hjoint : Joint check (children.flatMap streamNodes ++ done)) :
    ∃ u', compareChildren placed got i
      ((List.range' position children.length).zip (children.map (compared placed check))) u = .ok u' := by
  induction children generalizing position i part cs done u with
  | nil => exact ⟨u, rfl⟩
  | cons child children ih =>
      cases cs with
      | nil => cases hlen
      | cons c cs =>
          obtain ⟨hfirstAscending, hrestAscending⟩ := List.forall_mem_cons.1 hascending
          have hc : Laid placed position (part 0) (part 1) c := hlaid 0 c rfl
          have hhere : Copied directory placed position child := hcopied 0 child rfl
          have hstep : ∀ j < (c :: cs).length, part j ≤ part (j + 1) := fun j hj =>
            (hlaid j _ (List.getElem?_eq_getElem hj)).le
          have hle : part 1 ≤ part (cs.length + 1) := part_mono hstep (Nat.succ_le_succ (Nat.zero_le _)) (Nat.le_refl _)
          have hhead : part 0 ≤ part 1 := hc.le
          rw [List.length_cons] at hend
          rw [List.length_cons, List.length_cons, Nat.succ.injEq] at hlen
          rw [hlen] at hle
          rw [List.flatMap_cons] at hjoint
          have hjointFirst : Joint check (streamNodes child ++ done) := by
            apply hjoint.sublist
            rw [List.append_assoc]
            exact (List.sublist_append_right _ _).append_left _
          obtain ⟨v, hv⟩ := hpasses child List.mem_cons_self hc hfirst (by omega) hfirstAscending hhere h hjointFirst
          obtain ⟨-, hafter⟩ := compareEntry_sound hg child hc h hv
          have hjointRest : Joint check (children.flatMap streamNodes ++ (streamNodes child ++ done)) := by
            apply hjoint.perm
            rw [← List.append_assoc]
            exact List.perm_append_comm.append_right done
          have hlaidRest : ∀ j d, cs[j]? = some d →
              Laid placed (position + 1 + j) (part (j + 1)) (part (j + 1 + 1)) d := by
            intro j d hj
            have hd := hlaid (j + 1) d hj
            rwa [Nat.add_comm j 1, ← Nat.add_assoc, Nat.add_comm 1 j] at hd
          have hcopiedRest : ∀ j other, children[j]? = some other → Copied directory placed (position + 1 + j) other := by
            intro j other hj
            have hother := hcopied (j + 1) other hj
            rwa [Nat.add_comm j 1, ← Nat.add_assoc] at hother
          have hfindsRest : ∀ j other, children[j]? = some other → findBySearch got other.name = some (i + 1 + j) := by
            intro j other hj
            have hother := hfinds (j + 1) other hj
            rwa [Nat.add_comm j 1, ← Nat.add_assoc] at hother
          have hpassesRest : ∀ other ∈ children, Passes directory placed check other := fun other hother =>
            hpasses other (List.mem_cons_of_mem _ hother)
          obtain ⟨u', hu'⟩ := @ih (streamNodes child ++ done) (position + 1) cs v hpassesRest (i + 1) (fun j => part (j + 1))
            (hfirst.trans_le hhead) hend hlaidRest hlen hrestAscending hcopiedRest hfindsRest hafter hjointRest
          obtain ⟨entry, hentry, hname⟩ := copied_name hhere
          have hfound : findBySearch got (entryAt placed position).node.name = some i := by
            rw [entryAt_of_get hentry, hname]
            exact hfinds 0 child rfl
          have hcompared : (compared placed check child).inner position u = .ok v := hv
          refine ⟨u', ?_⟩
          rw [List.length_cons, List.range'_succ, List.map_cons, List.zip_cons_cons, compareChildren]
          rw [differIf, if_neg (by rw [not_not]; exact hfound), ok_bind, hcompared, ok_bind]
          exact hu'

/-- Every node that was read from its entry passes. -/
theorem passes_copied (h : Written m entries placed layout) (ho : Opened m placed layout check) (hs : Shows directory placed)
    (hl : CfbTree.Links directory) (got : CfbNode) : Passes directory placed check got := by
  have hg := geometry_of h ho.toOutput
  induction got using nodeInduction with
  | h got ih =>
      intro position first last c u done hlaid hfirst hlast hascending hcopied hafter hjoint
      rw [compareEntry_eq]
      cases hlaid with
      | @stream _ _ entry hentry hkind hsize =>
          cases hcopied with
          | storage hother hstorage =>
              rw [hentry, Option.some.injEq] at hother
              subst hother
              rw [hkind] at hstorage
              cases hstorage
          | @stream _ other _ hother _ hnode hlabel hstart hsame =>
              rw [hentry, Option.some.injEq] at hother
              subst hother
              rw [streamNodes_stream hnode] at hjoint
              obtain ⟨extents, u', hresolve, halone, -⟩ := hafter.resolve_ok hg hjoint
              obtain ⟨hrange, hbytes⟩ := stream_alone h ho (List.mem_of_getElem? hentry) ⟨hkind, hnode, hstart, hsame⟩
              rw [halone, Except.ok.injEq] at hrange
              rw [← hrange] at hbytes
              refine ⟨u', (compareWith_eq_ok hentry).2 ⟨⟨hlabel, hkind.trans hnode.symm⟩, .inr ⟨hkind, ?_⟩⟩⟩
              exact compareStream_eq_ok.2 ⟨hsame.symm, extents, hresolve, hbytes.symm⟩
      | @storage _ _ _ entry cs hentry hkind hchildren part hpart hend hlaid =>
          have hall : ∀ i child, got.children[i]? = some child → findBySearch got child.name = some i := fun i child hi =>
            finds_copied hs hl (.storage hentry hkind hchildren part hpart hend hlaid) hfirst hlast hascending hcopied hi
          cases hcopied with
          | stream hother hstream =>
              rw [hentry, Option.some.injEq] at hother
              subst hother
              rw [hkind] at hstream
              cases hstream
          | @storage _ other _ hother _ hnode hlabel _ hlength hcopied =>
              rw [hentry, Option.some.injEq] at hother
              subst hother
              rw [hchildren, List.length_range'] at hlength
              rw [streamNodes_storage hnode] at hjoint
              cases hascending with
              | storage _ hascending =>
                  have hchildAt : ∀ j child, got.children[j]? = some child → Copied directory placed (first + j) child := by
                    intro j child hj
                    have hlt := (List.getElem?_eq_some_iff.1 hj).1
                    apply hcopied j (first + j) child _ hj
                    rw [hchildren, List.getElem?_range' (hlength ▸ hlt), Nat.one_mul]
                  have hfound : ∀ j child, got.children[j]? = some child → findBySearch got child.name = some (0 + j) := by
                    intro j child hj
                    rw [Nat.zero_add]
                    exact hall j child hj
                  obtain ⟨u', hu'⟩ := compareChildren_ok hg ih (by omega) (hlength ▸ hend.trans_le hlast) hlaid hlength.symm
                    hascending hchildAt hfound hafter hjoint
                  refine ⟨u', (compareWith_eq_ok hentry).2 ⟨⟨hlabel, hkind.trans hnode.symm⟩, .inl ⟨hkind, ?_, ?_⟩⟩⟩
                  · rw [hchildren, List.length_range', List.length_map, hlength]
                  · rw [hchildren, ← hlength]
                    exact hu'

end TheSeed.CfbOutputCheck
