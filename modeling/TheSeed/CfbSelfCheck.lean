import TheSeed.CfbTree

namespace TheSeed.CfbSelfCheck

open Bytes Checked BoundedBytes CfbReader CfbResolve CfbJoint MsiAuthenticode CfbWriter SortedBy CfbNames CfbContent
  Content MsiFingerprint CfbFlatten CfbTree

/-! What the self-check lets pass is the intended package. -/

variable {m check : PackageModel} {entries entries' : List Entry} {got : CfbNode} {children done : List CfbNode}
  {cs : List Content} {c : Content} {u u' : Usage} {position first last : Nat}

/-! Bytes in pieces -/

theorem flatten_rest (x : Piece) (xs : List Piece) (n : Nat) :
    (if n = x.length then xs else x.drop n :: xs).flatten = x.drop n ++ xs.flatten := by
  by_cases h : n = x.length
  · rw [if_pos h, h, List.drop_length, List.nil_append]
  · rw [if_neg h, List.flatten_cons]

theorem length_rest (x : Piece) (xs : List Piece) (n : Nat) :
    (if n = x.length then xs else x.drop n :: xs).length ≤ xs.length + if n = x.length then 0 else 1 := by
  by_cases h : n = x.length
  · simp only [if_pos h, Nat.add_zero, Nat.le_refl]
  · simp only [if_neg h, List.length_cons, Nat.le_refl]

theorem dropWhile_isEmpty_eq_nil (xs : List Piece) : xs.dropWhile List.isEmpty = [] ↔ xs.flatten = [] := by
  induction xs with
  | nil => simp
  | cons x xs ih =>
      cases x with
      | nil => simp [ih]
      | cons b x => simp

theorem append_eq_append_split {x y xs ys : List UInt8} {n : Nat} (hx : n ≤ x.length) (hy : n ≤ y.length) :
    x ++ xs = y ++ ys ↔ x.take n = y.take n ∧ x.drop n ++ xs = y.drop n ++ ys := by
  constructor
  · intro h
    have htake := congrArg (List.take n) h
    have hdrop := congrArg (List.drop n) h
    rw [List.take_append_of_le_length hx, List.take_append_of_le_length hy] at htake
    rw [List.drop_append_of_le_length hx, List.drop_append_of_le_length hy] at hdrop
    exact ⟨htake, hdrop⟩
  · rintro ⟨htake, hdrop⟩
    rw [← List.take_append_drop n x, ← List.take_append_drop n y, List.append_assoc, List.append_assoc, htake, hdrop]

theorem samePieces_iff {rounds : Nat} {xs ys : List Piece} (h : xs.length + ys.length ≤ rounds) :
    samePieces rounds xs ys = true ↔ xs.flatten = ys.flatten := by
  induction rounds generalizing xs ys with
  | zero =>
      have hx : xs = [] := List.eq_nil_of_length_eq_zero (by omega)
      have hy : ys = [] := List.eq_nil_of_length_eq_zero (by omega)
      subst hx hy
      simp [samePieces]
  | succ rounds ih =>
      cases xs with
      | nil =>
          rw [samePieces]
          · simp only [Bool.and_eq_true, decide_eq_true_eq, List.dropWhile_nil, true_and, dropWhile_isEmpty_eq_nil,
              List.flatten_nil]
            exact eq_comm
          · intro _ _ _ _ _ _ h
            cases h
      | cons x xs =>
          cases ys with
          | nil =>
              rw [samePieces]
              · simp only [Bool.and_eq_true, decide_eq_true_eq, List.dropWhile_nil, and_true, dropWhile_isEmpty_eq_nil,
                  List.flatten_nil]
              · intro _ _ _ _ _ _ _ h
                cases h
          | cons y ys =>
              have hx := Nat.min_le_left x.length y.length
              have hy := Nat.min_le_right x.length y.length
              have hrestx := length_rest x xs (min x.length y.length)
              have hresty := length_rest y ys (min x.length y.length)
              rw [samePieces, List.flatten_cons, List.flatten_cons, append_eq_append_split hx hy]
              by_cases htake : x.take (min x.length y.length) = y.take (min x.length y.length)
              · simp only [List.length_cons] at h
                have hrounds : (if min x.length y.length = x.length then xs else x.drop (min x.length y.length) :: xs).length +
                    (if min x.length y.length = y.length then ys else y.drop (min x.length y.length) :: ys).length ≤
                    rounds := by
                  rcases Nat.le_total x.length y.length with hle | hle
                  · have hone : (if min x.length y.length = x.length then 0 else 1) = 0 := if_pos (Nat.min_eq_left hle)
                    have htwo : (if min x.length y.length = y.length then 0 else 1) ≤ 1 := by
                      split <;> omega
                    omega
                  · have hone : (if min x.length y.length = y.length then 0 else 1) = 0 := if_pos (Nat.min_eq_right hle)
                    have htwo : (if min x.length y.length = x.length then 0 else 1) ≤ 1 := by
                      split <;> omega
                    omega
                simp only [ne_eq, htake, not_true_eq_false, if_false, true_and]
                rw [ih hrounds, flatten_rest, flatten_rest]
              · simp [htake]

theorem sameBytes_iff (a b : List Piece) : sameBytes a b = true ↔ a.flatten = b.flatten :=
  samePieces_iff (Nat.le_refl _)

/-! Layout leaves what the entries stand for as it is -/

theorem placeEntries_core {chosen : Entry → Bool} {place : Nat → Entry → Entry} {unit next : Nat}
    (hplace : ∀ n entry, core (place n entry) = core entry) :
    (placeEntries chosen place unit next entries).1.map core = entries.map core := by
  induction entries generalizing next with
  | nil => rfl
  | cons entry entries ih =>
      rw [placeEntries]
      by_cases h : chosen entry = true
      · simp only [if_pos h, List.map_cons, hplace, ih]
      · simp only [if_neg h, List.map_cons, ih]

theorem computeLayout_core {header : CfbHeader} {laid : Layout × List Entry}
    (h : computeLayout header entries = .ok laid) : laid.2.map core = entries.map core := by
  simp only [computeLayout, bind_eq_ok, pure_eq_ok, Except.ok.injEq] at h
  obtain ⟨-, -, rfl⟩ := h
  have hmini : (placeMini header (placeOrdinary header entries).1).1.map core = (placeOrdinary header entries).1.map core :=
    placeEntries_core fun _ _ => rfl
  have hordinary : (placeOrdinary header entries).1.map core = entries.map core := placeEntries_core fun _ _ => rfl
  exact hmini.trans hordinary

theorem Laid.of_map_core (h : Laid entries position first last c) (hcore : entries'.map core = entries.map core) :
    Laid entries' position first last c := by
  refine h.of_core fun i => ?_
  rw [← List.getElem?_map, ← List.getElem?_map, hcore]

/-! The comparison -/

def compared (entries : List Entry) (check : PackageModel) (child : CfbNode) : ComparedChild :=
  ⟨child, compareEntry entries check child⟩

theorem comparedChildren_eq (children : List CfbNode) :
    comparedChildren entries check children = children.map (compared entries check) := by
  induction children with
  | nil => rfl
  | cons child children ih =>
      rw [comparedChildren, List.map_cons, ih]
      rfl

theorem compareEntry_eq (got : CfbNode) : compareEntry entries check got =
    compareWith entries check got (got.children.map (compared entries check)) := by
  obtain ⟨⟩ := got
  rw [compareEntry, comparedChildren_eq]

theorem differIf_eq_ok {p : Prop} [Decidable p] {name : CfbName} {what : String} {r : Unit} :
    differIf p name what = .ok r ↔ ¬p := by
  rw [differIf]
  by_cases h : p
  · simp [h, throwDifference]
  · simp [h]

/-- The labels that the self-check compares. -/
structure SameLabel (want got : CfbNode) : Prop where
  label : labelOf want = labelOf got
  kind : want.isStorage = got.isStorage

theorem compareWith_eq_ok {compared : List ComparedChild} {entry : Entry} (h : entries[position]? = some entry) :
    compareWith entries check got compared position u = .ok u' ↔ SameLabel entry.node got ∧
      (entry.node.isStorage = true ∧ entry.children.length = compared.length ∧
        compareChildren entries got 0 (entry.children.zip compared) u = .ok u' ∨
      entry.node.isStorage = false ∧ compareStream check entry got u = .ok u') := by
  have hentry : entryAt entries position = entry := by
    rw [entryAt, List.getD_eq_getElem?_getD, h, Option.getD_some]
  rw [compareWith]
  simp only [hentry, bind_eq_ok, differIf_eq_ok, exists_const, not_not, not_or]
  constructor
  · rintro ⟨hname, hkind, hclass, hbits, ⟨hcreated, hmodified⟩, h⟩
    refine ⟨⟨?_, hkind⟩, ?_⟩
    · rw [labelOf, labelOf, hname, hclass, hbits, hcreated, hmodified]
    · cases hs : entry.node.isStorage with
      | true =>
          rw [hs, if_pos rfl] at h
          simp only [bind_eq_ok, differIf_eq_ok, exists_const, not_not] at h
          exact .inl ⟨rfl, h⟩
      | false =>
          rw [hs, if_neg (by decide)] at h
          exact .inr ⟨rfl, h⟩
  · rintro ⟨⟨hlabel, hkind⟩, h⟩
    simp only [labelOf, Label.mk.injEq] at hlabel
    obtain ⟨hname, hclass, hbits, hcreated, hmodified⟩ := hlabel
    refine ⟨hname, hkind, hclass, hbits, ⟨hcreated, hmodified⟩, ?_⟩
    rcases h with ⟨hs, hlen, hc⟩ | ⟨hs, hc⟩
    · rw [hs, if_pos rfl]
      simp only [bind_eq_ok, differIf_eq_ok, exists_const, not_not]
      exact ⟨hlen, hc⟩
    · rw [hs, if_neg (by decide)]
      exact hc

theorem compareStream_eq_ok {entry : Entry} : compareStream check entry got u = .ok u' ↔
    entry.size = got.size ∧ ∃ extents, check.resolve got u = (.ok extents, u') ∧
      entry.pieces.flatten = extentBytes check.source.bytes extents := by
  rw [compareStream]
  simp only [bind_eq_ok, differIf_eq_ok, exists_const, not_not, pure_eq_ok, Except.ok.injEq, Prod.exists,
    resolveOrThrow_eq_ok, Bool.not_eq_false, sameBytes_iff, ← List.flatMap_def]
  constructor
  · rintro ⟨hsize, extents, _, hr, hsame, rfl⟩
    exact ⟨hsize, extents, hr, hsame⟩
  · rintro ⟨hsize, extents, hr, hsame⟩
    exact ⟨hsize, extents, u', hr, hsame, rfl⟩

/-- What a comparison that succeeds says of the node it was made for. -/
def Sound (entries : List Entry) (check : PackageModel) (got : CfbNode) : Prop :=
  ∀ ⦃position first last c u u' done⦄, Laid entries position first last c → After check done u →
    compareEntry entries check got position u = .ok u' →
    contentOf check got = .ok c ∧ After check (streamNodes got ++ done) u'

theorem compareChildren_sound (hsound : ∀ child ∈ children, Sound entries check child) {i : Nat} {part : Nat → Nat}
    (hlaid : ∀ j c, cs[j]? = some c → Laid entries (position + j) (part j) (part (j + 1)) c)
    (hlen : cs.length = children.length) (h : After check done u)
    (hr : compareChildren entries got i
      ((List.range' position children.length).zip (children.map (compared entries check))) u = .ok u') :
    contentsOf check children = .ok cs ∧ After check (children.flatMap streamNodes ++ done) u' := by
  induction children generalizing position i part cs done u with
  | nil =>
      cases hr
      rw [List.eq_nil_of_length_eq_zero hlen]
      exact ⟨rfl, h⟩
  | cons child children ih =>
      cases cs with
      | nil => cases hlen
      | cons c cs =>
          rw [List.length_cons, List.range'_succ, List.map_cons, List.zip_cons_cons, compareChildren] at hr
          obtain ⟨-, -, hr⟩ := bind_eq_ok.1 hr
          obtain ⟨v, hv, hr⟩ := bind_eq_ok.1 hr
          obtain ⟨hc, h'⟩ := hsound child List.mem_cons_self (hlaid 0 c rfl) h hv
          have hrest : ∀ j d, cs[j]? = some d →
              Laid entries (position + 1 + j) (part (j + 1)) (part (j + 1 + 1)) d := by
            intro j d hj
            have hd := hlaid (j + 1) d hj
            rwa [Nat.add_comm j 1, ← Nat.add_assoc, Nat.add_comm 1 j] at hd
          obtain ⟨hcs, h''⟩ := ih (fun child hchild => hsound child (List.mem_cons_of_mem _ hchild))
            hrest (Nat.succ.inj hlen) h' hr
          refine ⟨contentsOf_cons.2 ⟨c, cs, hc, hcs, rfl⟩, h''.perm ?_⟩
          rw [List.flatMap_cons, ← List.append_assoc]
          exact List.perm_append_comm.append_right done

theorem compareEntry_sound (hg : Geometry check) (got : CfbNode) : Sound entries check got := by
  induction got using nodeInduction with
  | h got ih =>
      intro position first last c u u' done hlaid h hr
      rw [compareEntry_eq] at hr
      cases hlaid with
      | @stream _ _ entry hentry hs hsize =>
          obtain ⟨hsame, hr⟩ := (compareWith_eq_ok hentry).1 hr
          rcases hr with ⟨hs', -⟩ | ⟨-, hr⟩
          · rw [hs] at hs'
            cases hs'
          · obtain ⟨-, extents, hresolve, hbytes⟩ := compareStream_eq_ok.1 hr
            obtain ⟨halone, h'⟩ := h.resolve hg hresolve
            have hkind : got.isStorage = false := hsame.kind ▸ hs
            rw [streamNodes_stream hkind, hsame.label, hbytes]
            exact ⟨(contentOf_stream hkind).2 ⟨extents, halone, rfl⟩, h'⟩
      | @storage _ _ _ entry cs hentry hs hchildren part hfirst hlast hc =>
          obtain ⟨hsame, hr⟩ := (compareWith_eq_ok hentry).1 hr
          rcases hr with ⟨-, hlen, hr⟩ | ⟨hs', -⟩
          · rw [hchildren] at hlen hr
            rw [List.length_range', List.length_map] at hlen
            rw [hlen] at hr
            obtain ⟨hcs, h'⟩ := compareChildren_sound ih hc hlen h hr
            have hkind : got.isStorage = true := hsame.kind ▸ hs
            rw [streamNodes_storage hkind, hsame.label]
            exact ⟨(contentOf_storage hkind).2 ⟨cs, hcs, rfl⟩, h'⟩
          · rw [hs] at hs'
            cases hs'

/-- What the writer gives back is the package that was meant, in the order of names. -/
theorem writeCfb_content {bytes out : List UInt8} {signature : Option (List UInt8)} (hparse : parse bytes = .ok m)
    (h : writeCfb m signature = .ok out) : ∃ check kept, parse out = .ok check ∧
      contentsOf m (keptChildren m) = .ok kept ∧
      Separate (.storage (labelOf m.root) (rootContents (signature.filter fun blob => blob ≠ []) kept)) ∧
      contentOf check check.root =
        .ok (Content.storage (labelOf m.root) (rootContents (signature.filter fun blob => blob ≠ []) kept)).sorted ∧
      Joint check (streamNodes check.root) := by
  simp only [writeCfb, rebuild, bind_eq_ok, pure_eq_ok, Except.ok.injEq] at h
  obtain ⟨_, ⟨entries, hflatten, laid, hlayout, rfl⟩, check, hcheck, u, hcompare, rfl⟩ := h
  obtain ⟨kept, hkept, hsep, hlaid⟩ := flatten_laid (parse_accepted hparse).geometry (parse_root hparse).1 hflatten
    (flatten_bound hparse hflatten)
  have hlaid' := Laid.of_map_core hlaid (computeLayout_core hlayout)
  obtain ⟨hcontent, hafter⟩ := compareEntry_sound (parse_accepted hcheck).geometry check.root hlaid' (After.initial check)
    hcompare
  rw [List.append_nil] at hafter
  exact ⟨check, kept, hcheck, hkept, hsep, hcontent, hafter.joint⟩

end TheSeed.CfbSelfCheck
