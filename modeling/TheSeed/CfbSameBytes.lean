import TheSeed.CfbSelfCheck

namespace TheSeed.CfbSameBytes

open Bytes CfbWriter CfbSelfCheck

/-! The comparison of two lists of pieces, with its two cursors. -/

/-- The position of a piece and how much of it is used. -/
structure Cursor where
  piece : Nat := 0
  used : Nat := 0
  deriving DecidableEq

structure Cursors where
  a : Cursor := {}
  b : Cursor := {}
  deriving DecidableEq

/-- The cursor behind so many more bytes of its piece. -/
def Cursor.advance (cursor : Cursor) (piece : Piece) (take : Nat) : Cursor :=
  if cursor.used + take = piece.length then ⟨cursor.piece + 1, 0⟩ else ⟨cursor.piece, cursor.used + take⟩

/-- What a round of the loop does. -/
inductive Round
  | again (s : Cursors)
  | left (s : Cursors)
  | differs

def compareRound (a b : List Piece) (s : Cursors) : Round :=
  match a[s.a.piece]?, b[s.b.piece]? with
  | some x, some y =>
      let take := min (x.length - s.a.used) (y.length - s.b.used)
      if take ≠ 0 ∧ slice x s.a.used take ≠ slice y s.b.used take then .differs
      else .again ⟨s.a.advance x take, s.b.advance y take⟩
  | _, _ => .left s

/-- The position behind the empty pieces at `i`. -/
def skipEmpty (pieces : List Piece) (i : Nat) : Nat := i + ((pieces.drop i).takeWhile List.isEmpty).length

/-- What the function returns, when the loop ends in so many rounds. -/
def sameFrom (a b : List Piece) : Nat → Cursors → Option Bool
  | 0, _ => none
  | rounds + 1, s =>
      match compareRound a b s with
      | .again s => sameFrom a b rounds s
      | .left s => some (decide (skipEmpty a s.a.piece = a.length) && decide (skipEmpty b s.b.piece = b.length))
      | .differs => some false

/-- The bytes that a cursor has before it. -/
def remaining (pieces : List Piece) (cursor : Cursor) : List UInt8 :=
  (pieces.drop cursor.piece).flatten.drop cursor.used

/-- A cursor is inside its piece, or at its start, and behind the last piece nothing is used. -/
structure Valid (pieces : List Piece) (cursor : Cursor) : Prop where
  piece : cursor.piece ≤ pieces.length
  used : cursor.used = 0 ∨ ∃ x, pieces[cursor.piece]? = some x ∧ cursor.used < x.length

section cursors

variable {pieces : List Piece} {cursor : Cursor} {x : Piece} {take : Nat}

theorem Valid.used_le (h : Valid pieces cursor) (hx : pieces[cursor.piece]? = some x) : cursor.used ≤ x.length := by
  rcases h.used with hzero | ⟨y, hy, hlt⟩
  · rw [hzero]
    exact Nat.zero_le _
  · rw [hx] at hy
    cases hy
    exact hlt.le

theorem drop_piece (hx : pieces[cursor.piece]? = some x) :
    pieces.drop cursor.piece = x :: pieces.drop (cursor.piece + 1) := by
  obtain ⟨hlt, rfl⟩ := List.getElem?_eq_some_iff.mp hx
  exact List.drop_eq_getElem_cons hlt

theorem remaining_piece (h : Valid pieces cursor) (hx : pieces[cursor.piece]? = some x) :
    remaining pieces cursor = x.drop cursor.used ++ (pieces.drop (cursor.piece + 1)).flatten := by
  rw [remaining, drop_piece hx, List.flatten_cons, List.drop_append_of_le_length (h.used_le hx)]

theorem take_remaining (h : Valid pieces cursor) (hx : pieces[cursor.piece]? = some x)
    (htake : take ≤ x.length - cursor.used) : (remaining pieces cursor).take take = slice x cursor.used take := by
  rw [remaining_piece h hx, List.take_append_of_le_length (by rwa [List.length_drop])]
  rfl

theorem remaining_advance (h : Valid pieces cursor) (hx : pieces[cursor.piece]? = some x)
    (htake : take ≤ x.length - cursor.used) :
    remaining pieces (cursor.advance x take) = (remaining pieces cursor).drop take := by
  have hused := h.used_le hx
  rw [remaining_piece h hx, List.drop_append_of_le_length (by rwa [List.length_drop]), List.drop_drop, Cursor.advance]
  split
  · next hend => rw [hend, List.drop_length, List.nil_append]; rfl
  · have hle : cursor.used + take ≤ x.length := by omega
    rw [remaining, drop_piece hx, List.flatten_cons, List.drop_append_of_le_length hle]

theorem valid_advance (h : Valid pieces cursor) (hx : pieces[cursor.piece]? = some x)
    (htake : take ≤ x.length - cursor.used) : Valid pieces (cursor.advance x take) := by
  have hused := h.used_le hx
  have hlt := (List.getElem?_eq_some_iff.mp hx).1
  rw [Cursor.advance]
  split
  · exact ⟨hlt, .inl rfl⟩
  · next hinside =>
    have hle : cursor.used + take ≤ x.length := by omega
    exact ⟨h.piece, .inr ⟨x, hx, Nat.lt_of_le_of_ne hle hinside⟩⟩

/-- Behind the last piece nothing is left. -/
theorem remaining_end (hx : pieces[cursor.piece]? = none) : remaining pieces cursor = [] := by
  rw [remaining, List.drop_of_length_le (List.getElem?_eq_none_iff.mp hx), List.flatten_nil, List.drop_nil]

theorem skipEmpty_eq_length (h : cursor.piece ≤ pieces.length) :
    skipEmpty pieces cursor.piece = pieces.length ↔ (pieces.drop cursor.piece).flatten = [] := by
  have hsplit := congrArg List.length (@List.takeWhile_append_dropWhile _ List.isEmpty (pieces.drop cursor.piece))
  rw [List.length_append, List.length_drop] at hsplit
  rw [← dropWhile_isEmpty_eq_nil, ← List.length_eq_zero_iff, skipEmpty]
  omega

/-- Only empty pieces are left when nothing remains. -/
theorem skipEmpty_end (h : Valid pieces cursor) :
    skipEmpty pieces cursor.piece = pieces.length ↔ remaining pieces cursor = [] := by
  rw [skipEmpty_eq_length h.piece, remaining]
  rcases h.used with hzero | ⟨x, hx, hlt⟩
  · rw [hzero, List.drop_zero]
  · rw [drop_piece hx, List.flatten_cons, List.drop_append_of_le_length hlt.le]
    have hpiece : x ≠ [] := by
      rintro rfl
      exact absurd hlt (Nat.not_lt_zero _)
    have hrest : x.drop cursor.used ≠ [] := fun hnil => absurd (List.drop_eq_nil_iff.mp hnil) (Nat.not_le.mpr hlt)
    simp [hpiece, hrest]

/-- A round that uses up a piece comes nearer to the end. -/
def piecesLeft (pieces : List Piece) (cursor : Cursor) : Nat := pieces.length - cursor.piece

theorem piecesLeft_advance (hx : pieces[cursor.piece]? = some x) :
    piecesLeft pieces (cursor.advance x take) ≤ piecesLeft pieces cursor ∧
      (cursor.used + take = x.length → piecesLeft pieces (cursor.advance x take) < piecesLeft pieces cursor) := by
  have hlt := (List.getElem?_eq_some_iff.mp hx).1
  rw [Cursor.advance]
  split
  · exact ⟨Nat.sub_le_sub_left (Nat.le_succ _) _, fun _ => Nat.sub_succ_lt_self _ _ hlt⟩
  · next hinside => exact ⟨Nat.le_refl _, fun hend => absurd hend hinside⟩

end cursors

variable {a b : List Piece} {s after : Cursors}

theorem eq_iff_take_drop {xs ys : List UInt8} (n : Nat) : xs = ys ↔ xs.take n = ys.take n ∧ xs.drop n = ys.drop n := by
  constructor
  · rintro rfl
    exact ⟨rfl, rfl⟩
  · rintro ⟨htake, hdrop⟩
    rw [← List.take_append_drop n xs, ← List.take_append_drop n ys, htake, hdrop]

/-- All that a round can do: the remaining bytes are equal behind it when they were before it. -/
theorem compareRound_cases (ha : Valid a s.a) (hb : Valid b s.b) :
    (∃ after, compareRound a b s = .again after ∧ Valid a after.a ∧ Valid b after.b ∧
      (remaining a after.a = remaining b after.b ↔ remaining a s.a = remaining b s.b) ∧
      piecesLeft a after.a + piecesLeft b after.b < piecesLeft a s.a + piecesLeft b s.b) ∨
    compareRound a b s = .left s ∧ (remaining a s.a = [] ∨ remaining b s.b = []) ∨
    compareRound a b s = .differs ∧ remaining a s.a ≠ remaining b s.b := by
  cases hx : a[s.a.piece]? with
  | none =>
    refine .inr (.inl ⟨?_, .inl (remaining_end hx)⟩)
    rw [compareRound, hx]
  | some x =>
    cases hy : b[s.b.piece]? with
    | none =>
      refine .inr (.inl ⟨?_, .inr (remaining_end hy)⟩)
      rw [compareRound, hx, hy]
    | some y =>
      have htx := Nat.min_le_left (x.length - s.a.used) (y.length - s.b.used)
      have hty := Nat.min_le_right (x.length - s.a.used) (y.length - s.b.used)
      have hround : compareRound a b s =
          if min (x.length - s.a.used) (y.length - s.b.used) ≠ 0 ∧
            slice x s.a.used (min (x.length - s.a.used) (y.length - s.b.used)) ≠
              slice y s.b.used (min (x.length - s.a.used) (y.length - s.b.used)) then .differs
          else .again ⟨s.a.advance x (min (x.length - s.a.used) (y.length - s.b.used)),
            s.b.advance y (min (x.length - s.a.used) (y.length - s.b.used))⟩ := by
        rw [compareRound, hx, hy]
      -- one of the two pieces is used up
      have hend : s.a.used + min (x.length - s.a.used) (y.length - s.b.used) = x.length ∨
          s.b.used + min (x.length - s.a.used) (y.length - s.b.used) = y.length := by
        have hax := ha.used_le hx
        have hby := hb.used_le hy
        omega
      generalize min (x.length - s.a.used) (y.length - s.b.used) = take at htx hty hround hend
      have hsplit := @eq_iff_take_drop (remaining a s.a) (remaining b s.b) take
      rw [take_remaining ha hx htx, take_remaining hb hy hty] at hsplit
      by_cases hdiffers : take ≠ 0 ∧ slice x s.a.used take ≠ slice y s.b.used take
      · refine .inr (.inr ⟨hround.trans (if_pos hdiffers), fun heq => hdiffers.2 (hsplit.mp heq).1⟩)
      · have hsame : slice x s.a.used take = slice y s.b.used take := by
          by_cases hzero : take = 0
          · rw [hzero]
            rfl
          · by_contra hne
            exact hdiffers ⟨hzero, hne⟩
        refine .inl ⟨_, hround.trans (if_neg hdiffers), valid_advance ha hx htx, valid_advance hb hy hty, ?_, ?_⟩
        · rw [remaining_advance ha hx htx, remaining_advance hb hy hty, hsplit]
          exact ⟨fun hdrop => ⟨hsame, hdrop⟩, And.right⟩
        · obtain ⟨hale, halt⟩ := @piecesLeft_advance a s.a x take hx
          obtain ⟨hble, hblt⟩ := @piecesLeft_advance b s.b y take hy
          rcases hend with hend | hend
          · exact Nat.add_lt_add_of_lt_of_le (halt hend) hble
          · exact Nat.add_lt_add_of_le_of_lt hale (hblt hend)

/-- The comparison of what the cursors have before them ends, and in no more rounds than there are pieces left. -/
theorem sameFrom_spec (rounds : Nat) : ∀ {s : Cursors}, Valid a s.a → Valid b s.b →
    piecesLeft a s.a + piecesLeft b s.b < rounds →
    ∃ same, sameFrom a b rounds s = some same ∧ (same = true ↔ remaining a s.a = remaining b s.b) := by
  induction rounds with
  | zero => exact fun _ _ h => absurd h (Nat.not_lt_zero _)
  | succ rounds ih =>
    intro s ha hb hrounds
    unfold sameFrom
    obtain ⟨after, hagain, ha', hb', hsame, hless⟩ | ⟨hleft, hdone⟩ | ⟨hdiffers, hne⟩ := compareRound_cases ha hb
    · rw [hagain, ← hsame]
      exact ih ha' hb' (by omega)
    · rw [hleft]
      refine ⟨_, rfl, ?_⟩
      rw [Bool.and_eq_true, decide_eq_true_eq, decide_eq_true_eq, skipEmpty_end ha, skipEmpty_end hb]
      constructor
      · rintro ⟨hnil, hnil'⟩
        rw [hnil, hnil']
      · intro heq
        rcases hdone with hnil | hnil
        · exact ⟨hnil, by rw [← heq, hnil]⟩
        · exact ⟨by rw [heq, hnil], hnil⟩
    · rw [hdiffers]
      exact ⟨false, rfl, by simpa using hne⟩

/-- The comparison ends, from some number of rounds on, and says whether the bytes are the same. -/
theorem same_bytes (a b : List Piece) : ∃ rounds same, (∀ more, rounds ≤ more → sameFrom a b more {} = some same) ∧
    (same = true ↔ a.flatten = b.flatten) := by
  have hstart (pieces : List Piece) : Valid pieces {} := ⟨Nat.zero_le _, .inl rfl⟩
  have hspec (rounds : Nat) (h : a.length + b.length < rounds) :
      ∃ same, sameFrom a b rounds {} = some same ∧ (same = true ↔ a.flatten = b.flatten) :=
    sameFrom_spec rounds (hstart a) (hstart b) h
  obtain ⟨same, -, hiff⟩ := hspec (a.length + b.length + 1) (Nat.lt_succ_self _)
  refine ⟨a.length + b.length + 1, same, fun more hmore => ?_, hiff⟩
  obtain ⟨other, hother, hiff'⟩ := hspec more hmore
  rw [hother, Option.some.injEq, Bool.eq_iff_iff, hiff', hiff]

/-- The comparison of the self-check is this one. -/
theorem sameFrom_eq_sameBytes {rounds : Nat} (h : a.length + b.length < rounds) :
    sameFrom a b rounds {} = some (sameBytes a b) := by
  have hstart (pieces : List Piece) : Valid pieces {} := ⟨Nat.zero_le _, .inl rfl⟩
  obtain ⟨same, hsame, hiff⟩ := @sameFrom_spec a b rounds {} (hstart a) (hstart b) h
  rw [hsame, Option.some.injEq, Bool.eq_iff_iff, sameBytes_iff]
  exact hiff

example : sameFrom [[], [1, 2], [], [3]] [[1], [2, 3], []] 8 {} = some true := by decide

end TheSeed.CfbSameBytes
