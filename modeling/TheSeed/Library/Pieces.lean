import TheSeed.Library.Bytes

namespace TheSeed.Pieces

open Bytes

/-! Pieces of bytes put into a byte string one after the other, each at its own offset, with zeros between them. -/

/-- An offset and the bytes that go there. -/
abbrev Piece := Nat × List UInt8

def Piece.stop (piece : Piece) : Nat := piece.1 + piece.2.length

/-- Each piece begins at or behind the end of the one before, the first one at or behind a cursor. -/
def Laid : Nat → List Piece → Prop
  | _, [] => True
  | cursor, piece :: pieces => cursor ≤ piece.1 ∧ Laid piece.stop pieces

/-- Where the last piece ends. -/
def endOf : Nat → List Piece → Nat
  | cursor, [] => cursor
  | _, piece :: pieces => endOf piece.stop pieces

/-- The byte string with a length, cut off or filled up with zeros. -/
def padded (bs : List UInt8) (length : Nat) : List UInt8 := bs.take length ++ List.replicate (length - bs.length) 0

def layOut (out : List UInt8) (pieces : List Piece) : List UInt8 :=
  pieces.foldl (fun out piece => padded out piece.1 ++ piece.2) out

variable {out tail : List UInt8} {piece : Piece} {pieces : List Piece} {cursor n i : Nat}

theorem layOut_cons (out : List UInt8) (piece : Piece) (pieces : List Piece) :
    layOut out (piece :: pieces) = layOut (padded out piece.1 ++ piece.2) pieces := rfl

theorem length_padded (h : out.length ≤ n) : (padded out n).length = n := by
  rw [padded, List.length_append, List.length_take, List.length_replicate]
  omega

theorem take_padded (h : n ≤ out.length) (hn : out.length ≤ i) : (padded out i).take n = out.take n := by
  rw [padded, List.take_of_length_le hn, List.take_append_of_le_length h]

theorem padded_padded {m : Nat} (h : out.length ≤ m) : padded (padded out m) m = padded out m := by
  conv_lhs => rw [← length_padded h, length_padded h, padded, length_padded h, Nat.sub_self, List.replicate_zero,
    List.append_nil, List.take_of_length_le (length_padded h).le]

theorem length_put (h : out.length ≤ piece.1) : (padded out piece.1 ++ piece.2).length = piece.stop := by
  rw [List.length_append, length_padded h, Piece.stop]

theorem length_layOut (h : Laid out.length pieces) : (layOut out pieces).length = endOf out.length pieces := by
  induction pieces generalizing out with
  | nil => rfl
  | cons piece pieces ih =>
      obtain ⟨hfirst, hrest⟩ := h
      rw [layOut_cons, ih (by rw [length_put hfirst]; exact hrest), length_put hfirst, endOf]

/-- What is there before the pieces stays. -/
theorem take_layOut (h : Laid out.length pieces) (hn : n ≤ out.length) : (layOut out pieces).take n = out.take n := by
  induction pieces generalizing out with
  | nil => rfl
  | cons piece pieces ih =>
      obtain ⟨hfirst, hrest⟩ := h
      have hlen := length_put hfirst
      have hle : n ≤ (padded out piece.1 ++ piece.2).length := by
        rw [hlen, Piece.stop]
        omega
      rw [layOut_cons, ih (by rw [hlen]; exact hrest) hle,
        List.take_append_of_le_length (by rw [length_padded hfirst]; omega), take_padded hn hfirst]

/-- Each piece is where it was put. -/
theorem slice_layOut (h : Laid out.length pieces) (hp : piece ∈ pieces) :
    slice (layOut out pieces) piece.1 piece.2.length = piece.2 := by
  induction pieces generalizing out with
  | nil => cases hp
  | cons first pieces ih =>
      obtain ⟨hfirst, hrest⟩ := h
      have hlen := length_put hfirst
      rw [layOut_cons]
      rcases List.mem_cons.1 hp with rfl | hp
      · have hkept := take_layOut (by rw [hlen]; exact hrest) (Nat.le_refl (padded out piece.1 ++ piece.2).length)
        rw [List.take_length] at hkept
        have hroom : piece.1 + piece.2.length ≤ (padded out piece.1 ++ piece.2).length := by rw [hlen, Piece.stop]
        rw [← slice_take hroom, hkept, slice_append_right (by rw [length_padded hfirst]), length_padded hfirst,
          Nat.sub_self, slice_all]
      · exact ih (by rw [hlen]; exact hrest) hp

/-- Between the pieces there are zeros. -/
theorem layOut_zero (h : Laid out.length pieces) (hn : out.length ≤ n) (hlt : n < endOf out.length pieces)
    (hnone : ∀ piece ∈ pieces, ¬(piece.1 ≤ n ∧ n < piece.stop)) : (layOut out pieces)[n]? = some 0 := by
  induction pieces generalizing out with
  | nil => exact absurd hlt (Nat.not_lt.2 hn)
  | cons piece pieces ih =>
      obtain ⟨hfirst, hrest⟩ := h
      obtain ⟨hpiece, hothers⟩ := List.forall_mem_cons.1 hnone
      have hlen := length_put hfirst
      rw [layOut_cons]
      by_cases hgap : n < piece.stop
      · have hkept := take_layOut (by rw [hlen]; exact hrest) (Nat.le_refl (padded out piece.1 ++ piece.2).length)
        have hbefore : n < piece.1 := by
          by_contra hge
          exact hpiece ⟨Nat.not_lt.1 hge, hgap⟩
        have hzeros : n - out.length < piece.1 - out.length := by omega
        have hin : n < (padded out piece.1 ++ piece.2).length := by rwa [hlen]
        rw [List.take_length] at hkept
        rw [← List.getElem?_take_of_lt hin, hkept,
          List.getElem?_append_left (by rw [length_padded hfirst]; exact hbefore), padded, List.take_of_length_le hfirst,
          List.getElem?_append_right hn, List.getElem?_replicate_of_lt hzeros]
      · exact ih (by rw [hlen]; exact hrest) (by rw [hlen]; omega) (by rw [hlen]; exact hlt) hothers

theorem le_endOf (h : Laid cursor pieces) : cursor ≤ endOf cursor pieces := by
  induction pieces generalizing cursor with
  | nil => exact Nat.le_refl _
  | cons piece pieces ih =>
      obtain ⟨hfirst, hrest⟩ := h
      have hstop : piece.1 ≤ piece.stop := Nat.le_add_right _ _
      exact (hfirst.trans hstop).trans (ih hrest)

theorem stop_le_endOf (h : Laid cursor pieces) (hp : piece ∈ pieces) : piece.stop ≤ endOf cursor pieces := by
  induction pieces generalizing cursor with
  | nil => cases hp
  | cons first pieces ih =>
      obtain ⟨-, hrest⟩ := h
      rcases List.mem_cons.1 hp with rfl | hp
      · exact le_endOf hrest
      · exact ih hrest hp

theorem exists_stop_eq_endOf (hne : pieces ≠ []) (cursor : Nat) : ∃ piece ∈ pieces, piece.stop = endOf cursor pieces := by
  induction pieces generalizing cursor with
  | nil => exact absurd rfl hne
  | cons piece pieces ih =>
      cases pieces with
      | nil => exact ⟨piece, List.mem_cons_self, rfl⟩
      | cons next pieces =>
          obtain ⟨last, hlast, hstop⟩ := ih (by simp) piece.stop
          exact ⟨last, List.mem_cons_of_mem _ hlast, hstop⟩

theorem start_le (h : Laid cursor pieces) (hp : piece ∈ pieces) : cursor ≤ piece.1 := by
  induction pieces generalizing cursor with
  | nil => cases hp
  | cons first pieces ih =>
      obtain ⟨hfirst, hrest⟩ := h
      rcases List.mem_cons.1 hp with rfl | hp
      · exact hfirst
      · have hstop : first.1 ≤ first.stop := Nat.le_add_right _ _
        exact (hfirst.trans hstop).trans (ih hrest hp)

theorem Laid.pairwise (h : Laid cursor pieces) : pieces.Pairwise fun a b => a.stop ≤ b.1 := by
  induction pieces generalizing cursor with
  | nil => exact .nil
  | cons piece pieces ih => exact .cons (fun other hother => start_le h.2 hother) (ih h.2)

/-- The last piece ends behind all the others. -/
theorem foldl_max_stop (h : Laid cursor pieces) (hn : n ≤ cursor) (hne : pieces ≠ []) :
    (pieces.map Piece.stop).foldl max n = endOf cursor pieces := by
  induction pieces generalizing cursor n with
  | nil => exact absurd rfl hne
  | cons piece pieces ih =>
      obtain ⟨hfirst, hrest⟩ := h
      have hstop : piece.1 ≤ piece.stop := Nat.le_add_right _ _
      rw [List.map_cons, List.foldl_cons, Nat.max_eq_right (by omega), endOf]
      cases pieces with
      | nil => rfl
      | cons next pieces => exact ih hrest (Nat.le_refl _) (by simp)

theorem padded_of_le (h : out.length ≤ n) : padded out n = out ++ List.replicate (n - out.length) 0 := by
  rw [padded, List.take_of_length_le h]

/-- What is written before the pieces may be written before or after they are laid. -/
theorem overwriteAll_layOut {fields : List (Nat × List UInt8)} (h : Laid out.length pieces)
    (hfields : ∀ field ∈ fields, field.1 + field.2.length ≤ out.length) :
    overwriteAll (layOut out pieces) fields = layOut (overwriteAll out fields) pieces := by
  induction pieces generalizing out with
  | nil => rfl
  | cons piece pieces ih =>
      obtain ⟨hfirst, hrest⟩ := h
      have hput : padded (overwriteAll out fields) piece.1 ++ piece.2 =
          overwriteAll (padded out piece.1 ++ piece.2) fields := by
        rw [padded_of_le (by rw [length_overwriteAll]; exact hfirst), padded_of_le hfirst, length_overwriteAll,
          List.append_assoc, List.append_assoc, overwriteAll_append_left hfields]
      rw [layOut_cons, layOut_cons, hput]
      refine ih (by rw [length_put hfirst]; exact hrest) fun field hfield => ?_
      rw [length_put hfirst, Piece.stop]
      exact (hfields field hfield).trans (hfirst.trans (Nat.le_add_right _ _))

/-- Filling up to the first piece is done by laying it. -/
theorem layOut_padded (h : out.length ≤ piece.1) :
    layOut (padded out piece.1) (piece :: pieces) = layOut out (piece :: pieces) := by
  rw [layOut_cons, layOut_cons, padded_padded h]

theorem take_layOut_first (h : Laid out.length (piece :: pieces)) :
    (layOut out (piece :: pieces)).take piece.1 = padded out piece.1 := by
  obtain ⟨hfirst, hrest⟩ := h
  have hlen := length_padded hfirst
  rw [layOut_cons, take_layOut (by rw [length_put hfirst]; exact hrest) (by rw [length_put hfirst]; exact Nat.le_add_right _ _),
    List.take_left' hlen]

end TheSeed.Pieces
