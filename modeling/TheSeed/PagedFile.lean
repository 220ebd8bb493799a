import TheSeed.BoundedBytes

namespace TheSeed.PagedFile

open Bytes

/-! A file that is read in pages: a page is read the first time a byte in it is asked for, and stays. The file does not
change while it is open. -/

variable {file : List UInt8} {offset length index count : Nat}

def kPageSize : Nat := 64 * 1024

/-- The pages that were read. -/
abbrev Pages := Nat → Option (List UInt8)

def Pages.none : Pages := fun _ => Option.none

/-- `Page`: the bytes of a page, and the pages that are there afterwards. -/
def page (file : List UInt8) (index : Nat) (pages : Pages) : List UInt8 × Pages :=
  match pages index with
  | some bytes => (bytes, pages)
  | none =>
      let start := index * kPageSize
      let bytes := slice file start (min kPageSize (file.length - start))
      (bytes, Function.update pages index (some bytes))

/-- The parts that so many pages from `index` on have of a range, one after the other. -/
def together (file : List UInt8) (offset length : Nat) : Nat → Nat → Pages → List UInt8 × Pages
  | 0, _, pages => ([], pages)
  | count + 1, index, pages =>
      let found := page file index pages
      let pageStart := index * kPageSize
      let first := max offset pageStart - pageStart
      let last := min (offset + length) (pageStart + kPageSize) - pageStart
      let rest := together file offset length count (index + 1) found.2
      (slice found.1 first (last - first) ++ rest.1, rest.2)

/-- `Ensure`: the bytes of a range, and the pages that are there afterwards. -/
def ensure (file : List UInt8) (offset length : Nat) (pages : Pages) : List UInt8 × Pages :=
  if length = 0 then ([], pages)
  else
    let first := offset / kPageSize
    let last := (offset + length - 1) / kPageSize
    if first = last then
      let found := page file first pages
      (slice found.1 (offset - first * kPageSize) length, found.2)
    else together file offset length (last - first + 1) first pages

/-- What a view of the whole file holds. -/
def data (file : List UInt8) : List UInt8 := (ensure file 0 file.length .none).1

/-- Every page that is there has the bytes of the file. -/
def Sound (file : List UInt8) (pages : Pages) : Prop :=
  ∀ index bytes, pages index = some bytes → bytes = slice file (index * kPageSize) kPageSize

variable {pages : Pages}

theorem Sound.none (file : List UInt8) : Sound file .none := nofun

theorem slice_min (bs : List UInt8) (offset length : Nat) :
    slice bs offset (min length (bs.length - offset)) = slice bs offset length := by
  rw [slice, slice, List.take_eq_take_iff, List.length_drop]
  omega

theorem page_sound (h : Sound file pages) (index : Nat) :
    (page file index pages).1 = slice file (index * kPageSize) kPageSize ∧ Sound file (page file index pages).2 := by
  rw [page]
  split
  · rename_i bytes hbytes
    exact ⟨h index bytes hbytes, h⟩
  · refine ⟨slice_min _ _ _, fun i bytes hbytes => ?_⟩
    simp only at hbytes
    by_cases hi : i = index
    · subst hi
      rw [Function.update_self] at hbytes
      cases hbytes
      exact slice_min _ _ _
    · rw [Function.update_of_ne hi] at hbytes
      exact h i bytes hbytes

theorem kPageSize_pos : 0 < kPageSize := by decide

/-- The parts of consecutive pages make up the range from the first page on. -/
theorem together_sound (h : Sound file pages) (hfirst : offset < (index + 1) * kPageSize)
    (hstarts : 0 < count → (index + count - 1) * kPageSize < offset + length)
    (hends : offset + length ≤ (index + count) * kPageSize) :
    (together file offset length count index pages).1 =
        slice file (max offset (index * kPageSize)) (offset + length - max offset (index * kPageSize)) ∧
      Sound file (together file offset length count index pages).2 := by
  induction count generalizing index pages with
  | zero =>
      have hnone : offset + length - max offset (index * kPageSize) = 0 := by
        rw [Nat.add_zero] at hends
        omega
      rw [together, hnone, slice_zero_length]
      exact ⟨rfl, h⟩
  | succ count ih =>
      obtain ⟨hpage, hsound⟩ := page_sound h index
      have hpred : index + (count + 1) - 1 = index + count := by omega
      have hsum : index + (count + 1) = index + 1 + count := by omega
      have hnext : (index + 1) * kPageSize = index * kPageSize + kPageSize := Nat.succ_mul _ _
      rw [hpred] at hstarts
      rw [hsum] at hends
      have hstart : index * kPageSize < offset + length :=
        (Nat.mul_le_mul_right _ (Nat.le_add_right _ _)).trans_lt (hstarts count.succ_pos)
      have hbefore : 0 < count → (index + 1 + count - 1) * kPageSize < offset + length := by
        intro _
        rw [Nat.add_right_comm, Nat.add_sub_cancel]
        exact hstarts count.succ_pos
      obtain ⟨hrest, hsound'⟩ := @ih (index + 1) (page file index pages).2 hsound
        (hfirst.trans (Nat.mul_lt_mul_of_pos_right (by omega) kPageSize_pos)) hbefore hends
      rw [together]
      refine ⟨?_, hsound'⟩
      simp only [hpage, hrest]
      rw [hnext] at hfirst ⊢
      generalize index * kPageSize = start at *
      rw [slice_slice (by omega), Nat.add_sub_cancel' (Nat.le_max_right _ _), Nat.max_eq_right hfirst.le]
      by_cases hend : offset + length ≤ start + kPageSize
      · rw [Nat.min_eq_left hend, Nat.sub_eq_zero_of_le hend, slice_zero_length, List.append_nil]
        congr 1
        omega
      · rw [Nat.min_eq_right (by omega)]
        have hcut : start + kPageSize - start - (max offset start - start) = start + kPageSize - max offset start := by
          omega
        obtain ⟨n, hn⟩ := Nat.exists_eq_add_of_le (show max offset start ≤ start + kPageSize by omega)
        rw [hcut, hn, Nat.add_sub_cancel_left, slice_append_slice]
        congr 1
        omega

/-- A range that is asked for is the range of the file, whatever was read before. -/
theorem ensure_sound (h : Sound file pages) (offset length : Nat) :
    (ensure file offset length pages).1 = slice file offset length ∧ Sound file (ensure file offset length pages).2 := by
  rw [ensure]
  split
  · rename_i hzero
    rw [hzero, slice_zero_length]
    exact ⟨rfl, h⟩
  · rename_i hpos
    have hbelow : offset / kPageSize * kPageSize ≤ offset := Nat.div_mul_le_self _ _
    have habove : offset < (offset / kPageSize + 1) * kPageSize := by
      rw [Nat.succ_mul]
      exact Nat.lt_div_mul_add kPageSize_pos
    have hlast : (offset + length - 1) / kPageSize * kPageSize ≤ offset + length - 1 := Nat.div_mul_le_self _ _
    have hpast : offset + length - 1 < ((offset + length - 1) / kPageSize + 1) * kPageSize := by
      rw [Nat.succ_mul]
      exact Nat.lt_div_mul_add kPageSize_pos
    have hle : offset / kPageSize ≤ (offset + length - 1) / kPageSize := Nat.div_le_div_right (by omega)
    simp only
    split
    · rename_i hsame
      obtain ⟨hpage, hsound⟩ := page_sound h (offset / kPageSize)
      refine ⟨?_, hsound⟩
      rw [← hsame, Nat.succ_mul] at hpast
      rw [hpage, slice_slice (by omega), Nat.add_sub_cancel' hbelow]
    · have hcount : offset / kPageSize + ((offset + length - 1) / kPageSize - offset / kPageSize + 1) =
          (offset + length - 1) / kPageSize + 1 := by omega
      obtain ⟨hbytes, hsound⟩ := @together_sound file offset length (offset / kPageSize)
        ((offset + length - 1) / kPageSize - offset / kPageSize + 1) pages h habove
        (fun _ => by
          rw [hcount, Nat.add_sub_cancel]
          omega)
        (by
          rw [hcount]
          omega)
      rw [Nat.max_eq_left hbelow, Nat.add_sub_cancel_left] at hbytes
      exact ⟨hbytes, hsound⟩

theorem data_eq (file : List UInt8) : data file = file := by
  rw [data, (ensure_sound (Sound.none file) _ _).1, slice_all]

end TheSeed.PagedFile
