import Mathlib.Tactic.Ring
import Mathlib.Data.List.Basic

namespace TheSeed.Bytes

/-! Byte strings as lists: fixed-width integers, slices, and writes in place. -/

/-- The number a little-endian byte string stands for. -/
def leValue : List UInt8 → Nat
  | [] => 0
  | b :: bs => b.toNat + 256 * leValue bs

/-- The lowest `w` bytes of a number, lowest first; higher bits are dropped. -/
def leBytes : Nat → Nat → List UInt8
  | 0, _ => []
  | w + 1, n => UInt8.ofNat n :: leBytes w (n / 256)

def beValue (bs : List UInt8) : Nat := leValue bs.reverse

def beBytes (w n : Nat) : List UInt8 := (leBytes w n).reverse

@[simp] theorem length_leBytes (w n : Nat) : (leBytes w n).length = w := by
  induction w generalizing n with
  | zero => rfl
  | succ w ih => simp [leBytes, ih]

@[simp] theorem length_beBytes (w n : Nat) : (beBytes w n).length = w := by
  simp [beBytes]

theorem leValue_lt (bs : List UInt8) : leValue bs < 256 ^ bs.length := by
  induction bs with
  | nil => simp [leValue]
  | cons b bs ih =>
      have hb : b.toNat < 256 := b.toNat_lt
      rw [leValue, List.length_cons, pow_succ]
      omega

theorem beValue_lt (bs : List UInt8) : beValue bs < 256 ^ bs.length := by
  have h := leValue_lt bs.reverse
  rwa [List.length_reverse] at h

theorem leValue_leBytes (w n : Nat) : leValue (leBytes w n) = n % 256 ^ w := by
  induction w generalizing n with
  | zero => simp [leBytes, leValue, Nat.mod_one]
  | succ w ih =>
      rw [leBytes, leValue, ih, pow_succ', Nat.mod_mul]
      simp

theorem leValue_leBytes_of_lt {w n : Nat} (h : n < 256 ^ w) : leValue (leBytes w n) = n := by
  rw [leValue_leBytes, Nat.mod_eq_of_lt h]

/-- A narrower field of a number is the low part of a wider one. -/
theorem take_leBytes {v w n : Nat} (h : v ≤ w) : (leBytes w n).take v = leBytes v n := by
  induction v generalizing w n with
  | zero => rfl
  | succ v ih =>
      obtain ⟨w, rfl⟩ := Nat.exists_eq_add_of_lt h
      rw [leBytes, leBytes, List.take_succ_cons, ih (Nat.le_add_right v w)]

theorem beValue_beBytes_of_lt {w n : Nat} (h : n < 256 ^ w) : beValue (beBytes w n) = n := by
  rw [beValue, beBytes, List.reverse_reverse, leValue_leBytes_of_lt h]

theorem leBytes_leValue (bs : List UInt8) : leBytes bs.length (leValue bs) = bs := by
  induction bs with
  | nil => rfl
  | cons b bs ih =>
      have hb : b.toNat < 256 := b.toNat_lt
      rw [List.length_cons, leBytes, leValue]
      congr 1
      · apply UInt8.toNat_inj.mp
        simp
      · rw [Nat.add_mul_div_left _ _ (by decide), Nat.div_eq_of_lt hb, Nat.zero_add, ih]

theorem leValue_replicate_zero (n : Nat) : leValue (List.replicate n 0) = 0 := by
  induction n with
  | zero => rfl
  | succ n ih => simp [List.replicate_succ, leValue, ih]

/-- The bytes `[offset, offset + length)`, as many of them as there are. -/
def slice (bs : List UInt8) (offset length : Nat) : List UInt8 := (bs.drop offset).take length

@[simp] theorem length_slice (bs : List UInt8) (offset length : Nat) :
    (slice bs offset length).length = min length (bs.length - offset) := by
  simp [slice]

theorem length_slice_of_le {bs : List UInt8} {offset length : Nat} (h : offset + length ≤ bs.length) :
    (slice bs offset length).length = length := by
  simp only [length_slice]
  omega

theorem getElem?_slice (bs : List UInt8) (offset length i : Nat) :
    (slice bs offset length)[i]? = if i < length then bs[offset + i]? else none := by
  rw [slice, List.getElem?_take]
  split <;> simp

theorem slice_zero_length (bs : List UInt8) (offset : Nat) : slice bs offset 0 = [] := by
  simp [slice]

theorem slice_all (bs : List UInt8) : slice bs 0 bs.length = bs := by
  simp [slice]

theorem slice_zero (bs : List UInt8) (n : Nat) : slice bs 0 n = bs.take n := by
  simp [slice]

theorem slice_slice {bs : List UInt8} {offset length i n : Nat} (h : i + n ≤ length) :
    slice (slice bs offset length) i n = slice bs (offset + i) n := by
  apply List.ext_getElem?
  intro k
  simp only [getElem?_slice]
  by_cases hk : k < n
  · have hik : i + k < length := by omega
    simp [hk, hik, Nat.add_assoc]
  · simp [hk]

theorem slice_append_slice (bs : List UInt8) (offset m n : Nat) :
    slice bs offset m ++ slice bs (offset + m) n = slice bs offset (m + n) := by
  simp only [slice]
  rw [List.take_add, List.drop_drop]

theorem slice_append_left {xs ys : List UInt8} {offset length : Nat} (h : offset + length ≤ xs.length) :
    slice (xs ++ ys) offset length = slice xs offset length := by
  apply List.ext_getElem?
  intro k
  simp only [getElem?_slice]
  split
  · rw [List.getElem?_append_left (by omega)]
  · rfl

theorem slice_append_right {xs ys : List UInt8} {offset length : Nat} (h : xs.length ≤ offset) :
    slice (xs ++ ys) offset length = slice ys (offset - xs.length) length := by
  apply List.ext_getElem?
  intro k
  simp only [getElem?_slice]
  split
  · rw [List.getElem?_append_right (by omega)]
    congr 1
    omega
  · rfl

theorem slice_take {bs : List UInt8} {offset length n : Nat} (h : offset + length ≤ n) :
    slice (bs.take n) offset length = slice bs offset length := by
  apply List.ext_getElem?
  intro k
  simp only [getElem?_slice, List.getElem?_take]
  split
  · rw [if_pos (by omega)]
  · rfl

/-- One of many parts of one length, laid end to end. -/
theorem slice_flatMap_range {f : Nat → List UInt8} {w d n : Nat} (hlength : ∀ i, (f i).length = w) (h : d < n) :
    slice ((List.range n).flatMap f) (d * w) w = f d := by
  induction n with
  | zero => exact absurd h (Nat.not_lt_zero d)
  | succ n ih =>
      have hbefore : ((List.range n).flatMap f).length = n * w := by simp [hlength]
      rw [List.range_succ, List.flatMap_append, List.flatMap_cons, List.flatMap_nil, List.append_nil]
      obtain hlt | rfl := Nat.lt_succ_iff_lt_or_eq.1 h
      · rw [slice_append_left, ih hlt]
        rw [hbefore, ← Nat.succ_mul]
        exact Nat.mul_le_mul_right w hlt
      · rw [slice_append_right (le_of_eq hbefore), hbefore, Nat.sub_self, ← hlength d, slice_all]

theorem slice_replicate {n offset length : Nat} {b : UInt8} (h : offset + length ≤ n) :
    slice (List.replicate n b) offset length = List.replicate length b := by
  simp only [slice, List.drop_replicate, List.take_replicate]
  congr 1
  omega

/-- The byte string with `data` put over the bytes at `offset`; what would fall behind the end is
lost, so the length never changes. -/
def overwrite (bs : List UInt8) (offset : Nat) (data : List UInt8) : List UInt8 :=
  (bs.take offset ++ data ++ bs.drop (offset + data.length)).take bs.length

@[simp] theorem length_overwrite (bs data : List UInt8) (offset : Nat) :
    (overwrite bs offset data).length = bs.length := by
  simp only [overwrite, List.length_append, List.length_take, List.length_drop]
  omega

theorem getElem?_overwrite (bs data : List UInt8) (offset i : Nat) :
    (overwrite bs offset data)[i]? =
      if offset ≤ i ∧ i < offset + data.length ∧ i < bs.length then data[i - offset]? else bs[i]? := by
  by_cases hlen : i < bs.length
  · rw [overwrite, List.getElem?_take, if_pos hlen, List.append_assoc, List.getElem?_append,
      List.length_take]
    by_cases hi : i < offset
    · rw [if_pos (by omega), if_neg (by omega), List.getElem?_take, if_pos hi]
    · rw [if_neg (by omega), List.getElem?_append]
      by_cases hj : i < offset + data.length
      · rw [if_pos (by omega), if_pos (by omega)]
        congr 1
        omega
      · rw [if_neg (by omega), if_neg (by omega), List.getElem?_drop]
        congr 1
        omega
  · rw [if_neg (by omega), List.getElem?_eq_none (by rw [length_overwrite]; omega),
      List.getElem?_eq_none (by omega)]

theorem overwrite_of_le {bs data : List UInt8} {offset : Nat} (h : offset + data.length ≤ bs.length) :
    overwrite bs offset data = bs.take offset ++ data ++ bs.drop (offset + data.length) := by
  rw [overwrite, List.take_of_length_le]
  simp only [List.length_append, List.length_take, List.length_drop]
  omega

theorem slice_overwrite_self {bs data : List UInt8} {offset : Nat} (h : offset + data.length ≤ bs.length) :
    slice (overwrite bs offset data) offset data.length = data := by
  apply List.ext_getElem?
  intro k
  rw [getElem?_slice, getElem?_overwrite]
  by_cases hk : k < data.length
  · rw [if_pos hk, if_pos (by omega)]
    congr 1
    omega
  · rw [if_neg hk, List.getElem?_eq_none (by omega)]

theorem slice_overwrite_leBytes {bs : List UInt8} {offset w n : Nat} (h : offset + w ≤ bs.length) :
    slice (overwrite bs offset (leBytes w n)) offset w = leBytes w n := by
  have hs : slice (overwrite bs offset (leBytes w n)) offset (leBytes w n).length = leBytes w n :=
    slice_overwrite_self (by simpa using h)
  rwa [length_leBytes] at hs

/-- A write leaves every range it does not meet as it was. -/
theorem slice_overwrite_of_disjoint {bs data : List UInt8} {offset i n : Nat}
    (hd : i + n ≤ offset ∨ offset + data.length ≤ i) :
    slice (overwrite bs offset data) i n = slice bs i n := by
  apply List.ext_getElem?
  intro k
  simp only [getElem?_slice]
  split
  · rw [getElem?_overwrite, if_neg (by omega)]
  · rfl

/-- Of two writes over the same bytes the second remains. -/
theorem overwrite_overwrite {bs first second : List UInt8} {offset : Nat}
    (hlen : first.length = second.length) :
    overwrite (overwrite bs offset first) offset second = overwrite bs offset second := by
  apply List.ext_getElem?
  intro i
  rw [getElem?_overwrite, getElem?_overwrite, getElem?_overwrite, length_overwrite]
  by_cases hi : offset ≤ i ∧ i < offset + second.length ∧ i < bs.length
  · rw [if_pos hi, if_pos hi]
  · rw [if_neg hi, if_neg hi, if_neg (by omega)]

/-- A range put over itself changes nothing. -/
theorem overwrite_slice {bs : List UInt8} {offset n : Nat} (h : offset + n ≤ bs.length) :
    overwrite bs offset (slice bs offset n) = bs := by
  apply List.ext_getElem?
  intro i
  rw [getElem?_overwrite, length_slice_of_le h, getElem?_slice]
  by_cases hi : offset ≤ i ∧ i < offset + n ∧ i < bs.length
  · rw [if_pos hi, if_pos (by omega), Nat.add_sub_of_le hi.1]
  · rw [if_neg hi]

theorem overwrite_append_left {xs ys data : List UInt8} {offset : Nat} (h : offset + data.length ≤ xs.length) :
    overwrite (xs ++ ys) offset data = overwrite xs offset data ++ ys := by
  apply List.ext_getElem?
  intro i
  by_cases hi : i < xs.length
  · have hlen : i < (overwrite xs offset data).length := by rwa [length_overwrite]
    rw [List.getElem?_append_left hlen, getElem?_overwrite, getElem?_overwrite, List.length_append,
      List.getElem?_append_left hi]
    simp only [hi, and_true, show i < xs.length + ys.length by omega]
  · rw [List.getElem?_append_right (by rw [length_overwrite]; omega), length_overwrite, getElem?_overwrite,
      if_neg (by omega), List.getElem?_append_right (by omega)]

theorem overwrite_append_right (xs ys data : List UInt8) (offset : Nat) :
    overwrite (xs ++ ys) (xs.length + offset) data = xs ++ overwrite ys offset data := by
  apply List.ext_getElem?
  intro i
  rw [getElem?_overwrite, List.length_append]
  by_cases hi : i < xs.length
  · rw [if_neg (by omega), List.getElem?_append_left hi, List.getElem?_append_left hi]
  · rw [List.getElem?_append_right (by omega), List.getElem?_append_right (by omega), getElem?_overwrite]
    have hsub : i - (xs.length + offset) = i - xs.length - offset := by omega
    by_cases hin : offset ≤ i - xs.length ∧ i - xs.length < offset + data.length ∧ i - xs.length < ys.length
    · rw [if_pos hin, if_pos (by omega), hsub]
    · rw [if_neg hin, if_neg (by omega)]

theorem overwrite_start {bs data : List UInt8} (h : data.length ≤ bs.length) :
    overwrite bs 0 data = data ++ bs.drop data.length := by
  rw [overwrite_of_le (by omega), List.take_zero, List.nil_append, Nat.zero_add]

/-- Two writes of which one ends where the other begins are one. -/
theorem overwrite_adjacent {bs first second : List UInt8} {offset : Nat} :
    overwrite (overwrite bs offset first) (offset + first.length) second = overwrite bs offset (first ++ second) := by
  apply List.ext_getElem?
  intro i
  simp only [getElem?_overwrite, length_overwrite, List.length_append]
  by_cases hsecond : offset + first.length ≤ i ∧ i < offset + first.length + second.length ∧ i < bs.length
  · rw [if_pos hsecond, if_pos (by omega), List.getElem?_append_right (by omega)]
    congr 1
    omega
  · rw [if_neg hsecond]
    by_cases hfirst : offset ≤ i ∧ i < offset + first.length ∧ i < bs.length
    · rw [if_pos hfirst, if_pos (by omega), List.getElem?_append_left (by omega)]
    · rw [if_neg hfirst, if_neg (by omega)]

/-- Writes at different places can be swapped. -/
theorem overwrite_comm {bs first second : List UInt8} {offset offset' : Nat}
    (h : offset + first.length ≤ offset' ∨ offset' + second.length ≤ offset) :
    overwrite (overwrite bs offset first) offset' second = overwrite (overwrite bs offset' second) offset first := by
  apply List.ext_getElem?
  intro i
  simp only [getElem?_overwrite, length_overwrite]
  by_cases hfirst : offset ≤ i ∧ i < offset + first.length ∧ i < bs.length
  · rw [if_pos hfirst, if_neg (by omega), if_pos hfirst]
  · rw [if_neg hfirst, if_neg hfirst]

/-- A range is removed: what follows it moves up, and zeros fill the room that is left. -/
theorem overwrite_moved_up (front gap after rest : List UInt8) :
    overwrite (overwrite (front ++ (gap ++ after ++ rest)) front.length after) (front.length + after.length)
      (List.replicate gap.length 0) = front ++ after ++ (List.replicate gap.length 0 ++ rest) := by
  have hmoved : overwrite (front ++ (gap ++ after ++ rest)) front.length after =
      (front ++ after) ++ ((gap ++ after).drop after.length ++ rest) := by
    have h := overwrite_append_right front (gap ++ after ++ rest) after 0
    rw [Nat.add_zero] at h
    rw [h, overwrite_start (by simp only [List.length_append]; omega), List.drop_append_of_le_length (by simp),
      List.append_assoc]
  have hlen : ((gap ++ after).drop after.length).length = gap.length := by
    rw [List.length_drop, List.length_append, Nat.add_sub_cancel]
  have h := overwrite_append_right (front ++ after) ((gap ++ after).drop after.length ++ rest)
    (List.replicate gap.length 0) 0
  rw [Nat.add_zero, List.length_append] at h
  rw [hmoved, h, overwrite_start (by rw [List.length_append, hlen, List.length_replicate]; omega), List.length_replicate,
    ← hlen, List.drop_left]

/-- Writes of several fields one after the other, each with its offset. -/
def overwriteAll (bs : List UInt8) (fields : List (Nat × List UInt8)) : List UInt8 :=
  fields.foldl (fun bs field => overwrite bs field.1 field.2) bs

theorem overwriteAll_cons (bs : List UInt8) (field : Nat × List UInt8) (fields : List (Nat × List UInt8)) :
    overwriteAll bs (field :: fields) = overwriteAll (overwrite bs field.1 field.2) fields := rfl

theorem length_overwriteAll (bs : List UInt8) (fields : List (Nat × List UInt8)) :
    (overwriteAll bs fields).length = bs.length := by
  induction fields generalizing bs with
  | nil => rfl
  | cons field fields ih => rw [overwriteAll_cons, ih, length_overwrite]

theorem slice_overwriteAll_of_disjoint {bs : List UInt8} {fields : List (Nat × List UInt8)} {i n : Nat}
    (hd : ∀ field ∈ fields, i + n ≤ field.1 ∨ field.1 + field.2.length ≤ i) :
    slice (overwriteAll bs fields) i n = slice bs i n := by
  induction fields generalizing bs with
  | nil => rfl
  | cons field fields ih =>
      rw [overwriteAll_cons, ih fun other h => hd other (List.mem_cons_of_mem _ h),
        slice_overwrite_of_disjoint (hd field List.mem_cons_self)]

/-- Fields of which no two meet are all there in the end, in whatever order they are written. -/
theorem slice_overwriteAll_apart {bs : List UInt8} {fields : List (Nat × List UInt8)}
    (hd : fields.Pairwise fun a b => a.1 + a.2.length ≤ b.1 ∨ b.1 + b.2.length ≤ a.1)
    (hfit : ∀ field ∈ fields, field.1 + field.2.length ≤ bs.length) {field : Nat × List UInt8} (h : field ∈ fields) :
    slice (overwriteAll bs fields) field.1 field.2.length = field.2 := by
  induction fields generalizing bs with
  | nil => cases h
  | cons first fields ih =>
      obtain ⟨hfirst, hrest⟩ := List.pairwise_cons.mp hd
      obtain ⟨hhere, hlater⟩ := List.forall_mem_cons.1 hfit
      rcases List.mem_cons.mp h with rfl | h
      · rw [overwriteAll_cons, slice_overwriteAll_of_disjoint hfirst, slice_overwrite_self hhere]
      · rw [overwriteAll_cons]
        apply ih hrest _ h
        intro other hother
        rw [length_overwrite]
        exact hlater other hother

/-- Fields that follow each other are all there in the end. -/
theorem slice_overwriteAll {bs : List UInt8} {fields : List (Nat × List UInt8)}
    (hd : fields.Pairwise fun a b => a.1 + a.2.length ≤ b.1)
    (hfit : ∀ field ∈ fields, field.1 + field.2.length ≤ bs.length) {field : Nat × List UInt8} (h : field ∈ fields) :
    slice (overwriteAll bs fields) field.1 field.2.length = field.2 := by
  apply slice_overwriteAll_apart _ hfit h
  exact hd.imp fun hab => .inl hab

/-- A byte that no field meets. -/
theorem getElem?_overwriteAll_of_disjoint {bs : List UInt8} {fields : List (Nat × List UInt8)} {i : Nat}
    (hd : ∀ field ∈ fields, i < field.1 ∨ field.1 + field.2.length ≤ i) : (overwriteAll bs fields)[i]? = bs[i]? := by
  have hslice := congrArg (fun l : List UInt8 => l[0]?) (@slice_overwriteAll_of_disjoint bs fields i 1 hd)
  simpa only [getElem?_slice, Nat.one_pos, if_true, Nat.add_zero] using hslice

theorem drop_overwriteAll {bs : List UInt8} {fields : List (Nat × List UInt8)} {n : Nat}
    (hd : ∀ field ∈ fields, field.1 + field.2.length ≤ n) : (overwriteAll bs fields).drop n = bs.drop n := by
  apply List.ext_getElem?
  intro i
  rw [List.getElem?_drop, List.getElem?_drop]
  exact getElem?_overwriteAll_of_disjoint fun field h => .inr ((hd field h).trans (Nat.le_add_right _ _))

theorem overwriteAll_append_left {xs ys : List UInt8} {fields : List (Nat × List UInt8)}
    (h : ∀ field ∈ fields, field.1 + field.2.length ≤ xs.length) :
    overwriteAll (xs ++ ys) fields = overwriteAll xs fields ++ ys := by
  induction fields generalizing xs with
  | nil => rfl
  | cons field fields ih =>
      obtain ⟨hfirst, hrest⟩ := List.forall_mem_cons.1 h
      rw [overwriteAll_cons, overwriteAll_cons, overwrite_append_left hfirst]
      exact ih fun other hother => by rw [length_overwrite]; exact hrest other hother

/-- A write behind or before all fields can go first. -/
theorem overwrite_overwriteAll {bs data : List UInt8} {offset : Nat} {fields : List (Nat × List UInt8)}
    (h : ∀ field ∈ fields, offset + data.length ≤ field.1 ∨ field.1 + field.2.length ≤ offset) :
    overwrite (overwriteAll bs fields) offset data = overwriteAll (overwrite bs offset data) fields := by
  induction fields generalizing bs with
  | nil => rfl
  | cons field fields ih =>
      obtain ⟨hfirst, hrest⟩ := List.forall_mem_cons.1 h
      rw [overwriteAll_cons, overwriteAll_cons, ih hrest, overwrite_comm hfirst.symm]

/-- Of two rounds of writes to the same places the second remains. -/
theorem overwriteAll_overwriteAll {bs : List UInt8} {fields others : List (Nat × List UInt8)}
    (hsame : List.Forall₂ (fun a b => a.1 = b.1 ∧ a.2.length = b.2.length) fields others)
    (hd : fields.Pairwise fun a b => a.1 + a.2.length ≤ b.1) :
    overwriteAll (overwriteAll bs fields) others = overwriteAll bs others := by
  induction hsame generalizing bs with
  | nil => rfl
  | @cons field other fields others hfield _ ih =>
      obtain ⟨hfirst, hrest⟩ := List.pairwise_cons.1 hd
      obtain ⟨hoffset, hlen⟩ := hfield
      rw [overwriteAll_cons, overwriteAll_cons, overwriteAll_cons, ← hoffset,
        overwrite_overwriteAll fun next hnext => .inl (by rw [← hlen]; exact hfirst next hnext), overwrite_overwrite hlen,
        ih hrest]

/-- Fields one behind the other from an offset on. -/
def fieldsFrom : Nat → List (List UInt8) → List (Nat × List UInt8)
  | _, [] => []
  | offset, data :: datas => (offset, data) :: fieldsFrom (offset + data.length) datas

/-- Fields without gaps that fill all the room. -/
theorem overwriteAll_fieldsFrom {front rest : List UInt8} {datas : List (List UInt8)}
    (h : rest.length = datas.flatten.length) :
    overwriteAll (front ++ rest) (fieldsFrom front.length datas) = front ++ datas.flatten := by
  induction datas generalizing front rest with
  | nil =>
      rw [List.flatten_nil, List.length_nil, List.length_eq_zero_iff] at h
      rw [h]
      rfl
  | cons data datas ih =>
      rw [List.flatten_cons, List.length_append] at h
      have hput := overwrite_append_right front rest data 0
      rw [Nat.add_zero, overwrite_start (by omega), ← List.append_assoc] at hput
      have hrest := @ih (front ++ data) (rest.drop data.length) (by rw [List.length_drop]; omega)
      rw [List.length_append] at hrest
      rw [fieldsFrom, overwriteAll_cons, hput, hrest, List.flatten_cons, List.append_assoc]

/-- Numbers of four bytes, one behind the other. -/
def beWords (words : List Nat) : List UInt8 := (words.map (beBytes 4)).flatten

theorem length_beWords (words : List Nat) : (beWords words).length = 4 * words.length := by
  induction words with
  | nil => rfl
  | cons word words ih =>
      rw [beWords, List.map_cons, List.flatten_cons, List.length_append, length_beBytes, List.length_cons]
      rw [beWords] at ih
      omega

theorem beValue_beWords {words : List Nat} {rest : List UInt8} {i word : Nat} (hi : words[i]? = some word)
    (hword : word < 2 ^ 32) : beValue (slice (beWords words ++ rest) (4 * i) 4) = word := by
  induction words generalizing i with
  | nil => cases hi
  | cons first words ih =>
      rw [beWords, List.map_cons, List.flatten_cons, List.append_assoc]
      cases i with
      | zero =>
          obtain rfl : first = word := Option.some.inj hi
          rw [slice_append_left (by rw [length_beBytes]), show 4 * 0 = 0 from rfl]
          have hall := slice_all (beBytes 4 first)
          rw [length_beBytes] at hall
          rw [hall]
          exact beValue_beBytes_of_lt hword
      | succ i =>
          rw [slice_append_right (by rw [length_beBytes]; omega), length_beBytes, Nat.mul_succ, Nat.add_sub_cancel]
          exact ih hi

end TheSeed.Bytes
