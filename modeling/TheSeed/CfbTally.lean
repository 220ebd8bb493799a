import Mathlib.Algebra.BigOperators.Intervals
import TheSeed.CfbNarrowing
import TheSeed.CfbTree

namespace TheSeed.CfbTally

open Finset Checked BoundedBytes CfbReader CfbResolve CfbWriter SortedBy CfbNames CfbContent CfbFlatten CfbNarrowing
  MsiFingerprint

/-! Sums over all that a package holds, which the order of its entries does not change. -/

variable {m : PackageModel} {weigh : Nat → Nat} {own position first last k : Nat} {entries : List Entry} {node : CfbNode}
  {nodes : List CfbNode} {c : Content} {cs : List Content} {header : CfbHeader}

/-- A weight for each stream, by its length, and one for each storage. -/
def tally (weigh : Nat → Nat) (own : Nat) : Content → Nat
  | .stream _ bytes => weigh bytes.length
  | .storage _ children => own + (children.map (tally weigh own)).sum

theorem tally_storage (label : Label) (cs : List Content) :
    tally weigh own (.storage label cs) = own + (cs.map (tally weigh own)).sum := by
  rw [tally]

theorem tally_stream (label : Label) (bytes : List UInt8) : tally weigh own (.stream label bytes) = weigh bytes.length := by
  rw [tally]

theorem tally_sorted (c : Content) : tally weigh own c.sorted = tally weigh own c := by
  induction c using Content.induction with
  | hstream label bytes => rw [Content.sorted]
  | hstorage label cs ih =>
      have hperm := ((sortBy_perm (fun c => nameKey c.name) (cs.map Content.sorted)).map (tally weigh own)).sum_eq
      rw [Content.sorted, tally_storage, tally_storage, hperm, List.map_map]
      congr 2
      exact List.map_congr_left ih

/-! The same sums over entries -/

def weight (weigh : Nat → Nat) (own : Nat) (entry : Entry) : Nat :=
  if entry.node.isStorage then own else weigh entry.size

def weightAt (weigh : Nat → Nat) (own : Nat) (entries : List Entry) (i : Nat) : Nat :=
  entries[i]?.elim 0 (weight weigh own)

theorem weightAt_of_get {entry : Entry} (h : entries[position]? = some entry) :
    weightAt weigh own entries position = weight weigh own entry := by
  rw [weightAt, h]
  rfl

/-- A row of children with all that is below them, up to one of them. -/
theorem tally_row {part : Nat → Nat} (hle : ∀ i d, cs[i]? = some d → part i ≤ part (i + 1))
    (h : ∀ i d, cs[i]? = some d → weightAt weigh own entries (first + i) +
      ∑ p ∈ Ico (part i) (part (i + 1)), weightAt weigh own entries p = tally weigh own d) (hk : k ≤ cs.length) :
    ∑ p ∈ Ico first (first + k), weightAt weigh own entries p +
      ∑ p ∈ Ico (part 0) (part k), weightAt weigh own entries p = ((cs.take k).map (tally weigh own)).sum := by
  induction k with
  | zero => simp
  | succ k ih =>
      have hget : cs[k]? = some cs[k] := List.getElem?_eq_getElem hk
      have hmono : part 0 ≤ part k := part_mono (n := k)
        (fun i hi => hle i cs[i] (List.getElem?_eq_getElem (by omega))) (Nat.zero_le k) (Nat.le_refl k)
      have hrow := ih (Nat.le_of_succ_le hk)
      have hnext := h k _ hget
      rw [List.take_add_one, hget, Option.toList_some, List.map_append, List.sum_append, List.map_singleton, List.sum_singleton,
        ← hrow, ← hnext, ← Nat.add_assoc first, sum_Ico_succ_top (Nat.le_add_right _ _),
        ← sum_Ico_consecutive _ hmono (hle k _ hget)]
      omega

theorem tally_laid (h : Laid entries position first last c) :
    weightAt weigh own entries position + ∑ p ∈ Ico first last, weightAt weigh own entries p = tally weigh own c := by
  induction h with
  | @stream position first entry hentry hkind hsize =>
      rw [weightAt_of_get hentry, weight, hkind, if_neg (by decide), Ico_self, sum_empty, hsize, tally_stream, Nat.add_zero]
  | @storage position first last entry cs hentry hkind _ part hpart hend hc ih =>
      have hle : ∀ i d, cs[i]? = some d → part i ≤ part (i + 1) := fun i d hi => (hc i d hi).le
      have hrow := tally_row hle ih (Nat.le_refl _)
      have hbelow : part 0 ≤ part cs.length := part_mono
        (fun i hi => hle i cs[i] (List.getElem?_eq_getElem hi)) (Nat.zero_le _) (Nat.le_refl _)
      rw [List.take_length] at hrow
      rw [weightAt_of_get hentry, weight, hkind, if_pos rfl, tally_storage, ← hrow, ← hpart, ← hend,
        sum_Ico_consecutive _ (by omega) hbelow]

theorem sum_weightAt (entries : List Entry) :
    ∑ p ∈ range entries.length, weightAt weigh own entries p = (entries.map (weight weigh own)).sum := by
  induction entries with
  | nil => rfl
  | cons entry entries ih =>
      rw [List.length_cons, sum_range_succ', List.map_cons, List.sum_cons, ← ih, Nat.add_comm]
      rfl

/-- All entries of a package together weigh what it weighs. -/
theorem tally_entries (h : Laid entries 0 1 entries.length c) : (entries.map (weight weigh own)).sum = tally weigh own c := by
  have hlaid : weightAt weigh own entries 0 + ∑ p ∈ Ico 1 entries.length, weightAt weigh own entries p =
      tally weigh own c := tally_laid h
  have hpos := h.le
  rw [← sum_weightAt, range_eq_Ico, sum_eq_sum_Ico_succ_bot (by omega), ← hlaid]

/-! The units that the streams take -/

/-- The sectors of a stream that has its own. -/
def ordinaryUnits (header : CfbHeader) (size : Nat) : Nat :=
  if size < header.miniStreamCutoff then 0 else unitsFor size header.sectorSize

/-- The mini sectors of a stream that has not. -/
def miniUnits (header : CfbHeader) (size : Nat) : Nat :=
  if size < header.miniStreamCutoff then unitsFor size kMiniSectorSize else 0

theorem unitsFor_zero (unit : Nat) : unitsFor 0 unit = 0 := by simp [unitsFor]

theorem sum_chosen {chosen : Entry → Bool} {unit : Nat}
    (h : ∀ entry, weight weigh 0 entry = if chosen entry then unitsFor entry.size unit else 0) :
    unitsBefore chosen unit entries entries.length = (entries.map (weight weigh 0)).sum := by
  rw [unitsBefore, List.take_length]
  induction entries with
  | nil => rfl
  | cons entry entries ih =>
      rw [List.map_cons, List.sum_cons, h, ← ih, List.filter_cons]
      split
      · rfl
      · rw [Nat.zero_add]

theorem weight_ordinary (entry : Entry) : weight (ordinaryUnits header) 0 entry =
    if entry.isOrdinary header then unitsFor entry.size header.sectorSize else 0 := by
  rw [weight, ordinaryUnits, Entry.isOrdinary]
  cases hkind : entry.node.isStorage with
  | true => rfl
  | false =>
      by_cases hzero : entry.size = 0
      · simp [hzero, unitsFor_zero]
      · by_cases hless : entry.size < header.miniStreamCutoff <;> simp [hzero, hless]

theorem weight_mini (entry : Entry) : weight (miniUnits header) 0 entry =
    if entry.isMini header then unitsFor entry.size kMiniSectorSize else 0 := by
  rw [weight, miniUnits, Entry.isMini]
  cases hkind : entry.node.isStorage with
  | true => rfl
  | false =>
      by_cases hzero : entry.size = 0
      · simp [hzero, unitsFor_zero]
      · by_cases hless : entry.size < header.miniStreamCutoff
        · simp [hzero, hless]
        · simp [hzero, hless, Nat.le_of_not_lt hless]

theorem ordinary_tally (h : Laid entries 0 1 entries.length c) :
    ordinaryBefore header entries entries.length = tally (ordinaryUnits header) 0 c :=
  (sum_chosen weight_ordinary).trans (tally_entries h)

theorem mini_tally (h : Laid entries 0 1 entries.length c) :
    miniBefore header entries entries.length = tally (miniUnits header) 0 c :=
  (sum_chosen weight_mini).trans (tally_entries h)

/-- So many storages and streams. -/
def count : Content → Nat := tally (fun _ => 1) 1

theorem count_sorted (c : Content) : count c.sorted = count c := tally_sorted c

theorem count_entries (h : Laid entries 0 1 entries.length c) : entries.length = count c := by
  have hone : weight (fun _ => 1) 1 = fun _ => 1 := by
    funext entry
    rw [weight, ite_self]
  rw [count, ← tally_entries h, hone, List.map_const', List.sum_replicate, smul_eq_mul, Nat.mul_one]

/-! The same sums over what is read -/

theorem tally_contents {value : CfbNode → Nat} (h : contentsOf m nodes = .ok cs)
    (hvalue : ∀ node ∈ nodes, ∀ c, contentOf m node = .ok c → tally weigh own c = value node) :
    (cs.map (tally weigh own)).sum = (nodes.map value).sum := by
  have hall := contentsOf_eq_ok.1 h
  clear h
  induction hall with
  | nil => rfl
  | cons hc _ ih =>
      rw [List.map_cons, List.map_cons, List.sum_cons, List.sum_cons, hvalue _ List.mem_cons_self _ hc,
        ih fun node hnode => hvalue node (List.mem_cons_of_mem _ hnode)]

theorem count_read (h : contentOf m node = .ok c) : count c = below node + 1 := by
  induction node using nodeInduction generalizing c with
  | h node ih =>
      cases hkind : node.isStorage with
      | true =>
          obtain ⟨cs, hcs, rfl⟩ := (contentOf_storage hkind).1 h
          rw [count, tally_storage, tally_contents hcs fun child hchild c hc => ih child hchild hc, below_storage hkind,
            Nat.add_comm]
      | false =>
          obtain ⟨extents, -, rfl⟩ := (contentOf_stream hkind).1 h
          rw [count, tally_stream, below_stream hkind]

/-- Over the streams that are read, with the sizes that the directory gives them. -/
theorem tally_read (hg : Geometry m) (h : contentOf m node = .ok c) :
    tally weigh 0 c = ((streamNodes node).map fun s => weigh s.size).sum := by
  induction node using nodeInduction generalizing c with
  | h node ih =>
      cases hkind : node.isStorage with
      | true =>
          obtain ⟨cs, hcs, rfl⟩ := (contentOf_storage hkind).1 h
          rw [tally_storage, tally_contents hcs fun child hchild c hc => ih child hchild hc, streamNodes_storage hkind,
            Nat.zero_add]
          generalize node.children = nodes
          induction nodes with
          | nil => rfl
          | cons child nodes ihn => rw [List.map_cons, List.sum_cons, List.flatMap_cons, List.map_append, List.sum_append, ihn]
      | false =>
          obtain ⟨extents, halone, rfl⟩ := (contentOf_stream hkind).1 h
          rw [tally_stream, streamNodes_stream hkind, stream_length hg hkind halone, List.map_singleton,
            List.sum_singleton]

end TheSeed.CfbTally
