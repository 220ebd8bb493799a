import TheSeed.PeEffects
import TheSeed.Library.CarrySum

namespace TheSeed.PeChecksum

open Bytes Checked BoundedBytes PeSigner PeEffects CarrySum

/-! The checksum of a program, against the sum that its format specifies. -/

variable {bytes out field : List UInt8} {checksumOffset i k : Nat}

/-- Two bytes, or the last one alone. -/
def wordAt (bytes : List UInt8) (i : Nat) : Nat := leValue (slice bytes (2 * i) 2)

def wordCount (bytes : List UInt8) : Nat := (bytes.length + 1) / 2

def words (bytes : List UInt8) : List Nat := (List.range (wordCount bytes)).map (wordAt bytes)

def zeroField (bytes : List UInt8) (checksumOffset : Nat) : List UInt8 :=
  overwrite bytes checksumOffset (leBytes 4 0)

/-- The sum of the loop before the word `k`. -/
def sumBefore (bytes : List UInt8) (checksumOffset k : Nat) : Nat :=
  (List.range k).foldl (fun sum i =>
    if 2 * i = checksumOffset ∨ 2 * i = checksumOffset + 2 then sum
    else addWord sum (leValue (slice bytes (2 * i) 2))) 0

/-- What the format wants in the field. -/
def specifiedSum (bytes : List UInt8) (checksumOffset : Nat) : Nat :=
  carrySum 0x10000 (words (zeroField bytes checksumOffset))

theorem wordAt_lt (bytes : List UInt8) (i : Nat) : wordAt bytes i < 0x10000 := by
  have hlt := leValue_lt (slice bytes (2 * i) 2)
  have hlength : (slice bytes (2 * i) 2).length ≤ 2 := by
    rw [length_slice]
    exact Nat.min_le_left _ _
  exact hlt.trans_le (Nat.pow_le_pow_right (by decide) hlength)

theorem words_lt (bytes : List UInt8) (k : Nat) : ∀ word ∈ (List.range k).map (wordAt bytes), word < 0x10000 := by
  intro word hword
  obtain ⟨i, -, rfl⟩ := List.mem_map.1 hword
  exact wordAt_lt bytes i

theorem carrySum_lt (bytes : List UInt8) (k : Nat) : carrySum 0x10000 ((List.range k).map (wordAt bytes)) < 0x10000 :=
  (carrySum_standsFor (by decide) (words_lt bytes k)).fits

theorem carrySum_succ (bytes : List UInt8) (k : Nat) : carrySum 0x10000 ((List.range (k + 1)).map (wordAt bytes)) =
    fold 0x10000 (carrySum 0x10000 ((List.range k).map (wordAt bytes)) + wordAt bytes k) := by
  rw [carrySum, List.range_succ, List.map_append, List.foldl_append]
  rfl

theorem addWord_eq {sum word : Nat} (h : sum + word < 2 ^ 32) : addWord sum word = fold 0x10000 (sum + word) := by
  rw [addWord, Nat.mod_eq_of_lt h]
  rfl

/-- The words that the loop skips are zero. -/
theorem wordAt_field (hfit : checksumOffset + 4 ≤ bytes.length)
    (h : 2 * i = checksumOffset ∨ 2 * i = checksumOffset + 2) : wordAt (zeroField bytes checksumOffset) i = 0 := by
  obtain ⟨part, hpart, hi⟩ : ∃ part, part + 2 ≤ 4 ∧ 2 * i = checksumOffset + part := by
    rcases h with h | h
    · exact ⟨0, by decide, h⟩
    · exact ⟨2, by decide, h⟩
  have hzero : slice (leBytes 4 0) part 2 = List.replicate 2 0 := by
    rcases h with h | h
    · obtain rfl : part = 0 := by omega
      rfl
    · obtain rfl : part = 2 := by omega
      rfl
  rw [wordAt, hi, zeroField, ← slice_slice hpart, slice_overwrite_leBytes hfit, hzero]
  rfl

theorem sumBefore_eq (hfit : checksumOffset + 4 ≤ bytes.length) (k : Nat) :
    sumBefore (zeroField bytes checksumOffset) checksumOffset k =
      carrySum 0x10000 ((List.range k).map (wordAt (zeroField bytes checksumOffset))) := by
  induction k with
  | zero => rfl
  | succ k ih =>
      have hlt := carrySum_lt (zeroField bytes checksumOffset) k
      have hword := wordAt_lt (zeroField bytes checksumOffset) k
      rw [carrySum_succ, ← ih, sumBefore, List.range_succ, List.foldl_append, List.foldl_cons, List.foldl_nil, ← sumBefore]
      rw [← ih] at hlt
      by_cases hskip : 2 * k = checksumOffset ∨ 2 * k = checksumOffset + 2
      · rw [if_pos hskip, wordAt_field hfit hskip, Nat.add_zero, fold_of_lt hlt]
      · rw [if_neg hskip, ← wordAt, addWord_eq (by omega)]

theorem length_zeroField (bytes : List UInt8) (checksumOffset : Nat) :
    (zeroField bytes checksumOffset).length = bytes.length := length_overwrite _ _ _

/-- The last byte of an odd number is a word of its own. -/
theorem wordAt_last (hodd : bytes.length % 2 ≠ 0) : wordAt bytes (bytes.length / 2) =
    leValue (slice bytes (bytes.length - 1) 1) := by
  have hplace : 2 * (bytes.length / 2) = bytes.length - 1 := by omega
  have hpast : (slice bytes (bytes.length - 1) 2).length ≤ 1 := by
    rw [length_slice]
    omega
  have hcut : slice bytes (bytes.length - 1) 2 = slice bytes (bytes.length - 1) 1 := by
    rw [slice, slice, List.take_eq_take_iff, List.length_drop]
    omega
  rw [wordAt, hplace, hcut]

theorem checksumOf_eq (hfit : checksumOffset + 4 ≤ bytes.length) :
    checksumOf (zeroField bytes checksumOffset) checksumOffset =
      (specifiedSum bytes checksumOffset + bytes.length) % 2 ^ 32 := by
  have hlength := length_zeroField bytes checksumOffset
  have hloop := sumBefore_eq hfit (bytes.length / 2)
  have hfits : specifiedSum bytes checksumOffset < 0x10000 := carrySum_lt _ _
  have htotal : (if (zeroField bytes checksumOffset).length % 2 ≠ 0 then
      addWord (sumBefore (zeroField bytes checksumOffset) checksumOffset (bytes.length / 2))
        (leValue (slice (zeroField bytes checksumOffset) ((zeroField bytes checksumOffset).length - 1) 1))
      else sumBefore (zeroField bytes checksumOffset) checksumOffset (bytes.length / 2)) =
        specifiedSum bytes checksumOffset := by
    rw [specifiedSum, words, wordCount, hloop]
    have hlt := carrySum_lt (zeroField bytes checksumOffset) (bytes.length / 2)
    have hword := wordAt_lt (zeroField bytes checksumOffset) (bytes.length / 2)
    by_cases hodd : (zeroField bytes checksumOffset).length % 2 ≠ 0
    · have hlast := wordAt_last hodd
      have hcount : ((zeroField bytes checksumOffset).length + 1) / 2 = bytes.length / 2 + 1 := by omega
      rw [if_pos hodd, hcount, carrySum_succ, ← hlast, hlength, addWord_eq (by omega)]
    · have hcount : ((zeroField bytes checksumOffset).length + 1) / 2 = bytes.length / 2 := by omega
      rw [if_neg hodd, hcount]
  have hcode : checksumOf (zeroField bytes checksumOffset) checksumOffset =
      (foldCarry (if (zeroField bytes checksumOffset).length % 2 ≠ 0 then
        addWord (sumBefore (zeroField bytes checksumOffset) checksumOffset
          ((zeroField bytes checksumOffset).length / 2))
          (leValue (slice (zeroField bytes checksumOffset) ((zeroField bytes checksumOffset).length - 1) 1))
        else sumBefore (zeroField bytes checksumOffset) checksumOffset
          ((zeroField bytes checksumOffset).length / 2)) + (zeroField bytes checksumOffset).length) % 2 ^ 32 := rfl
  rw [hlength] at hcode htotal
  rw [hcode, htotal]
  have hfold : foldCarry (specifiedSum bytes checksumOffset) = specifiedSum bytes checksumOffset := fold_of_lt hfits
  rw [hfold]

/-- The field holds the specified sum, and no sum on the way to it leaves 32 bits. -/
structure Checksummed (bytes : List UInt8) (checksumOffset : Nat) (out : List UInt8) : Prop where
  length : out.length = bytes.length
  kept : ∀ i, (i < checksumOffset ∨ checksumOffset + 4 ≤ i) → out[i]? = bytes[i]?
  stored : leValue (slice out checksumOffset 4) = (specifiedSum bytes checksumOffset + bytes.length) % 2 ^ 32
  folded : specifiedSum bytes checksumOffset = foldOut 0x10000 (words (zeroField bytes checksumOffset)).sum
  bounded : ∀ k < wordCount bytes, sumBefore (zeroField bytes checksumOffset) checksumOffset k +
    wordAt (zeroField bytes checksumOffset) k < 2 ^ 32

/-- Also for an odd offset and for an odd length. -/
theorem checksum_specified (hfit : checksumOffset + 4 ≤ bytes.length) :
    ∃ out, recalcChecksum bytes checksumOffset = .ok out ∧ Checksummed bytes checksumOffset out ∧
      ∀ field, field.length = 4 → recalcChecksum (overwrite bytes checksumOffset field) checksumOffset = .ok out := by
  have hcode : fileChecksum bytes checksumOffset = (specifiedSum bytes checksumOffset + bytes.length) % 2 ^ 32 :=
    checksumOf_eq hfit
  have hfield : (leBytes 4 (fileChecksum bytes checksumOffset)).length = 4 := length_leBytes _ _
  refine ⟨_, recalcChecksum_eq_ok.2 ⟨hfit, rfl⟩, {
    length := length_overwrite _ _ _
    kept := fun i hi => ?_
    stored := ?_
    folded := carrySum_eq_foldOut (by decide) (words_lt _ _)
    bounded := fun k _ => ?_ }, fun field hlength => ?_⟩
  · rw [getElem?_overwrite, if_neg (by omega)]
  · rw [slice_overwrite_leBytes hfit, leValue_leBytes, hcode]
    exact Nat.mod_mod _ _
  · rw [sumBefore_eq hfit]
    have hlt := carrySum_lt (zeroField bytes checksumOffset) k
    have hword := wordAt_lt (zeroField bytes checksumOffset) k
    omega
  · have hsame : fileChecksum (overwrite bytes checksumOffset field) checksumOffset =
        fileChecksum bytes checksumOffset := by
      rw [fileChecksum, overwrite_overwrite (by rw [hlength, length_leBytes]), fileChecksum]
    refine recalcChecksum_eq_ok.2 ⟨by rwa [length_overwrite], ?_⟩
    rw [hsame, overwrite_overwrite (by rw [hlength, length_leBytes])]

/-- Nine bytes with the field at an odd offset. -/
def oddBuffer : List UInt8 := [0xFF, 0xFF, 0x12, 1, 2, 3, 4, 0x34, 0x56]

theorem checksum_specified_odd : ∃ out, recalcChecksum oddBuffer 3 = .ok out ∧ Checksummed oddBuffer 3 out ∧
    ∀ field, field.length = 4 → recalcChecksum (overwrite oddBuffer 3 field) 3 = .ok out :=
  checksum_specified (by decide)

end TheSeed.PeChecksum
