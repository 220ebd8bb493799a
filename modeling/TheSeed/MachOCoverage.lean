import TheSeed.MachOFingerprint

namespace TheSeed.MachOCoverage

open Bytes Checked BoundedBytes MachOLayout MachOSigner MachOPlan MachOPreserved MachODirectory
  MachOFingerprint

/-! A CodeDirectory covers all of a program up to its signature: programs with one directory have one identity and
the same bytes there. -/

variable {hash : List UInt8 → Digest} {path path' : String} {universal universal' : Bool} {index index' : Nat}
  {file file' identity identity' a b : List UInt8} {entry entry' : ContainerEntry} {capacity capacity' dataoff k : Nat}
  {plan plan' : SlicePlan}

theorem getElem?_page {i : Nat} (hi : i < dataoff) :
    (page a dataoff (i / csPageSize))[i - i / csPageSize * csPageSize]? = a[i]? := by
  have hpage := Nat.div_add_mod i csPageSize
  have hpart : i % csPageSize < csPageSize := Nat.mod_lt _ (by decide)
  rw [Nat.mul_comm] at hpage
  rw [page, getElem?_slice, if_pos (by omega), Nat.add_sub_cancel' (by omega)]

/-- The pages are all of the program. -/
theorem take_eq_of_pages (h : ∀ k < codeSlots dataoff, page a dataoff k = page b dataoff k) : a.take dataoff = b.take dataoff := by
  apply List.ext_getElem?
  intro i
  by_cases hi : i < dataoff
  · rw [List.getElem?_take_of_lt hi, List.getElem?_take_of_lt hi, ← getElem?_page hi, ← @getElem?_page b _ _ hi, h]
    rw [codeSlots, csPageSize]
    omega
  · rw [List.getElem?_take_eq_none (by omega), List.getElem?_take_eq_none (by omega)]

theorem page_finished {cms : List UInt8} (hk : k < codeSlots plan.dataoff) :
    page (finishSlice plan cms) plan.dataoff k = page plan.bytes plan.dataoff k := by
  rw [finishSlice, page, page]
  apply slice_overwrite_of_disjoint
  left
  simp only [codeSlots, csPageSize] at hk ⊢
  omega

theorem directory_eq (hplan : planSlice hash path universal index file entry identity capacity = .ok plan) :
    plan.codeDirectory = codeDirectory hash entry.slice identity plan.bytes plan.dataoff := by
  obtain ⟨kept, linkedit, -, -, -, rfl⟩ := planSlice_eq_ok.1 hplan
  rw [planOf]

theorem identity_field {layout : SliceLayout} {out : List UInt8} :
    slice (codeDirectory hash layout identity out dataoff) kCodeDirectoryFixedSize (identity.length + 1) = identity ++ [0] := by
  have hin : (kCodeDirectoryFixedSize, identity ++ [0]) ∈ codeDirectoryFields hash layout identity out dataoff := by
    rw [codeDirectoryFields_eq, middleFields]
    simp
  have hfield := @slice_field hash layout identity out dataoff _ hin
  rwa [List.length_append, List.length_singleton] at hfield

/-- One directory for two prepared programs: they have one identity and one length of code, and the finished
programs have the same bytes up to the signature, or two pages with one number collide. -/
theorem directory_covers (hplan : planSlice hash path universal index file entry identity capacity = .ok plan)
    (hplan' : planSlice hash path' universal' index' file' entry' identity' capacity' = .ok plan')
    (hsame : plan.codeDirectory = plan'.codeDirectory) (cms cms' : List UInt8) :
    identity = identity' ∧ plan.dataoff = plan'.dataoff ∧
      ((finishSlice plan cms).take plan.dataoff = (finishSlice plan' cms').take plan.dataoff ∨
        ∃ k < codeSlots plan.dataoff,
          page (finishSlice plan cms) plan.dataoff k ≠ page (finishSlice plan' cms') plan.dataoff k ∧
          (hash (page (finishSlice plan cms) plan.dataoff k)).1 = (hash (page (finishSlice plan' cms') plan.dataoff k)).1) := by
  obtain ⟨hsize, hoffset⟩ := plan_bounds hplan
  obtain ⟨hsize', hoffset'⟩ := plan_bounds hplan'
  rw [directory_eq hplan, directory_eq hplan'] at hsame
  have hdataoff : plan.dataoff = plan'.dataoff := by
    have hlimit := @directory_numbers hash _ _ hsize hoffset entry.slice plan.bytes 32 plan.dataoff (by simp [directoryNumbers])
    have hlimit' := @directory_numbers hash _ _ hsize' hoffset' entry'.slice plan'.bytes 32 plan'.dataoff
      (by simp [directoryNumbers])
    rw [hsame] at hlimit
    exact hlimit.symm.trans hlimit'
  have hlength := congrArg List.length hsame
  rw [length_codeDirectory, length_codeDirectory, cdSize_eq, cdSize_eq, hdataoff] at hlength
  have hidentity : identity = identity' := by
    have hfield := @identity_field hash identity plan.dataoff entry.slice plan.bytes
    rw [hsame, show identity.length + 1 = identity'.length + 1 by omega, identity_field] at hfield
    exact (List.append_cancel_right hfield).symm
  refine ⟨hidentity, hdataoff, ?_⟩
  by_cases hpages : ∀ k < codeSlots plan.dataoff,
      page (finishSlice plan cms) plan.dataoff k = page (finishSlice plan' cms') plan.dataoff k
  · exact .inl (take_eq_of_pages hpages)
  · right
    push Not at hpages
    obtain ⟨k, hk, hne⟩ := hpages
    refine ⟨k, hk, hne, ?_⟩
    have hslot := @slice_slot hash entry.slice identity plan.bytes _ _ hk
    rw [hsame, hidentity, slice_slot (hdataoff ▸ hk)] at hslot
    rw [page_finished hk, hdataoff, page_finished (hdataoff ▸ hk), ← hdataoff, ← hslot, hdataoff]

/-- The fingerprint of this hash is the first bytes, so that two programs that differ behind them collide. -/
def startHash (bytes : List UInt8) : Digest :=
  ⟨(bytes ++ List.replicate csHashSizeSha256 0).take csHashSizeSha256, by
    rw [List.length_take_of_le]
    rw [List.length_append, List.length_replicate]
    exact Nat.le_add_left _ _⟩

theorem directory_covers_last_byte : ∃ plan plan',
    planSlice startHash "" false 0 smallProgram smallThin [] 16 = .ok plan ∧
      planSlice startHash "" false 0 (smallProgram.take 124 ++ [9]) smallThin [] 16 = .ok plan' ∧
      plan.dataoff = plan'.dataoff ∧
      ((finishSlice plan [1]).take plan.dataoff = (finishSlice plan' [2]).take plan.dataoff ∨
        ∃ k < codeSlots plan.dataoff, page (finishSlice plan [1]) plan.dataoff k ≠ page (finishSlice plan' [2]) plan.dataoff k ∧
          (startHash (page (finishSlice plan [1]) plan.dataoff k)).1 =
            (startHash (page (finishSlice plan' [2]) plan.dataoff k)).1) := by
  have hok : (planSlice startHash "" false 0 smallProgram smallThin [] 16).isOk = true := by decide +kernel
  have hok' : (planSlice startHash "" false 0 (smallProgram.take 124 ++ [9]) smallThin [] 16).isOk = true := by decide +kernel
  have hsame : (planSlice startHash "" false 0 smallProgram smallThin [] 16).map SlicePlan.codeDirectory =
      (planSlice startHash "" false 0 (smallProgram.take 124 ++ [9]) smallThin [] 16).map SlicePlan.codeDirectory := by
    decide +kernel
  obtain ⟨plan, hplan⟩ := exists_of_isOk hok
  obtain ⟨plan', hplan'⟩ := exists_of_isOk hok'
  rw [hplan, hplan'] at hsame
  obtain ⟨-, hdataoff, hcovers⟩ := directory_covers hplan hplan' (Except.ok.inj hsame) [1] [2]
  exact ⟨plan, plan', hplan, hplan', hdataoff, hcovers⟩

end TheSeed.MachOCoverage
