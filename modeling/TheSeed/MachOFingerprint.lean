import TheSeed.MachOFiles

namespace TheSeed.MachOFingerprint

open Bytes Checked BoundedBytes MachOLayout MachOCommands MachOProgram MachOSigner MachOEdits MachOLinks MachOPlan
open MachOContainers MachORebuilt MachOSuperBlob MachODirectory MachOPreserved MachOFiles

/-! The fingerprints in a signature are those of the pages of the finished file. -/

variable {hash : List UInt8 → Digest} {path : String} {universal : Bool} {capacity dataoff datasize i j k n : Nat}
  {file identity out blob front : List UInt8} {entry : ContainerEntry} {entries : List ContainerEntry}
  {container : MachOContainer} {plan : SlicePlan} {plans : List SlicePlan} {prepared : PreparedSignature}
  {cmsSignatures : List (List UInt8)} {p q : Program} {ps : List Program}

/-! The room for the signature -/

theorem drop_zeros {kept m : Nat} (hlen : front.length = kept) (hm : kept ≤ m) :
    (front ++ List.replicate n (0 : UInt8)).drop m = List.replicate (kept + n - m) 0 := by
  rw [List.drop_append, List.drop_eq_nil_of_le (by omega), List.nil_append, List.drop_replicate, hlen]
  congr 1
  omega

theorem planned_zeros (h : Holds file entry p)
    (hplan : planSlice hash path universal i file entry identity capacity = .ok plan) :
    plan.bytes.drop plan.dataoff = List.replicate plan.datasize 0 := by
  obtain ⟨kept, linkedit, hkeeps, hlinkedit, hcan, rfl⟩ := planSlice_eq_ok.1 hplan
  obtain ⟨k, c, hk, rfl⟩ := h.linkedit_iff.1 hlinkedit
  obtain ⟨hkept, hsize⟩ := hkeeps.bounds h
  have halign := le_align16 kept
  have hwhole := p.size_eq
  have hend : p.headerEnd = kHeader64Size + (areaOf p.commands).length := rfl
  simp only [planOf]
  rcases accepted_signs_or_unsigned h.accepted with hnone | ⟨j, s, hj⟩
  · obtain rfl := (keeps_unsigned h hnone).1 hkeeps
    have hroom := hcan.body_room h hnone
    have hat : (p.commands ++ [signatureCommand (align16 p.size) (reserved identity (align16 p.size) capacity)])[k]? = some c := by
      rw [List.getElem?_append_left (List.getElem?_eq_some_iff.1 hk.at_).1, hk.at_]
    rw [planBytes_unsigned h hnone hk hroom (by omega), List.drop_append_of_le_length hroom, ← List.append_assoc,
      drop_zeros _ halign]
    · congr 1
      omega
    · rw [List.length_append, List.length_append, recount_length, p.headerLength, length_areaOf_set relink_length hat,
        areaOf_append, List.length_append, areaOf_cons, areaOf_nil, List.append_nil, signatureCommand_length, List.length_drop]
      omega
  · have hne : k ≠ j := Leads.ne_signs hk hj
    have hat : (p.commands.set j (resign s (align16 kept) (reserved identity (align16 kept) capacity)))[k]? = some c := by
      rw [List.getElem?_set_ne (Ne.symm hne), hk.at_]
    rw [planBytes_signed h hj hk hkept hsize (by omega), ← List.append_assoc, drop_zeros _ halign]
    · congr 1
      omega
    · rw [List.length_append, List.length_append, p.headerLength, length_areaOf_set relink_length hat,
        length_areaOf_set resign_length hj.at_, List.length_take]
      omega

theorem slice_finished {bs : List UInt8} (hzeros : bs.drop dataoff = List.replicate datasize 0) (hin : dataoff ≤ bs.length)
    (hblob : blob.length ≤ datasize) : slice (overwrite bs dataoff blob) dataoff datasize =
      blob ++ List.replicate (datasize - blob.length) 0 := by
  have hlen : (bs.take dataoff).length = dataoff := List.length_take_of_le hin
  have hwhole : overwrite bs dataoff blob = bs.take dataoff ++ (blob ++ List.replicate (datasize - blob.length) 0) := by
    have hsplit := overwrite_append_right (bs.take dataoff) (bs.drop dataoff) blob 0
    rwa [List.take_append_drop, hlen, Nat.add_zero, hzeros, overwrite_start (by rw [List.length_replicate]; exact hblob),
      List.drop_replicate] at hsplit
  rw [hwhole, slice_append_right (by rw [hlen]), hlen, Nat.sub_self, slice_zero, List.take_of_length_le]
  rw [List.length_append, List.length_replicate]
  omega

/-! Finished slices -/

/-- The signature of a slice is a directory with the fingerprints of its pages, and a CMS. -/
structure Fingerprinted (hash : List UInt8 → Digest) (s directory cms : List UInt8) (dataoff datasize : Nat) : Prop where
  command : ∃ (q : Program) (j : Nat) (c : Command), s = q.bytes ∧ Signs q.commands j c ∧ c.dataoff = dataoff ∧
    c.datasize = datasize
  atEnd : dataoff + datasize = s.length
  blob : slice s dataoff datasize =
    buildSuperBlob directory cms ++ List.replicate (datasize - (buildSuperBlob directory cms).length) 0
  codeLimit : beValue (slice directory 32 4) = dataoff
  slots : beValue (slice directory 28 4) = codeSlots dataoff
  pages : ∀ k < codeSlots dataoff, slice directory (beValue (slice directory 16 4) + k * csHashSizeSha256) csHashSizeSha256 =
    (hash (slice s (csPageSize * k) (min (csPageSize * (k + 1)) dataoff - csPageSize * k))).1

theorem plan_bounds (hplan : planSlice hash path universal i file entry identity capacity = .ok plan) :
    cdSize identity plan.dataoff ≤ kUint32Max ∧ plan.dataoff < 2 ^ 32 := by
  obtain ⟨kept, linkedit, -, -, hcan, rfl⟩ := planSlice_eq_ok.1 hplan
  have hbounds := hcan.bounds
  simp only [planOf]
  exact ⟨hcan.directoryFits, by omega⟩

/-- A finished slice of a plan. -/
theorem fingerprinted {cms : List UInt8} (h : Holds file entry p)
    (hplan : planSlice hash path universal i file entry identity capacity = .ok plan) (hcms : cms.length ≤ capacity) :
    ∃ q : Program, finishSlice plan cms = q.bytes ∧ ∃ dataoff datasize,
      Fingerprinted hash (finishSlice plan cms) plan.codeDirectory cms dataoff datasize := by
  have hzeros := planned_zeros h hplan
  have hfits := blob_fits hplan hcms
  obtain ⟨k, q, hplans⟩ := planSlice_plans h hplan
  obtain ⟨q', hbytes, hsigned⟩ := SignedInto.finished hplans.signed (buildSuperBlob plan.codeDirectory cms)
  rw [← hplans.bytes] at hbytes
  obtain ⟨j, s, hj, hdataoff, hdatasize⟩ := hsigned.signature
  have hsize := hsigned.size
  have hdirectory := congrArg SlicePlan.codeDirectory hplans.plan.symm
  simp only [planOf] at hdirectory
  have hnumbers : ∀ {offset value : Nat}, (offset, value) ∈ directoryNumbers identity plan.dataoff →
      beValue (slice (codeDirectory hash entry.slice identity q.bytes plan.dataoff) offset 4) = value := by
    obtain ⟨hdirectoryFits, hdataoffFits⟩ := plan_bounds hplan
    exact directory_numbers hdirectoryFits hdataoffFits _ _
  refine ⟨q', hbytes, plan.dataoff, plan.datasize, ⟨q', j, s, hbytes, hj, hdataoff, hdatasize⟩, ?_, ?_, ?_, ?_, ?_⟩
  · rw [finishSlice, hbytes]
    exact hsize.symm
  · have hlen := hplans.signed.size
    rw [Program.size, ← hplans.bytes] at hlen
    exact slice_finished hzeros (by omega) hfits
  · rw [hdirectory]
    exact @hnumbers 32 _ (by simp only [directoryNumbers, List.mem_cons, true_or, or_true])
  · rw [hdirectory]
    exact @hnumbers 28 _ (by simp only [directoryNumbers, List.mem_cons, true_or, or_true])
  · intro k hk
    have hstart : beValue (slice plan.codeDirectory 16 4) = hashOffset identity + kSpecialSlots * csHashSizeSha256 := by
      rw [hdirectory]
      exact @hnumbers 16 _ (by simp only [directoryNumbers, List.mem_cons, true_or, or_true])
    have hstop : k * csPageSize + (min (k * csPageSize + csPageSize) plan.dataoff - k * csPageSize) ≤ plan.dataoff := by
      simp only [codeSlots, csPageSize] at hk ⊢
      omega
    have hpage : slice (finishSlice plan cms) (csPageSize * k) (min (csPageSize * (k + 1)) plan.dataoff - csPageSize * k) =
        page q.bytes plan.dataoff k := by
      rw [finishSlice, page, ← hplans.bytes, Nat.mul_succ, Nat.mul_comm csPageSize]
      exact slice_overwrite_of_disjoint (.inl hstop)
    rw [hstart, hpage, hdirectory]
    exact slice_slot hk

/-- Every slice of the finished file carries the directory that was prepared for it, and every page has its fingerprint. -/
theorem page_fingerprints_match (hcomplete : completeSignature hash path file prepared cmsSignatures = .ok out) :
    ∃ container, parseInput file = .ok container ∧ prepared.slices.length = container.entries.length ∧
      cmsSignatures.length = container.entries.length ∧
      ∀ (i : Nat) (s : PreparedSlice) (cms : List UInt8), prepared.slices[i]? = some s → cmsSignatures[i]? = some cms →
        ∃ dataoff datasize, Fingerprinted hash (sliceOf out container.form i) s.codeDirectory cms dataoff datasize := by
  obtain ⟨container, plans, hparse, hcompletes⟩ := completeSignature_eq_ok.1 hcomplete
  have hplanned := hcompletes.planned
  have hcount := hcompletes.count
  obtain ⟨ps, hholds⟩ := exists_programs (parseInput_eq_ok.1 hparse).2 hplanned.supported
  have hlength := hplanned.slices.length_eq
  have hpreparedLength := congrArg List.length hcompletes.unchanged
  rw [List.length_map] at hpreparedLength
  -- each finished slice, with the entry, the plan and the CMS of its number
  have hslice : ∀ (i : Nat) (plan : SlicePlan) (cms : List UInt8), plans[i]? = some plan → cmsSignatures[i]? = some cms →
      (∃ q : Program, finishSlice plan cms = q.bytes) ∧ ∃ dataoff datasize,
        Fingerprinted hash (finishSlice plan cms) plan.codeDirectory cms dataoff datasize := by
    intro i plan cms hplan hcms
    have hi := (List.getElem?_eq_some_iff.1 hplan).1
    have hentry : container.entries[i]? = some container.entries[i] := List.getElem?_eq_getElem (by omega)
    obtain ⟨p, -, hp⟩ := forall₂_getElem? hholds hentry
    obtain ⟨plan', hplan', hplanSlice⟩ := forall₂_getElem? hplanned.slices hentry
    obtain rfl := Option.some.inj (hplan.symm.trans hplan')
    obtain ⟨q, hq, hfingerprinted⟩ := fingerprinted hp hplanSlice (hcompletes.capacity cms (List.mem_of_getElem? hcms))
    exact ⟨⟨q, hq⟩, hfingerprinted⟩
  obtain ⟨qs, hbytes⟩ : ∃ qs, List.zipWith finishSlice plans cmsSignatures = bytesOfAll qs := by
    refine exists_bytesOfAll fun s hs => ?_
    obtain ⟨i, hi⟩ := List.mem_iff_getElem?.1 hs
    obtain ⟨plan, cms, hplan, hcms, rfl⟩ := List.getElem?_zipWith_eq_some.1 hi
    exact (hslice i plan cms hplan hcms).1
  have hassembled := hcompletes.bytes
  rw [hbytes] at hassembled
  have hlen := congrArg List.length hbytes
  rw [List.length_zipWith, bytesOfAll, List.length_map] at hlen
  refine ⟨container, hparse, by omega, hcount.trans hlength.symm, fun i s cms hs hcms => ?_⟩
  rw [← hcompletes.unchanged, List.getElem?_map] at hs
  obtain ⟨plan, hplan, rfl⟩ := Option.map_eq_some_iff.1 hs
  have hi := (List.getElem?_eq_some_iff.1 hcms).1
  have hq : qs[i]? = some qs[i] := List.getElem?_eq_getElem (by omega)
  have hsame : finishSlice plan cms = qs[i].bytes := by
    have hboth := congrArg (fun slices => slices[i]?) hbytes
    simp only [List.getElem?_zipWith, hplan, hcms, bytesOfAll, List.getElem?_map, hq, Option.map_some] at hboth
    exact Option.some.inj hboth
  rw [sliceOf_rebuilt hparse (by omega) hassembled hq, ← hsame]
  exact (hslice i plan cms hplan hcms).2

theorem smallProgram_fingerprinted : ∃ prepared out container,
    prepareSignature zeroHash "" smallProgram [] 16 = .ok prepared ∧ parseInput smallProgram = .ok container ∧
      ∀ (i : Nat) (s : PreparedSlice) (cms : List UInt8), prepared.slices[i]? = some s → [[1, 2, 3]][i]? = some cms →
        ∃ dataoff datasize, Fingerprinted zeroHash (sliceOf out container.form i) s.codeDirectory cms dataoff datasize := by
  obtain ⟨prepared, out, hprepare, hcomplete⟩ := smallProgram_signed
  obtain ⟨container, hparse, -, -, hall⟩ := page_fingerprints_match hcomplete
  exact ⟨prepared, out, container, hprepare, hparse, hall⟩

end TheSeed.MachOFingerprint
