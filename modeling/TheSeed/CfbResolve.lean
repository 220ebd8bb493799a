import Mathlib.Data.List.GetD
import Mathlib.Data.List.Nodup
import TheSeed.CfbReader

namespace TheSeed.CfbResolve

open Bytes Checked BoundedBytes LinkedChain CfbReader

/-! Which bytes a resolved stream has: each position of the source goes to one stream at most. -/

variable {m : PackageModel} {u u' : Usage} {stream : CfbNode} {extents : ByteExtents} {chain : List Nat}

section Flat

/-! What is read range by range is what is read unit by unit. -/

variable {α : Type} {read : Nat → Nat → List α} {place : Nat → Nat → Outcome Nat} {unit : Nat}
  {units : Nat → List α} {out : ByteExtents} {remaining : Nat}

def readAll (read : Nat → Nat → List α) (extents : ByteExtents) : List α :=
  extents.flatMap fun extent => read extent.offset extent.length

theorem readAll_appendExtent (hread : ∀ o a b, read o a ++ read (o + a) b = read o (a + b))
    (extents : ByteExtents) (offset length : Nat) :
    readAll read (appendExtent extents offset length) = readAll read extents ++ read offset length := by
  have hnew : readAll read (extents ++ [⟨offset, length⟩]) = readAll read extents ++ read offset length := by
    rw [readAll, List.flatMap_append, List.flatMap_singleton]
    rfl
  rw [appendExtent]
  cases hlast : extents.getLast? with
  | none => exact hnew
  | some last =>
      by_cases htouch : last.offset + last.length = offset
      · simp only [if_pos htouch]
        obtain ⟨ys, rfl⟩ := List.getLast?_eq_some_iff.1 hlast
        rw [List.dropLast_concat, readAll, readAll, List.flatMap_append, List.flatMap_append,
          List.append_assoc, List.flatMap_singleton, List.flatMap_singleton, ← htouch, hread]
      · simp only [if_neg htouch]
        exact hnew

/-- Where `place` puts the beginning of a unit, that much of the unit is read. -/
def Places (read : Nat → Nat → List α) (place : Nat → Nat → Outcome Nat) (unit : Nat)
    (units : Nat → List α) : Prop :=
  ∀ s chunk offset, place s chunk = .ok offset → chunk ≤ unit →
    read offset chunk = (units s).take chunk ∧ chunk ≤ (units s).length ∧ (units s).length ≤ unit

theorem collectExtents_readAll (hread : ∀ o a b, read o a ++ read (o + a) b = read o (a + b))
    (hplace : Places read place unit units)
    (h : collectExtents place unit chain extents remaining = .ok out) :
    readAll read out = readAll read extents ++ (chain.flatMap units).take remaining := by
  induction chain generalizing extents remaining with
  | nil =>
      cases h
      simp
  | cons s chain ih =>
      obtain ⟨offset, hoffset, hrest⟩ := bind_eq_ok.1 h
      obtain ⟨hunit, hle, hlen⟩ := hplace s _ _ hoffset (Nat.min_le_left _ _)
      rw [ih hrest, readAll_appendExtent hread, List.append_assoc, List.flatMap_cons, List.take_append, hunit]
      by_cases hfull : unit ≤ remaining
      · rw [Nat.min_eq_left hfull] at hle ⊢
        have heq : (units s).length = unit := Nat.le_antisymm hlen hle
        have hall : (units s).take remaining = units s := List.take_of_length_le (heq ▸ hfull)
        rw [List.take_of_length_le (Nat.le_of_eq heq), hall, heq]
      · rw [Nat.min_eq_right (by omega)] at hle ⊢
        rw [Nat.sub_self, Nat.sub_eq_zero_of_le hle]

end Flat

/-- The positions of ranges, in order. -/
def positions (extents : ByteExtents) : List Nat :=
  readAll List.range' extents

theorem length_positions (extents : ByteExtents) :
    (positions extents).length = (extents.map ByteExtent.length).sum := by
  induction extents with
  | nil => rfl
  | cons extent extents ih =>
      rw [positions, readAll, List.flatMap_cons, List.length_append, List.length_range', List.map_cons, List.sum_cons, ← ih]
      rfl

theorem range'_append_range' (o a b : Nat) : List.range' o a ++ List.range' (o + a) b = List.range' o (a + b) :=
  List.range'_append_1

theorem appendExtent_inside {bound offset length : Nat} (hext : ∀ e ∈ extents, e.offset + e.length ≤ bound)
    (h : offset + length ≤ bound) : ∀ e ∈ appendExtent extents offset length, e.offset + e.length ≤ bound := by
  have hnew : ∀ e ∈ extents ++ [⟨offset, length⟩], e.offset + e.length ≤ bound := by
    intro e he
    rcases List.mem_append.1 he with he | he
    · exact hext e he
    · rw [List.mem_singleton.1 he]
      exact h
  rw [appendExtent]
  cases hlast : extents.getLast? with
  | none => exact hnew
  | some last =>
      by_cases htouch : last.offset + last.length = offset
      · simp only [if_pos htouch]
        intro e he
        rcases List.mem_append.1 he with he | he
        · exact hext e (List.dropLast_subset _ he)
        · rw [List.mem_singleton.1 he]
          change last.offset + (last.length + length) ≤ bound
          omega
      · simp only [if_neg htouch]
        exact hnew

/-- No unit of the chain is left without bytes, so each range that is placed counts. -/
theorem collectExtents_inside {place : Nat → Nat → Outcome Nat} {unit bound : Nat}
    (hplace : ∀ s chunk offset, place s chunk = .ok offset → 0 < chunk → chunk ≤ unit → offset + chunk ≤ bound)
    (hunit : 0 < unit) {out : ByteExtents} {remaining : Nat}
    (h : collectExtents place unit chain extents remaining = .ok out)
    (hfill : ∀ k < chain.length, k * unit < remaining)
    (hext : ∀ e ∈ extents, e.offset + e.length ≤ bound) : ∀ e ∈ out, e.offset + e.length ≤ bound := by
  induction chain generalizing extents remaining with
  | nil =>
      cases h
      exact hext
  | cons s chain ih =>
      obtain ⟨offset, hoffset, hrest⟩ := bind_eq_ok.1 h
      have hpos := hfill 0 (Nat.succ_pos _)
      have hin := hplace s _ _ hoffset (lt_min hunit (by omega)) (Nat.min_le_left _ _)
      refine ih hrest (fun k hk => ?_) (appendExtent_inside hext hin)
      have hnext := hfill (k + 1) (Nat.succ_lt_succ hk)
      rw [Nat.succ_mul] at hnext
      omega

theorem lt_unitsFor {size unit k : Nat} (hunit : 0 < unit) : k < unitsFor size unit ↔ k * unit < size := by
  have hdiv := Nat.div_add_mod size unit
  have hlt := Nat.mod_lt size hunit
  rw [unitsFor]
  constructor
  · intro h
    by_cases hz : size % unit = 0
    · rw [if_neg (not_not.2 hz), Nat.add_zero] at h
      have hmul := Nat.mul_lt_mul_of_pos_right h hunit
      rw [Nat.mul_comm (size / unit)] at hmul
      omega
    · rw [if_pos hz] at h
      have hmul := Nat.mul_le_mul_right unit (Nat.le_of_lt_succ h)
      rw [Nat.mul_comm (size / unit)] at hmul
      omega
  · intro h
    by_contra hle
    have hmul := Nat.mul_le_mul_right unit (not_lt.1 hle)
    rw [Nat.add_mul, Nat.mul_comm (size / unit)] at hmul
    by_cases hz : size % unit = 0
    · rw [if_neg (not_not.2 hz)] at hmul
      omega
    · rw [if_pos hz] at hmul
      omega

theorem checkChainLength_eq_ok {size length unit : Nat} {name : String} {r : Unit} :
    PackageModel.checkChainLength size length unit name = .ok r ↔ length = unitsFor size unit := by
  rw [PackageModel.checkChainLength, bind_eq_ok]
  simp only [rejectIf_eq_ok, exists_const]
  omega

/-- What the header of an accepted package allows. -/
structure Geometry (m : PackageModel) : Prop where
  sector_pos : 0 < m.header.sectorSize
  mini_pos : 0 < m.header.miniSectorSize
  mini_dvd : m.header.miniSectorSize ∣ m.header.sectorSize

/-! Ordinary sectors -/

def sectorPositions (m : PackageModel) (s : Nat) : List Nat := List.range' (m.sectorStart s) m.header.sectorSize

/-- The bytes of a sector that lie inside the file. -/
def sectorBytes (m : PackageModel) (s : Nat) : List UInt8 :=
  slice m.source.bytes (m.sectorStart s) m.header.sectorSize

theorem mem_sectorPositions {s p : Nat} : p ∈ sectorPositions m s ↔
    m.sectorStart s ≤ p ∧ p < m.sectorStart s + m.header.sectorSize := List.mem_range'_1

theorem sectorPositions_unique {s t p : Nat} (hs : p ∈ sectorPositions m s) (ht : p ∈ sectorPositions m t) : s = t := by
  rw [mem_sectorPositions, PackageModel.sectorStart] at hs ht
  by_contra hne
  rcases Nat.lt_or_gt_of_ne hne with h | h
  · have hmul := Nat.mul_le_mul_right m.header.sectorSize (Nat.succ_le_of_lt h)
    rw [Nat.succ_mul] at hmul
    omega
  · have hmul := Nat.mul_le_mul_right m.header.sectorSize (Nat.succ_le_of_lt h)
    rw [Nat.succ_mul] at hmul
    omega

theorem placeSector_eq_ok {s chunk offset : Nat} : m.placeSector s chunk = .ok offset ↔
    m.sectorStart s + chunk ≤ m.source.size ∧ m.sectorStart s = offset := by
  rw [PackageModel.placeSector, bind_eq_ok]
  simp only [rejectIf_eq_ok, exists_const, pure_eq_ok, Except.ok.injEq, Bool.not_eq_false, rangeFits_iff]

theorem placeSector_positions (m : PackageModel) :
    Places List.range' m.placeSector m.header.sectorSize (sectorPositions m) := by
  intro s chunk offset h hle
  obtain ⟨-, rfl⟩ := placeSector_eq_ok.1 h
  have hlen : (sectorPositions m s).length = m.header.sectorSize := List.length_range'
  refine ⟨?_, by omega, by omega⟩
  rw [sectorPositions, List.take_range'_of_length_ge hle]

theorem placeSector_bytes (m : PackageModel) :
    Places (slice m.source.bytes) m.placeSector m.header.sectorSize (sectorBytes m) := by
  intro s chunk offset h hle
  obtain ⟨hfits, rfl⟩ := placeSector_eq_ok.1 h
  rw [ByteSpan.size] at hfits
  refine ⟨?_, ?_, ?_⟩
  · rw [sectorBytes, ← slice_zero, slice_slice (by omega), Nat.add_zero]
  · rw [sectorBytes, length_slice]
    omega
  · rw [sectorBytes, length_slice]
    exact Nat.min_le_left _ _

theorem chain_length_le {what : String} {start : Nat} (h : Chain (m.fatTable what) start chain) :
    chain.length ≤ m.sectorCount := by
  have hlt : ∀ s ∈ chain, s < m.sectorCount := by
    intro s hs
    obtain ⟨u, -, hcount⟩ := bind_eq_ok.1 (h.check s hs)
    exact not_le.1 (rejectIf_eq_ok.1 hcount)
  have hsub : chain.Subperm (List.range m.sectorCount) :=
    List.subperm_of_subset h.nodup fun s hs => List.mem_range.2 (hlt s hs)
  simpa using hsub.length_le

theorem walkChain_eq_ok {what : String} {start id : Nat} {owner owner' : Owners} :
    m.walkChain start owner id what = (.ok chain, owner') ↔
      Chain (m.fatTable what) start chain ∧ (chain ≠ [] → id ≠ 0) ∧ (∀ s ∈ chain, owner s = 0) ∧
        owner' = claim owner chain id := by
  rw [PackageModel.walkChain, walk_eq_ok]
  constructor
  · rintro ⟨hc, -, hid, hfree, howner⟩
    exact ⟨hc, hid, hfree, howner⟩
  · rintro ⟨hc, hid, hfree, howner⟩
    exact ⟨hc, Nat.lt_succ_of_le (chain_length_le hc), hid, hfree, howner⟩

theorem resolveOrdinary_eq_ok : m.resolveOrdinary stream u = (.ok extents, u') ↔
    ∃ chain, Chain (m.fatTable "stream") stream.startSector chain ∧ (chain ≠ [] → u.nextOwner ≠ 0) ∧
      (∀ s ∈ chain, u.sectorOwner s = 0) ∧ chain.length = unitsFor stream.size m.header.sectorSize ∧
      collectExtents m.placeSector m.header.sectorSize chain [] stream.size = .ok extents ∧
      u' = { u with sectorOwner := claim u.sectorOwner chain u.nextOwner, lastOwner := u.nextOwner } := by
  rw [PackageModel.resolveOrdinary]
  simp only [Prod.mk.injEq, bind_eq_ok, checkChainLength_eq_ok, exists_const]
  constructor
  · rintro ⟨⟨chain, hchain, hlen, hext⟩, rfl⟩
    obtain ⟨hc, hid, hfree, howner⟩ := walkChain_eq_ok.1 (Prod.ext hchain rfl)
    refine ⟨chain, hc, hid, hfree, hlen, hext, ?_⟩
    rw [← howner]
  · rintro ⟨chain, hc, hid, hfree, hlen, hext, rfl⟩
    have hwalk := walkChain_eq_ok.2 ⟨hc, hid, hfree, rfl⟩
    rw [hwalk]
    exact ⟨⟨chain, rfl, hlen, hext⟩, rfl⟩

theorem claim_ne_zero {owner : Owners} {id unit : Nat} (hid : chain ≠ [] → id ≠ 0) (h : owner unit ≠ 0) :
    claim owner chain id unit ≠ 0 := fun hz => h ((claim_eq_zero hid).1 hz).2

/-! The mini stream -/

/-- Where a position of the mini stream lies in the file. -/
def containerPosition (m : PackageModel) (container : List Nat) (p : Nat) : Nat :=
  m.sectorStart (container.getD (p / m.header.sectorSize) 0) + p % m.header.sectorSize

/-- The mini stream as its chain gives it. -/
def miniStream (m : PackageModel) (container : List Nat) : List UInt8 :=
  (container.flatMap (sectorBytes m)).take m.miniContainerSize

/-- The positions of a mini sector, as far as the mini stream goes. -/
def miniPositions (m : PackageModel) (container : List Nat) (q : Nat) : List Nat :=
  (List.range' (q * m.header.miniSectorSize)
    (min m.header.miniSectorSize (m.miniContainerSize - q * m.header.miniSectorSize))).map
    (containerPosition m container)

def miniBytes (m : PackageModel) (container : List Nat) (q : Nat) : List UInt8 :=
  slice (miniStream m container) (q * m.header.miniSectorSize) m.header.miniSectorSize

/-- The sectors of the mini stream hold its whole recorded size, and lie inside the file. -/
structure Container (m : PackageModel) (container : List Nat) : Prop where
  follows : m.miniContainerSize ≠ 0 → Chain (m.fatTable "stream") m.miniContainerStart container
  nodup : container.Nodup
  covers : m.miniContainerSize ≤ container.length * m.header.sectorSize
  inside : ∀ k, k * m.header.sectorSize < m.miniContainerSize →
    m.sectorStart (container.getD k 0) + min m.header.sectorSize (m.miniContainerSize - k * m.header.sectorSize) ≤
      m.source.size

theorem checkContainer_inside {r : Unit} {remaining : Nat} (h : m.checkContainer chain remaining = .ok r) :
    ∀ k < chain.length, k * m.header.sectorSize < remaining →
      m.sectorStart (chain.getD k 0) + min m.header.sectorSize (remaining - k * m.header.sectorSize) ≤
        m.source.size := by
  induction chain generalizing remaining with
  | nil => nofun
  | cons s chain ih =>
      obtain ⟨offset, hoffset, hrest⟩ := bind_eq_ok.1 h
      obtain ⟨hfits, -⟩ := placeSector_eq_ok.1 hoffset
      intro k hk hlt
      cases k with
      | zero =>
          rw [List.getD_cons_zero, Nat.zero_mul, Nat.sub_zero]
          exact hfits
      | succ k =>
          rw [Nat.succ_mul] at hlt ⊢
          have hmin : min m.header.sectorSize remaining = m.header.sectorSize := min_eq_left (by omega)
          rw [hmin] at hrest
          have hrec := ih hrest k (Nat.lt_of_succ_lt_succ hk) (by omega)
          rwa [List.getD_cons_succ, Nat.add_comm (k * m.header.sectorSize), ← Nat.sub_sub]

theorem containerChain_eq_ok {walked : Outcome (List Nat)} : m.containerChain walked = .ok chain ↔
    walked = .ok chain ∧ unitsFor m.miniContainerSize m.header.sectorSize ≤ chain.length ∧
      m.checkContainer (chain.take (unitsFor m.miniContainerSize m.header.sectorSize)) m.miniContainerSize = .ok () := by
  rw [PackageModel.containerChain]
  simp only [bind_eq_ok, rejectIf_eq_ok, exists_const, pure_eq_ok, Except.ok.injEq, not_lt]
  constructor
  · rintro ⟨_, hw, hle, _, hc, rfl⟩
    exact ⟨hw, hle, hc⟩
  · rintro ⟨hw, hle, hc⟩
    exact ⟨chain, hw, hle, (), hc, rfl⟩

theorem container_of_chain (hg : Geometry m) (hc : Chain (m.fatTable "stream") m.miniContainerStart chain)
    (h : m.containerChain (.ok chain) = .ok chain) : Container m chain := by
  obtain ⟨-, hle, hcheck⟩ := containerChain_eq_ok.1 h
  have hin := checkContainer_inside hcheck
  refine ⟨fun _ => hc, hc.nodup, ?_, fun k hk => ?_⟩
  · by_contra hlt
    have hneed := (lt_unitsFor hg.sector_pos).2 (not_le.1 hlt)
    omega
  · have hneed := (lt_unitsFor hg.sector_pos).2 hk
    have hget : (chain.take (unitsFor m.miniContainerSize m.header.sectorSize)).getD k 0 = chain.getD k 0 := by
      rw [List.getD_eq_getElem?_getD, List.getElem?_take, if_pos hneed, ← List.getD_eq_getElem?_getD]
    have hlt : k < (chain.take (unitsFor m.miniContainerSize m.header.sectorSize)).length := by
      rw [List.length_take]
      omega
    rw [← hget]
    exact hin k hlt hk

theorem Container.sector_lt {container : List Nat} (h : Container m container) {k : Nat}
    (hk : k * m.header.sectorSize < m.miniContainerSize) : k < container.length := by
  by_contra hle
  have hmul := Nat.mul_le_mul_right m.header.sectorSize (not_lt.1 hle)
  have hcov := h.covers
  omega

/-- What lies in one sector of a chain is read there, when the sectors before it are whole. -/
theorem slice_flatMap_sectorBytes {container : List Nat} {k r n : Nat} (hk : k < container.length)
    (hwhole : ∀ j < k, m.sectorStart (container.getD j 0) + m.header.sectorSize ≤ m.source.size)
    (hr : r + n ≤ m.header.sectorSize)
    (hn : m.sectorStart (container.getD k 0) + r + n ≤ m.source.size) :
    slice (container.flatMap (sectorBytes m)) (k * m.header.sectorSize + r) n =
      slice m.source.bytes (m.sectorStart (container.getD k 0) + r) n := by
  induction container generalizing k with
  | nil => cases hk
  | cons s container ih =>
      rw [ByteSpan.size] at hn
      cases k with
      | zero =>
          rw [List.getD_cons_zero] at hn
          rw [List.flatMap_cons, Nat.zero_mul, Nat.zero_add, List.getD_cons_zero, slice_append_left]
          · exact slice_slice hr
          · rw [sectorBytes, length_slice]
            omega
      | succ k =>
          have hs : m.sectorStart s + m.header.sectorSize ≤ m.source.size := hwhole 0 (Nat.succ_pos k)
          have hlen : (sectorBytes m s).length = m.header.sectorSize := length_slice_of_le hs
          rw [List.flatMap_cons, Nat.succ_mul, slice_append_right (by omega), hlen, List.getD_cons_succ]
          rw [← ih (Nat.lt_of_succ_lt_succ hk) (fun j hj => hwhole (j + 1) (Nat.succ_lt_succ hj)) hn]
          congr 1
          omega

theorem mini_in_sector (hg : Geometry m) (q : Nat) :
    q * m.header.miniSectorSize % m.header.sectorSize + m.header.miniSectorSize ≤ m.header.sectorSize := by
  have hlt := Nat.mod_lt (q * m.header.miniSectorSize) hg.sector_pos
  have hdvd : m.header.miniSectorSize ∣ m.header.sectorSize - q * m.header.miniSectorSize % m.header.sectorSize :=
    Nat.dvd_sub hg.mini_dvd ((Nat.dvd_mod_iff hg.mini_dvd).2 (Nat.dvd_mul_left _ q))
  have hle := Nat.le_of_dvd (Nat.sub_pos_of_lt hlt) hdvd
  omega

theorem containerPosition_add (hg : Geometry m) (container : List Nat) (q : Nat) {i : Nat}
    (hi : i < m.header.miniSectorSize) :
    containerPosition m container (q * m.header.miniSectorSize + i) =
      containerPosition m container (q * m.header.miniSectorSize) + i := by
  have hin := mini_in_sector hg q
  have hdiv := Nat.div_add_mod (q * m.header.miniSectorSize) m.header.sectorSize
  have hsum : q * m.header.miniSectorSize + i =
      m.header.sectorSize * (q * m.header.miniSectorSize / m.header.sectorSize) +
        (q * m.header.miniSectorSize % m.header.sectorSize + i) := by omega
  have hlt : q * m.header.miniSectorSize % m.header.sectorSize + i < m.header.sectorSize := by omega
  rw [containerPosition, containerPosition, hsum, Nat.mul_add_div hg.sector_pos, Nat.mul_add_mod,
    Nat.div_eq_of_lt hlt, Nat.mod_eq_of_lt hlt, Nat.add_zero, Nat.add_assoc]

/-- A part of a mini sector that the mini stream holds lies inside one sector of its chain. -/
theorem Container.part (hg : Geometry m) {container : List Nat} (hc : Container m container) {q chunk : Nat}
    (hfits : q * m.header.miniSectorSize + chunk ≤ m.miniContainerSize) (hle : chunk ≤ m.header.miniSectorSize)
    (hpos : 0 < chunk) :
    q * m.header.miniSectorSize / m.header.sectorSize < container.length ∧
      (∀ j < q * m.header.miniSectorSize / m.header.sectorSize,
        m.sectorStart (container.getD j 0) + m.header.sectorSize ≤ m.source.size) ∧
      containerPosition m container (q * m.header.miniSectorSize) + chunk ≤ m.source.size := by
  have hin := mini_in_sector hg q
  have hdiv := Nat.div_add_mod' (q * m.header.miniSectorSize) m.header.sectorSize
  have hk : q * m.header.miniSectorSize / m.header.sectorSize * m.header.sectorSize < m.miniContainerSize := by
    omega
  refine ⟨hc.sector_lt hk, fun j hj => ?_, ?_⟩
  · have hmul := Nat.mul_le_mul_right m.header.sectorSize (Nat.succ_le_of_lt hj)
    rw [Nat.succ_mul] at hmul
    have hsector := hc.inside j (by omega)
    omega
  · have hsector := hc.inside _ hk
    rw [containerPosition]
    omega

theorem slice_miniStream (hg : Geometry m) {container : List Nat} (hc : Container m container) {q chunk : Nat}
    (hfits : q * m.header.miniSectorSize + chunk ≤ m.miniContainerSize) (hle : chunk ≤ m.header.miniSectorSize)
    (hpos : 0 < chunk) :
    slice (miniStream m container) (q * m.header.miniSectorSize) chunk =
      slice m.source.bytes (containerPosition m container (q * m.header.miniSectorSize)) chunk := by
  obtain ⟨hk, hwhole, hend⟩ := hc.part hg hfits hle hpos
  have hin := mini_in_sector hg q
  have hsector := slice_flatMap_sectorBytes hk hwhole
    (r := q * m.header.miniSectorSize % m.header.sectorSize) (n := chunk) (by omega) hend
  rw [Nat.div_add_mod'] at hsector
  rw [miniStream, slice_take hfits, hsector, containerPosition]

theorem length_miniBytes (hg : Geometry m) {container : List Nat} (hc : Container m container) {q chunk : Nat}
    (hfits : q * m.header.miniSectorSize + chunk ≤ m.miniContainerSize) (hle : chunk ≤ m.header.miniSectorSize)
    (hpos : 0 < chunk) : chunk ≤ (miniBytes m container q).length := by
  obtain ⟨-, -, hend⟩ := hc.part hg hfits hle hpos
  have hslice := congrArg List.length (slice_miniStream hg hc hfits hle hpos)
  rw [length_slice_of_le hend, length_slice] at hslice
  rw [miniBytes, length_slice]
  omega

theorem placeMiniSector_eq_ok {container : List Nat} {q chunk offset : Nat} :
    m.placeMiniSector container q chunk = .ok offset ↔
      q * m.header.miniSectorSize + chunk ≤ m.miniContainerSize ∧
        containerPosition m container (q * m.header.miniSectorSize) = offset := by
  rw [PackageModel.placeMiniSector, bind_eq_ok]
  simp only [rejectIf_eq_ok, exists_const, pure_eq_ok, Except.ok.injEq, Bool.not_eq_false, rangeFits_iff]
  rfl

theorem placeMiniSector_positions (hg : Geometry m) (container : List Nat) :
    Places List.range' (m.placeMiniSector container) m.header.miniSectorSize (miniPositions m container) := by
  intro q chunk offset h hle
  obtain ⟨hfits, rfl⟩ := placeMiniSector_eq_ok.1 h
  refine ⟨?_, ?_, ?_⟩
  · change List.range' _ chunk = _
    rw [miniPositions, ← List.map_take, List.take_range'_of_length_ge (by omega)]
    rw [List.range'_eq_map_range, List.range'_eq_map_range, List.map_map]
    refine List.map_congr_left fun i hi => ?_
    rw [List.mem_range] at hi
    exact (containerPosition_add hg container q (by omega)).symm
  · rw [miniPositions, List.length_map, List.length_range']
    omega
  · rw [miniPositions, List.length_map, List.length_range']
    exact Nat.min_le_left _ _

theorem placeMiniSector_bytes (hg : Geometry m) {container : List Nat} (hc : Container m container) :
    Places (slice m.source.bytes) (m.placeMiniSector container) m.header.miniSectorSize (miniBytes m container) := by
  intro q chunk offset h hle
  obtain ⟨hfits, rfl⟩ := placeMiniSector_eq_ok.1 h
  have hlen : (miniBytes m container q).length ≤ m.header.miniSectorSize := by
    rw [miniBytes, length_slice]
    exact Nat.min_le_left _ _
  rcases Nat.eq_zero_or_pos chunk with rfl | hpos
  · exact ⟨slice_zero_length _ _, Nat.zero_le _, hlen⟩
  · refine ⟨?_, length_miniBytes hg hc hfits hle hpos, hlen⟩
    rw [← slice_miniStream hg hc hfits hle hpos, miniBytes, ← slice_zero, slice_slice (by omega), Nat.add_zero]

theorem mini_chain_length_le {start : Nat} (h : Chain m.miniFatTable start chain) :
    chain.length ≤ m.miniFat.length := by
  have hsub : chain.Subperm (List.range m.miniFat.length) :=
    List.subperm_of_subset h.nodup fun q hq => List.mem_range.2 (not_le.1 (rejectIf_eq_ok.1 (h.check q hq)))
  simpa using hsub.length_le

theorem walkMiniChain_eq_ok {start id : Nat} {owner owner' : Owners} :
    m.walkMiniChain start owner id = (.ok chain, owner') ↔
      Chain m.miniFatTable start chain ∧ (chain ≠ [] → id ≠ 0) ∧ (∀ q ∈ chain, owner q = 0) ∧
        owner' = claim owner chain id := by
  rw [PackageModel.walkMiniChain, walk_eq_ok]
  constructor
  · rintro ⟨hc, -, hid, hfree, howner⟩
    exact ⟨hc, hid, hfree, howner⟩
  · rintro ⟨hc, hid, hfree, howner⟩
    exact ⟨hc, Nat.lt_succ_of_le (mini_chain_length_le hc), hid, hfree, howner⟩

/-- The walk that finds the mini stream succeeds. -/
structure FindsContainer (m : PackageModel) (u : Usage) (chain : List Nat) : Prop where
  size : m.miniContainerSize ≠ 0
  follows : Chain (m.fatTable "stream") m.miniContainerStart chain
  named : chain ≠ [] → u.nextOwner ≠ 0
  free : ∀ s ∈ chain, u.sectorOwner s = 0
  fits : m.containerChain (.ok chain) = .ok chain

theorem ensureMiniStream_eq_ok {r : Unit} : m.ensureMiniStream u = (.ok r, u') ↔
    u.miniContainerReady = true ∧ u' = u ∨
    u.miniContainerReady = false ∧ m.miniContainerSize = 0 ∧ u' = { u with miniContainerReady := true } ∨
    u.miniContainerReady = false ∧ ∃ chain, FindsContainer m u chain ∧
      u' = { u with
        sectorOwner := claim u.sectorOwner chain u.nextOwner
        lastOwner := u.nextOwner
        miniContainerChain := chain
        miniContainerReady := true } := by
  rw [PackageModel.ensureMiniStream]
  by_cases hready : u.miniContainerReady = true
  · simp [hready, eq_comm]
  · have hfalse : u.miniContainerReady = false := Bool.eq_false_iff.2 hready
    by_cases hsize : m.miniContainerSize ≠ 0
    · rcases hw : m.walkChain m.miniContainerStart u.sectorOwner u.nextOwner "stream" with ⟨walked, owner⟩
      rcases hc : m.containerChain walked with e | found
      · simp only [hfalse, hsize, hw, hc, Bool.false_eq_true, if_false, ne_eq, not_false_eq_true, if_true,
          Prod.mk.injEq, reduceCtorEq, false_and, true_and, false_or, false_iff]
        rintro ⟨chain, hfind, -⟩
        have hok := walkChain_eq_ok.2 ⟨hfind.follows, hfind.named, hfind.free, rfl⟩
        rw [hok] at hw
        cases hw
        rw [hfind.fits] at hc
        cases hc
      · obtain ⟨rfl, hfits⟩ := containerChain_eq_ok.1 hc
        obtain ⟨hchain, hid, hfree, rfl⟩ := walkChain_eq_ok.1 hw
        simp only [hfalse, hsize, hw, hc, Bool.false_eq_true, if_false, ne_eq, not_false_eq_true, if_true,
          Prod.mk.injEq, false_and, true_and, false_or]
        constructor
        · rintro rfl
          exact ⟨found, ⟨hsize, hchain, hid, hfree, hc⟩, rfl⟩
        · rintro ⟨chain, hfind, rfl⟩
          rw [hchain.unique hfind.follows]
    · rw [if_neg hready, if_neg hsize]
      constructor
      · intro h
        cases h
        exact .inr (.inl ⟨hfalse, not_not.1 hsize, rfl⟩)
      · rintro (⟨h, -⟩ | ⟨-, -, rfl⟩ | ⟨-, chain, hfind, -⟩)
        · exact absurd h hready
        · rfl
        · exact absurd hfind.size hsize

theorem resolveMini_eq_ok : m.resolveMini stream u = (.ok extents, u') ↔
    ∃ v chain, m.ensureMiniStream u = (.ok (), v) ∧ Chain m.miniFatTable stream.startSector chain ∧
      (chain ≠ [] → v.nextOwner ≠ 0) ∧ (∀ q ∈ chain, v.miniOwner q = 0) ∧
      chain.length = unitsFor stream.size m.header.miniSectorSize ∧
      collectExtents (m.placeMiniSector v.miniContainerChain) m.header.miniSectorSize chain [] stream.size =
        .ok extents ∧
      u' = { v with miniOwner := claim v.miniOwner chain v.nextOwner, lastOwner := v.nextOwner } := by
  rw [PackageModel.resolveMini]
  rcases m.ensureMiniStream u with ⟨e | r, v⟩
  · simp
  · simp only [Prod.mk.injEq, bind_eq_ok, checkChainLength_eq_ok, exists_const]
    constructor
    · rintro ⟨⟨chain, hchain, hlen, hext⟩, rfl⟩
      obtain ⟨hc, hid, hfree, howner⟩ := walkMiniChain_eq_ok.1 (Prod.ext hchain rfl)
      exact ⟨v, chain, ⟨trivial, rfl⟩, hc, hid, hfree, hlen, hext, by rw [← howner]⟩
    · rintro ⟨_, chain, ⟨-, rfl⟩, hc, hid, hfree, hlen, hext, rfl⟩
      have hwalk := walkMiniChain_eq_ok.2 ⟨hc, hid, hfree, rfl⟩
      rw [hwalk]
      exact ⟨⟨chain, rfl, hlen, hext⟩, rfl⟩

/-! What a run of calls has given out -/

/-- The positions that a call gives out. -/
def given : Outcome ByteExtents → List Nat
  | .error _ => []
  | .ok extents => positions extents

/-- Each position given out lies in a sector or a mini sector that is owned, and was given out once. -/
structure Tracked (m : PackageModel) (u : Usage) (sectors minis places : List Nat) : Prop where
  sectors_owned : ∀ s ∈ sectors, u.sectorOwner s ≠ 0
  minis_owned : ∀ q ∈ minis, u.miniOwner q ≠ 0
  unready : u.miniContainerReady = false → minis = [] ∧ u.miniContainerChain = []
  container : u.miniContainerReady = true → Container m u.miniContainerChain
  container_owned : u.miniContainerReady = true → ∀ s ∈ u.miniContainerChain, u.sectorOwner s ≠ 0
  container_apart : u.miniContainerReady = true → ∀ s ∈ u.miniContainerChain, s ∉ sectors
  placed : ∀ p ∈ places, (∃ s ∈ sectors, p ∈ sectorPositions m s) ∨
    ∃ q ∈ minis, p ∈ miniPositions m u.miniContainerChain q
  nodup : places.Nodup

theorem Tracked.initial (m : PackageModel) : Tracked m {} [] [] [] := by
  exact ⟨by simp, by simp, fun _ => ⟨rfl, rfl⟩, by simp, by simp, by simp, by simp, List.nodup_nil⟩

variable {sectors minis places : List Nat}

/-- Walks only add owners, so what was given out stays in place. -/
theorem Tracked.keep (h : Tracked m u sectors minis places)
    (hsector : ∀ s, u.sectorOwner s ≠ 0 → u'.sectorOwner s ≠ 0) (hmini : ∀ q, u.miniOwner q ≠ 0 → u'.miniOwner q ≠ 0)
    (hready : u'.miniContainerReady = u.miniContainerReady) (hchain : u'.miniContainerChain = u.miniContainerChain) :
    Tracked m u' sectors minis places := by
  refine ⟨fun s hs => hsector s (h.sectors_owned s hs), fun q hq => hmini q (h.minis_owned q hq), ?_, ?_, ?_, ?_, ?_,
    h.nodup⟩
  · rw [hready, hchain]
    exact h.unready
  · rw [hready, hchain]
    exact h.container
  · rw [hready, hchain]
    exact fun hr s hs => hsector s (h.container_owned hr s hs)
  · rw [hready, hchain]
    exact h.container_apart
  · rw [hchain]
    exact h.placed

theorem walkChain_keeps (m : PackageModel) (start id : Nat) (what : String) (owner : Owners) (s : Nat)
    (h : owner s ≠ 0) : (m.walkChain start owner id what).2 s ≠ 0 := by
  rw [PackageModel.walkChain, walk_keeps _ _ _ _ _ h]
  exact h

theorem walkMiniChain_keeps (m : PackageModel) (start id : Nat) (owner : Owners) (q : Nat)
    (h : owner q ≠ 0) : (m.walkMiniChain start owner id).2 q ≠ 0 := by
  rw [PackageModel.walkMiniChain, walk_keeps _ _ _ _ _ h]
  exact h

theorem ensureMiniStream_error {e : String} (h : m.ensureMiniStream u = (.error e, u')) :
    ∃ owner : Owners, (∀ s, u.sectorOwner s ≠ 0 → owner s ≠ 0) ∧
      u' = { u with sectorOwner := owner, lastOwner := u.nextOwner } := by
  rw [PackageModel.ensureMiniStream] at h
  by_cases hready : u.miniContainerReady = true
  · rw [if_pos hready] at h
    cases h
  · rw [if_neg hready] at h
    by_cases hsize : m.miniContainerSize ≠ 0
    · rw [if_pos hsize] at h
      cases hc : m.containerChain (m.walkChain m.miniContainerStart u.sectorOwner u.nextOwner "stream").1 with
      | error e =>
          simp only [hc] at h
          cases h
          exact ⟨_, fun s hs => walkChain_keeps m _ _ _ _ s hs, rfl⟩
      | ok chain =>
          simp only [hc] at h
          cases h
    · rw [if_neg hsize] at h
      cases h

theorem ensureMiniStream_tracked (hg : Geometry m) (h : Tracked m u sectors minis places) {r : Outcome Unit}
    (hr : m.ensureMiniStream u = (r, u')) :
    Tracked m u' sectors minis places ∧ (r = .ok () → u'.miniContainerReady = true) := by
  cases r with
  | error e =>
      obtain ⟨owner, hkeep, rfl⟩ := ensureMiniStream_error hr
      exact ⟨h.keep hkeep (fun _ hq => hq) rfl rfl, fun h => by cases h⟩
  | ok r =>
      rcases ensureMiniStream_eq_ok.1 hr with ⟨hready, rfl⟩ | ⟨hready, hsize, rfl⟩ | ⟨hready, chain, hc, rfl⟩
      · exact ⟨h, fun _ => hready⟩
      · obtain ⟨-, hnil⟩ := h.unready hready
        refine ⟨⟨h.sectors_owned, h.minis_owned, (fun h => by cases h), fun _ => ?_, fun _ => ?_, fun _ => ?_, h.placed,
          h.nodup⟩, fun _ => rfl⟩
        · simp only [hnil]
          exact ⟨fun h => absurd hsize h, List.nodup_nil, by simp [hsize], by simp [hsize]⟩
        · simp [hnil]
        · simp [hnil]
      · obtain ⟨hminis, -⟩ := h.unready hready
        refine ⟨⟨fun s hs => ?_, h.minis_owned, (fun h => by cases h), fun _ => container_of_chain hg hc.follows hc.fits,
          fun _ s hs => ?_, fun _ s hs hmem => h.sectors_owned s hmem (hc.free s hs), fun p hp => ?_, h.nodup⟩,
          fun _ => rfl⟩
        · exact claim_ne_zero hc.named (h.sectors_owned s hs)
        · change claim u.sectorOwner chain u.nextOwner s ≠ 0
          rw [claim_of_mem hs]
          exact hc.named (List.ne_nil_of_mem hs)
        · rcases h.placed p hp with hsector | ⟨q, hq, -⟩
          · exact .inl hsector
          · rw [hminis] at hq
            cases hq

theorem mem_miniPositions {container : List Nat} {q p : Nat} : p ∈ miniPositions m container q ↔
    ∃ i < m.header.miniSectorSize, q * m.header.miniSectorSize + i < m.miniContainerSize ∧
      containerPosition m container (q * m.header.miniSectorSize + i) = p := by
  rw [miniPositions, List.mem_map]
  constructor
  · rintro ⟨i, hi, rfl⟩
    obtain ⟨hle, hlt⟩ := List.mem_range'_1.1 hi
    refine ⟨i - q * m.header.miniSectorSize, by omega, by omega, ?_⟩
    rw [Nat.add_sub_cancel' hle]
  · rintro ⟨i, hi, hlt, rfl⟩
    exact ⟨_, List.mem_range'_1.2 ⟨by omega, by omega⟩, rfl⟩

theorem containerPosition_mem (hg : Geometry m) {container : List Nat} (hc : Container m container) {i : Nat}
    (hi : i < m.miniContainerSize) :
    ∃ s ∈ container, containerPosition m container i ∈ sectorPositions m s := by
  have hlt : i / m.header.sectorSize < container.length := hc.sector_lt (by
    have hdiv := Nat.div_mul_le_self i m.header.sectorSize
    omega)
  refine ⟨container.getD (i / m.header.sectorSize) 0, ?_, ?_⟩
  · rw [List.getD_eq_getElem _ _ hlt]
    exact List.getElem_mem hlt
  · rw [mem_sectorPositions, containerPosition]
    have hmod := Nat.mod_lt i hg.sector_pos
    omega

theorem miniPositions_mem (hg : Geometry m) {container : List Nat} (hc : Container m container) {q p : Nat}
    (hp : p ∈ miniPositions m container q) : ∃ s ∈ container, p ∈ sectorPositions m s := by
  obtain ⟨i, -, hlt, rfl⟩ := mem_miniPositions.1 hp
  exact containerPosition_mem hg hc hlt

theorem containerPosition_injective (hg : Geometry m) {container : List Nat} (hc : Container m container) {i j : Nat}
    (hi : i < m.miniContainerSize) (hj : j < m.miniContainerSize)
    (h : containerPosition m container i = containerPosition m container j) : i = j := by
  have hlt : ∀ {k}, k < m.miniContainerSize → k / m.header.sectorSize < container.length := by
    intro k hk
    have hdiv := Nat.div_mul_le_self k m.header.sectorSize
    exact hc.sector_lt (by omega)
  have hmem : ∀ k, containerPosition m container k ∈ sectorPositions m (container.getD (k / m.header.sectorSize) 0) := by
    intro k
    have hmod := Nat.mod_lt k hg.sector_pos
    rw [mem_sectorPositions, containerPosition]
    omega
  have hsector := sectorPositions_unique (h ▸ hmem i) (hmem j)
  rw [List.getD_eq_getElem _ _ (hlt hi), List.getD_eq_getElem _ _ (hlt hj)] at hsector
  have hindex := (List.Nodup.getElem_inj_iff hc.nodup).1 hsector
  have hrest : i % m.header.sectorSize = j % m.header.sectorSize := by
    rw [containerPosition, containerPosition, hindex] at h
    omega
  rw [← Nat.div_add_mod i m.header.sectorSize, hindex, hrest, Nat.div_add_mod]

theorem miniPositions_unique (hg : Geometry m) {container : List Nat} (hc : Container m container) {q q' p : Nat}
    (hq : p ∈ miniPositions m container q) (hq' : p ∈ miniPositions m container q') : q = q' := by
  obtain ⟨i, hi, hlt, rfl⟩ := mem_miniPositions.1 hq
  obtain ⟨j, hj, hlt', heq⟩ := mem_miniPositions.1 hq'
  have hsame := containerPosition_injective hg hc hlt hlt' heq.symm
  have hdiv := congrArg (· / m.header.miniSectorSize) hsame
  simp only [Nat.mul_comm _ m.header.miniSectorSize, Nat.mul_add_div hg.mini_pos, Nat.div_eq_of_lt hi,
    Nat.div_eq_of_lt hj, Nat.add_zero] at hdiv
  exact hdiv

theorem nodup_miniPositions (hg : Geometry m) {container : List Nat} (hc : Container m container) (q : Nat) :
    (miniPositions m container q).Nodup := by
  refine List.Nodup.map_on (fun i hi j hj h => ?_) List.nodup_range'
  obtain ⟨hle, hlt⟩ := List.mem_range'_1.1 hi
  obtain ⟨hle', hlt'⟩ := List.mem_range'_1.1 hj
  exact containerPosition_injective hg hc (by omega) (by omega) h

/-- The units of a chain overlap nowhere, when two units never share a position. -/
theorem nodup_take_flatMap {units : Nat → List Nat} (hnodup : chain.Nodup) (heach : ∀ s, (units s).Nodup)
    (hunique : ∀ {s t p}, p ∈ units s → p ∈ units t → s = t) (n : Nat) : ((chain.flatMap units).take n).Nodup := by
  refine List.Nodup.sublist (List.take_sublist _ _) (List.nodup_flatMap.2 ⟨fun s _ => heach s, ?_⟩)
  exact hnodup.imp fun hne p hs ht => hne (hunique hs ht)

theorem mem_take_flatMap {units : Nat → List Nat} {n p : Nat} (h : p ∈ (chain.flatMap units).take n) :
    ∃ s ∈ chain, p ∈ units s := List.mem_flatMap.1 (List.mem_of_mem_take h)

theorem resolveOrdinary_positions (h : collectExtents m.placeSector m.header.sectorSize chain [] stream.size = .ok extents) :
    positions extents = (chain.flatMap (sectorPositions m)).take stream.size :=
  collectExtents_readAll range'_append_range' (placeSector_positions m) h

theorem resolveMini_positions (hg : Geometry m) {container : List Nat}
    (h : collectExtents (m.placeMiniSector container) m.header.miniSectorSize chain [] stream.size = .ok extents) :
    positions extents = (chain.flatMap (miniPositions m container)).take stream.size :=
  collectExtents_readAll range'_append_range' (placeMiniSector_positions hg container) h

theorem resolveOrdinary_tracked (h : Tracked m u sectors minis places) (hg : Geometry m)
    (hr : m.resolveOrdinary stream u = (.ok extents, u')) :
    ∃ sectors', Tracked m u' sectors' minis (places ++ positions extents) := by
  obtain ⟨chain, hc, hid, hfree, hlen, hext, rfl⟩ := resolveOrdinary_eq_ok.1 hr
  have hpos := resolveOrdinary_positions hext
  have howned : ∀ s ∈ chain ++ sectors, claim u.sectorOwner chain u.nextOwner s ≠ 0 := by
    intro s hs
    rcases List.mem_append.1 hs with hs | hs
    · rw [claim_of_mem hs]
      exact hid (List.ne_nil_of_mem hs)
    · exact claim_ne_zero hid (h.sectors_owned s hs)
  have hready : ∀ q ∈ minis, u.miniContainerReady = true := by
    intro q hq
    by_contra hunready
    rw [(h.unready (Bool.eq_false_iff.2 hunready)).1] at hq
    cases hq
  refine ⟨chain ++ sectors, howned, h.minis_owned, h.unready, h.container,
    fun hr s hs => claim_ne_zero hid (h.container_owned hr s hs), ?_, ?_, ?_⟩
  · intro hr s hs hmem
    rcases List.mem_append.1 hmem with hmem | hmem
    · exact h.container_owned hr s hs (hfree s hmem)
    · exact h.container_apart hr s hs hmem
  · intro p hp
    rcases List.mem_append.1 hp with hp | hp
    · exact (h.placed p hp).imp (fun ⟨s, hs, hin⟩ => ⟨s, List.mem_append_right _ hs, hin⟩) fun hq => hq
    · rw [hpos] at hp
      obtain ⟨s, hs, hin⟩ := mem_take_flatMap hp
      exact .inl ⟨s, List.mem_append_left _ hs, hin⟩
  · refine List.nodup_append.2 ⟨h.nodup, ?_, fun p hp p' hp' => ?_⟩
    · rw [hpos]
      exact nodup_take_flatMap hc.nodup (fun _ => List.nodup_range') sectorPositions_unique _
    · rintro rfl
      rw [hpos] at hp'
      obtain ⟨s, hs, hin⟩ := mem_take_flatMap hp'
      rcases h.placed p hp with ⟨t, ht, hint⟩ | ⟨q, hq, hinq⟩
      · rw [sectorPositions_unique hint hin] at ht
        exact h.sectors_owned s ht (hfree s hs)
      · obtain ⟨t, ht, hint⟩ := miniPositions_mem hg (h.container (hready q hq)) hinq
        rw [sectorPositions_unique hint hin] at ht
        exact h.container_owned (hready q hq) s ht (hfree s hs)

theorem resolveMini_tracked (h : Tracked m u sectors minis places) (hg : Geometry m)
    (hr : m.resolveMini stream u = (.ok extents, u')) :
    ∃ minis', Tracked m u' sectors minis' (places ++ positions extents) := by
  obtain ⟨v, chain, hensure, hc, hid, hfree, hlen, hext, rfl⟩ := resolveMini_eq_ok.1 hr
  obtain ⟨hv, hready⟩ := ensureMiniStream_tracked hg h hensure
  have hready := hready rfl
  have hcont := hv.container hready
  have hpos := resolveMini_positions hg hext
  refine ⟨chain ++ minis, hv.sectors_owned, ?_, ?_, hv.container, hv.container_owned, hv.container_apart, ?_, ?_⟩
  · intro q hq
    rcases List.mem_append.1 hq with hq | hq
    · change claim v.miniOwner chain v.nextOwner q ≠ 0
      rw [claim_of_mem hq]
      exact hid (List.ne_nil_of_mem hq)
    · exact claim_ne_zero hid (hv.minis_owned q hq)
  · intro hunready
    exact absurd (hready.symm.trans hunready) (by decide)
  · intro p hp
    rcases List.mem_append.1 hp with hp | hp
    · exact (hv.placed p hp).imp (fun hs => hs) fun ⟨q, hq, hin⟩ => ⟨q, List.mem_append_right _ hq, hin⟩
    · rw [hpos] at hp
      obtain ⟨q, hq, hin⟩ := mem_take_flatMap hp
      exact .inr ⟨q, List.mem_append_left _ hq, hin⟩
  · refine List.nodup_append.2 ⟨hv.nodup, ?_, fun p hp p' hp' => ?_⟩
    · rw [hpos]
      exact nodup_take_flatMap hc.nodup (nodup_miniPositions hg hcont) (miniPositions_unique hg hcont) _
    · rintro rfl
      rw [hpos] at hp'
      obtain ⟨q, hq, hin⟩ := mem_take_flatMap hp'
      rcases hv.placed p hp with ⟨t, ht, hint⟩ | ⟨q', hq', hinq⟩
      · obtain ⟨s, hs, hins⟩ := miniPositions_mem hg hcont hin
        rw [sectorPositions_unique hint hins] at ht
        exact hv.container_apart hready s hs ht
      · rw [miniPositions_unique hg hcont hinq hin] at hq'
        exact hv.minis_owned q hq' (hfree q hq)

theorem resolveMini_error (hg : Geometry m) (h : Tracked m u sectors minis places) {e : String}
    (hr : m.resolveMini stream u = (.error e, u')) : Tracked m u' sectors minis places := by
  rw [PackageModel.resolveMini] at hr
  rcases hensure : m.ensureMiniStream u with ⟨e' | r, v⟩
  · rw [hensure] at hr
    cases hr
    exact (ensureMiniStream_tracked hg h hensure).1
  · rw [hensure] at hr
    rw [← (Prod.mk.inj hr).2]
    exact (ensureMiniStream_tracked hg h hensure).1.keep (fun _ hs => hs)
      (fun q hq => walkMiniChain_keeps m _ _ _ q hq) rfl rfl

theorem resolve_tracked (hg : Geometry m) (h : Tracked m u sectors minis places) {r : Outcome ByteExtents}
    (hr : m.resolve stream u = (r, u')) : ∃ sectors' minis', Tracked m u' sectors' minis' (places ++ given r) := by
  rw [PackageModel.resolve] at hr
  by_cases hempty : stream.isStorage = true ∨ stream.size = 0
  · rw [if_pos hempty] at hr
    cases hr
    refine ⟨sectors, minis, ?_⟩
    rwa [given, positions, readAll, List.flatMap_nil, List.append_nil]
  · rw [if_neg hempty] at hr
    by_cases hmini : stream.size < m.header.miniStreamCutoff
    · rw [if_pos hmini] at hr
      cases r with
      | ok extents =>
          obtain ⟨minis', h'⟩ := resolveMini_tracked h hg hr
          exact ⟨sectors, minis', h'⟩
      | error e =>
          refine ⟨sectors, minis, ?_⟩
          rw [given, List.append_nil]
          exact resolveMini_error hg h hr
    · rw [if_neg hmini] at hr
      cases r with
      | ok extents =>
          obtain ⟨sectors', h'⟩ := resolveOrdinary_tracked h hg hr
          exact ⟨sectors', minis, h'⟩
      | error e =>
          refine ⟨sectors, minis, ?_⟩
          rw [given, List.append_nil, ← (Prod.mk.inj hr).2]
          exact h.keep (fun s hs => walkChain_keeps m _ _ _ _ s hs) (fun _ hq => hq) rfl rfl

/-- The calls on a model, each with what it returned. -/
def resolveAll (m : PackageModel) : List CfbNode → Usage → List (CfbNode × Outcome ByteExtents)
  | [], _ => []
  | stream :: rest, u =>
      let resolved := m.resolve stream u
      (stream, resolved.1) :: resolveAll m rest resolved.2

theorem resolveAll_nodup (hg : Geometry m) {calls : List CfbNode} (h : Tracked m u sectors minis places) :
    (places ++ (resolveAll m calls u).flatMap fun call => given call.2).Nodup := by
  induction calls generalizing u sectors minis places with
  | nil => simpa [resolveAll] using h.nodup
  | cons stream calls ih =>
      obtain ⟨sectors', minis', h'⟩ := resolve_tracked hg h (Prod.eta (m.resolve stream u)).symm
      rw [resolveAll, List.flatMap_cons, ← List.append_assoc]
      exact ih h'

/-- The units of the chain that the package records for a stream. -/
inductive Units (m : PackageModel) (stream : CfbNode) : List (List UInt8) → Prop
  | empty (hsize : stream.size = 0) : Units m stream []
  | ordinary {chain : List Nat} (hsize : m.header.miniStreamCutoff ≤ stream.size)
      (h : Chain (m.fatTable "stream") stream.startSector chain) : Units m stream (chain.map (sectorBytes m))
  | mini {container chain : List Nat} (hsize : stream.size < m.header.miniStreamCutoff)
      (hc : Chain (m.fatTable "stream") m.miniContainerStart container)
      (h : Chain m.miniFatTable stream.startSector chain) : Units m stream (chain.map (miniBytes m container))

/-- What a call that returns gives for a stream. -/
structure ReadInFull (m : PackageModel) (stream : CfbNode) (extents : ByteExtents) : Prop where
  inside : ∀ extent ∈ extents, extent.offset + extent.length ≤ m.source.bytes.length
  size : (extents.map ByteExtent.length).sum = stream.size
  content : ∃ units, Units m stream units ∧ extentBytes m.source.bytes extents = units.flatten.take stream.size

theorem collectExtents_length {place : Nat → Nat → Outcome Nat} {unit remaining : Nat}
    (h : collectExtents place unit chain [] remaining = .ok extents) (hle : remaining ≤ chain.length * unit) :
    (extents.map ByteExtent.length).sum = remaining := by
  have hplace : Places (fun _ n => List.replicate n ()) place unit fun _ => List.replicate unit () := by
    intro s chunk offset _ hchunk
    simp [hchunk]
  have hread := congrArg List.length (collectExtents_readAll (by simp) hplace h)
  simpa [readAll, Function.comp_def, Nat.min_eq_left hle] using hread

theorem unitsFor_covers {size unit : Nat} (hunit : 0 < unit) : size ≤ unitsFor size unit * unit :=
  not_lt.1 fun h => Nat.lt_irrefl _ ((lt_unitsFor hunit).2 h)

theorem resolveOrdinary_full (hg : Geometry m) (hsize : m.header.miniStreamCutoff ≤ stream.size)
    (hr : m.resolveOrdinary stream u = (.ok extents, u')) : ReadInFull m stream extents := by
  obtain ⟨chain, hc, -, -, hlen, hext, -⟩ := resolveOrdinary_eq_ok.1 hr
  refine ⟨?_, ?_, chain.map (sectorBytes m), .ordinary hsize hc, ?_⟩
  · refine collectExtents_inside (fun s chunk offset h _ _ => ?_) hg.sector_pos hext (fun k hk => ?_) (by simp)
    · obtain ⟨hfits, rfl⟩ := placeSector_eq_ok.1 h
      exact hfits
    · rw [hlen] at hk
      exact (lt_unitsFor hg.sector_pos).1 hk
  · refine collectExtents_length hext ?_
    rw [hlen]
    exact unitsFor_covers hg.sector_pos
  · rw [← List.flatMap_def]
    exact collectExtents_readAll (slice_append_slice _) (placeSector_bytes m) hext

theorem resolveMini_full (h : Tracked m u sectors minis places) (hg : Geometry m) (hpos : stream.size ≠ 0)
    (hsize : stream.size < m.header.miniStreamCutoff) (hr : m.resolveMini stream u = (.ok extents, u')) :
    ReadInFull m stream extents := by
  obtain ⟨v, chain, hensure, hc, -, -, hlen, hext, -⟩ := resolveMini_eq_ok.1 hr
  obtain ⟨hv, hready⟩ := ensureMiniStream_tracked hg h hensure
  have hcont := hv.container (hready rfl)
  have htotal : (extents.map ByteExtent.length).sum = stream.size := by
    refine collectExtents_length hext ?_
    rw [hlen]
    exact unitsFor_covers hg.mini_pos
  have hne : m.miniContainerSize ≠ 0 := by
    intro hzero
    have hempty := congrArg List.length (resolveMini_positions hg hext)
    simp [length_positions, htotal, miniPositions, hzero] at hempty
    exact hpos hempty
  refine ⟨?_, htotal, chain.map (miniBytes m v.miniContainerChain), .mini hsize (hcont.follows hne) hc, ?_⟩
  · refine collectExtents_inside (fun q chunk offset h hchunk hle => ?_) hg.mini_pos hext (fun k hk => ?_) (by simp)
    · obtain ⟨hfits, rfl⟩ := placeMiniSector_eq_ok.1 h
      exact (hcont.part hg hfits hle hchunk).2.2
    · rw [hlen] at hk
      exact (lt_unitsFor hg.mini_pos).1 hk
  · rw [← List.flatMap_def]
    exact collectExtents_readAll (slice_append_slice _) (placeMiniSector_bytes hg hcont) hext

theorem resolve_full (h : Tracked m u sectors minis places) (hg : Geometry m) (hstream : stream.isStorage = false)
    (hr : m.resolve stream u = (.ok extents, u')) : ReadInFull m stream extents := by
  rw [PackageModel.resolve, hstream] at hr
  by_cases hzero : stream.size = 0
  · rw [if_pos (.inr hzero)] at hr
    cases hr
    exact ⟨by simp, by simp [hzero], [], .empty hzero, by simp [extentBytes]⟩
  · rw [if_neg (by simpa using hzero)] at hr
    by_cases hmini : stream.size < m.header.miniStreamCutoff
    · rw [if_pos hmini] at hr
      exact resolveMini_full h hg hzero hmini hr
    · rw [if_neg hmini] at hr
      exact resolveOrdinary_full hg (not_lt.1 hmini) hr

theorem resolveAll_full (hg : Geometry m) {calls : List CfbNode} (h : Tracked m u sectors minis places) :
    ∀ call ∈ resolveAll m calls u, call.1.isStorage = false → ∀ extents, call.2 = .ok extents →
      ReadInFull m call.1 extents := by
  induction calls generalizing u sectors minis places with
  | nil => simp [resolveAll]
  | cons stream calls ih =>
      intro call hcall hstream extents hok
      rw [resolveAll] at hcall
      rcases List.mem_cons.1 hcall with rfl | hcall
      · exact resolve_full h hg hstream (Prod.ext hok rfl)
      · obtain ⟨sectors', minis', h'⟩ := resolve_tracked hg h (Prod.eta (m.resolve stream u)).symm
        exact ih h' call hcall hstream extents hok

/-! Accepted packages -/

/-- What the header of an accepted package holds. -/
structure Accepted (bytes : List UInt8) (m : PackageModel) : Prop where
  source : m.source.bytes = bytes
  version : m.header.majorVersion = 3 ∧ m.header.sectorSize = 512 ∨ m.header.majorVersion = 4 ∧ m.header.sectorSize = 4096
  mini : m.header.miniSectorSize = 64
  cutoff : m.header.miniStreamCutoff = 4096

theorem Accepted.geometry {bytes : List UInt8} (h : Accepted bytes m) : Geometry m := by
  rcases h.version with ⟨-, hs⟩ | ⟨-, hs⟩
  all_goals exact ⟨by rw [hs]; decide, by rw [h.mini]; decide, by rw [hs, h.mini]; decide⟩

theorem parseHeader_accepted {first : PackageModel} (h : parseHeader first = .ok m) :
    Accepted first.source.bytes m := by
  simp only [parseHeader, bind_eq_ok, rejectIf_eq_ok, exists_const, pure_eq_ok, Except.ok.injEq] at h
  obtain ⟨-, -, -, minor, -, major, -, order, -, -, power, -, mini, -, hpower, hmajor, hmatch, hmini, -, h⟩ := h
  obtain ⟨dir, -, cutoff, -, firstMini, -, totalMini, -, firstDifat, -, totalDifat, -, hcutoff, rfl⟩ := h
  have hmini : mini = kMiniSectorExponent := not_not.1 hmini
  have hcutoff : cutoff = kMiniStreamCutoff := not_not.1 hcutoff
  refine ⟨rfl, ?_, by rw [hmini]; rfl, hcutoff⟩
  have hsame : major = 3 ↔ power = kSectorExponentV3 := by simpa using hmatch
  by_cases hthree : major = 3
  · exact .inl ⟨hthree, by rw [hsame.1 hthree]; rfl⟩
  · have hfour : major = 4 := by omega
    have hpower4 : power = kSectorExponentV4 := by
      by_contra hne
      exact hthree (hsame.2 (by omega))
    exact .inr ⟨hfour, by rw [hpower4]; rfl⟩

theorem Accepted.transfer {bytes : List UInt8} {m' : PackageModel} (h : Accepted bytes m)
    (hsource : m'.source = m.source) (hheader : m'.header = m.header) : Accepted bytes m' :=
  ⟨hsource ▸ h.source, hheader ▸ h.version, hheader ▸ h.mini, hheader ▸ h.cutoff⟩

theorem parse_accepted {bytes : List UInt8} (h : parse bytes = .ok m) : Accepted bytes m := by
  obtain ⟨m₁, hheader, h⟩ := bind_eq_ok.1 h
  obtain ⟨m₂, hfat, h⟩ := bind_eq_ok.1 h
  obtain ⟨m₃, hmini, h⟩ := bind_eq_ok.1 h
  obtain ⟨directory, -, htree⟩ := bind_eq_ok.1 h
  have h₁ : Accepted bytes m₁ := parseHeader_accepted hheader
  have h₂ : Accepted bytes m₂ := by
    simp only [buildFat, bind_eq_ok, pure_eq_ok, Except.ok.injEq] at hfat
    obtain ⟨listed, -, extended, -, -, -, rfl⟩ := hfat
    exact h₁.transfer rfl rfl
  have h₃ : Accepted bytes m₃ := by
    rw [buildMiniFat] at hmini
    by_cases hnone : m₂.firstMiniFatSector = kCfbEndOfChain ∨ m₂.totalMiniFatSectors = 0
    · rw [if_pos hnone] at hmini
      cases hmini
      exact h₂.transfer rfl rfl
    · rw [if_neg hnone] at hmini
      simp only [bind_eq_ok, pure_eq_ok, Except.ok.injEq] at hmini
      obtain ⟨chain, -, parts, -, rfl⟩ := hmini
      exact h₂.transfer rfl rfl
  simp only [buildTree, bind_eq_ok, pure_eq_ok, Except.ok.injEq] at htree
  obtain ⟨-, -, read, -, rfl⟩ := htree
  exact h₃.transfer rfl rfl

/-- Whatever the chains of an accepted package are, and whichever calls were made before and failed, a
call that returns gives its stream in full, and the calls together give no byte twice. -/
theorem resolve_full_and_apart (bytes : List UInt8) (m : PackageModel) (h : parse bytes = .ok m)
    (calls : List CfbNode) :
    (∀ call ∈ resolveAll m calls {}, call.1.isStorage = false → ∀ extents, call.2 = .ok extents →
      ReadInFull m call.1 extents) ∧
    ((resolveAll m calls {}).flatMap fun call => given call.2).Nodup :=
  ⟨resolveAll_full (parse_accepted h).geometry (.initial m),
    resolveAll_nodup (parse_accepted h).geometry (.initial m)⟩

def sampleEntry (unit : Nat) (type right child start size : Nat) : List UInt8 :=
  leBytes 2 unit ++ List.replicate 62 0 ++ leBytes 2 4 ++ leBytes 1 type ++ leBytes 1 1 ++ leBytes 4 kCfbNoStream ++
    leBytes 4 right ++ leBytes 4 child ++ List.replicate 36 0 ++ leBytes 4 start ++ leBytes 8 size

/-- Two streams whose chains meet in the second mini sector. -/
def crossingPackage : List UInt8 :=
  kMagic ++ List.replicate 16 0 ++ leBytes 2 0x3E ++ leBytes 2 3 ++ leBytes 2 0xFFFE ++ leBytes 2 9 ++ leBytes 2 6 ++
    List.replicate 10 0 ++ leBytes 4 1 ++ leBytes 4 1 ++ leBytes 4 0 ++ leBytes 4 4096 ++ leBytes 4 2 ++
    leBytes 4 1 ++ leBytes 4 kCfbEndOfChain ++ leBytes 4 0 ++ leBytes 4 0 ++ List.replicate 432 0xFF ++
  leBytes 4 0xFFFFFFFD ++ leBytes 4 kCfbEndOfChain ++ leBytes 4 kCfbEndOfChain ++ leBytes 4 kCfbEndOfChain ++
    List.replicate 496 0xFF ++
  sampleEntry 0x52 kTypeRoot kCfbNoStream 1 3 128 ++ sampleEntry 0x41 kTypeStream 2 kCfbNoStream 0 100 ++
    sampleEntry 0x42 kTypeStream kCfbNoStream kCfbNoStream 1 10 ++ List.replicate 128 0 ++
  leBytes 4 1 ++ leBytes 4 kCfbEndOfChain ++ List.replicate 504 0xFF ++
  List.replicate 128 7

theorem resolve_full_and_apart_crossing : ∃ m, parse crossingPackage = .ok m ∧
    (∀ call ∈ resolveAll m (m.root.children ++ m.root.children) {}, call.1.isStorage = false →
      ∀ extents, call.2 = .ok extents → ReadInFull m call.1 extents) ∧
    ((resolveAll m (m.root.children ++ m.root.children) {}).flatMap fun call => given call.2).Nodup := by
  obtain ⟨m, hm⟩ := exists_of_isOk (x := parse crossingPackage) (by decide +kernel)
  exact ⟨m, hm, resolve_full_and_apart crossingPackage m hm _⟩

end TheSeed.CfbResolve
