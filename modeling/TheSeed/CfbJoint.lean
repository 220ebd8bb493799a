import Mathlib.Data.List.Flatten
import TheSeed.CfbResolve

namespace TheSeed.CfbJoint

open Checked BoundedBytes LinkedChain CfbReader CfbResolve

/-! Which streams can be resolved together does not depend on the order of the calls. -/

variable {m : PackageModel} {s : CfbNode} {streams done : List CfbNode} {u u' : Usage} {extents : ByteExtents}
  {chain : List Nat} {inUse : Bool}

def IsMini (m : PackageModel) (s : CfbNode) : Bool :=
  !s.isStorage && s.size ≠ 0 && s.size < m.header.miniStreamCutoff

def IsOrdinary (m : PackageModel) (s : CfbNode) : Bool :=
  !s.isStorage && s.size ≠ 0 && ¬s.size < m.header.miniStreamCutoff

/-- The units that a walk from `start` visits, none when it fails. -/
def visited (walked : Outcome (List Nat) × Owners) : List Nat :=
  match walked.1 with
  | .ok chain => chain
  | .error _ => []

def sectorsOf (m : PackageModel) (s : CfbNode) : List Nat :=
  if IsOrdinary m s then visited (m.walkChain s.startSector (fun _ => 0) 1 "stream") else []

def minisOf (m : PackageModel) (s : CfbNode) : List Nat :=
  if IsMini m s then visited (m.walkMiniChain s.startSector (fun _ => 0) 1) else []

def containerSectors (m : PackageModel) : List Nat :=
  if m.miniContainerSize = 0 then [] else visited (m.walkChain m.miniContainerStart (fun _ => 0) 1 "stream")

/-- The sectors of the streams, and of the mini stream when it is in use. -/
def sectorsTaken (m : PackageModel) (streams : List CfbNode) (inUse : Bool) : List Nat :=
  streams.flatMap (sectorsOf m) ++ if inUse then containerSectors m else []

/-- How many owners were named. -/
def callsMade (m : PackageModel) (streams : List CfbNode) (inUse : Bool) : Nat :=
  streams.countP (fun s => IsMini m s || IsOrdinary m s) + if inUse ∧ m.miniContainerSize ≠ 0 then 1 else 0

/-- The streams leave each other alone. -/
structure Room (m : PackageModel) (streams : List CfbNode) (inUse : Bool) : Prop where
  sectors : (sectorsTaken m streams inUse).Nodup
  minis : (streams.flatMap (minisOf m)).Nodup
  calls : callsMade m streams inUse < 2 ^ 32

/-- The mini stream can be found. -/
def ContainerOk (m : PackageModel) : Prop :=
  m.miniContainerSize = 0 ∨ Chain (m.fatTable "stream") m.miniContainerStart (containerSectors m) ∧
    m.containerChain (.ok (containerSectors m)) = .ok (containerSectors m)

/-- What the streams that were resolved have taken. -/
structure Taken (m : PackageModel) (streams : List CfbNode) (inUse : Bool) (u : Usage) : Prop where
  sector : ∀ x, u.sectorOwner x = 0 ↔ x ∉ sectorsTaken m streams inUse
  mini : ∀ x, u.miniOwner x = 0 ↔ x ∉ streams.flatMap (minisOf m)
  last : u.lastOwner = callsMade m streams inUse
  ready : u.miniContainerReady = inUse
  container : u.miniContainerChain = if inUse then containerSectors m else []
  found : inUse = true → ContainerOk m

theorem Taken.initial (m : PackageModel) : Taken m [] false {} :=
  ⟨by simp [sectorsTaken], by simp, by simp [callsMade], rfl, rfl, nofun⟩

theorem Room.initial (m : PackageModel) : Room m [] false :=
  ⟨by simp [sectorsTaken], by simp, by simp [callsMade]⟩

theorem visited_chain {what : String} {start : Nat} (h : Chain (m.fatTable what) start chain) :
    visited (m.walkChain start (fun _ => 0) 1 what) = chain := by
  rw [walkChain_eq_ok.2 ⟨h, by simp, by simp, rfl⟩]
  rfl

theorem visited_mini_chain {start : Nat} (h : Chain m.miniFatTable start chain) :
    visited (m.walkMiniChain start (fun _ => 0) 1) = chain := by
  rw [walkMiniChain_eq_ok.2 ⟨h, by simp, by simp, rfl⟩]
  rfl

theorem nextOwner_eq {calls : Nat} (h : u.lastOwner = calls) (hlt : calls + 1 < 2 ^ 32) : u.nextOwner = calls + 1 := by
  rw [Usage.nextOwner, h, Nat.mod_eq_of_lt hlt]

theorem calls_lt_of_nextOwner {calls : Nat} (h : u.lastOwner = calls) (hlt : calls < 2 ^ 32) (hne : u.nextOwner ≠ 0) :
    calls + 1 < 2 ^ 32 := by
  rw [Usage.nextOwner, h] at hne
  by_contra hle
  have heq : calls + 1 = 2 ^ 32 := by omega
  rw [heq, Nat.mod_self] at hne
  exact hne rfl

theorem unitsFor_pos {size unit : Nat} (hunit : 0 < unit) (hsize : size ≠ 0) : 0 < unitsFor size unit :=
  (lt_unitsFor hunit).2 (by omega)

/-! Ordinary streams -/

/-- What resolving an ordinary stream asks of its chain. -/
def OrdinaryChain (m : PackageModel) (s : CfbNode) (chain : List Nat) (extents : ByteExtents) : Prop :=
  Chain (m.fatTable "stream") s.startSector chain ∧ chain.length = unitsFor s.size m.header.sectorSize ∧
    collectExtents m.placeSector m.header.sectorSize chain [] s.size = .ok extents

theorem resolve_ordinary (h : IsOrdinary m s = true) (u : Usage) : m.resolve s u = m.resolveOrdinary s u := by
  simp only [IsOrdinary, Bool.and_eq_true, Bool.not_eq_true', decide_eq_true_eq, ne_eq] at h
  rw [PackageModel.resolve, if_neg (by simp [h.1.1, h.1.2]), if_neg h.2]

theorem OrdinaryChain.sectorsOf_eq (hs : IsOrdinary m s = true) (h : OrdinaryChain m s chain extents) :
    sectorsOf m s = chain := by
  rw [sectorsOf, if_pos hs, visited_chain h.1]

theorem ordinary_alone (hs : IsOrdinary m s = true) :
    (m.resolve s {}).1 = .ok extents ↔ ∃ chain, OrdinaryChain m s chain extents := by
  constructor
  · intro h
    rw [resolve_ordinary hs] at h
    obtain ⟨chain, hc, -, -, hlen, hext, -⟩ := resolveOrdinary_eq_ok.1 (Prod.ext h rfl)
    exact ⟨chain, hc, hlen, hext⟩
  · rintro ⟨chain, hc, hlen, hext⟩
    have hr : m.resolveOrdinary s {} = (.ok extents, _) :=
      resolveOrdinary_eq_ok.2 ⟨chain, hc, fun _ => by decide, fun _ _ => rfl, hlen, hext, rfl⟩
    rw [resolve_ordinary hs, hr]

theorem sectorsTaken_cons : sectorsTaken m (s :: streams) inUse = sectorsOf m s ++ sectorsTaken m streams inUse := by
  rw [sectorsTaken, List.flatMap_cons, List.append_assoc]
  rfl

theorem callsMade_cons (h : (IsMini m s || IsOrdinary m s) = true) :
    callsMade m (s :: streams) inUse = callsMade m streams inUse + 1 := by
  rw [callsMade, callsMade, List.countP_cons, if_pos h]
  omega

theorem not_mini_of_ordinary (h : IsOrdinary m s = true) : IsMini m s = false := by
  simp only [IsOrdinary, IsMini, Bool.and_eq_true, Bool.not_eq_true', decide_eq_true_eq, ne_eq,
    Bool.and_eq_false_imp, decide_eq_false_iff_not] at h ⊢
  exact fun _ => h.2

theorem mini_not_ordinary (h : IsMini m s = true) : IsOrdinary m s = false := by
  by_contra hne
  rw [not_mini_of_ordinary (Bool.not_eq_false _ ▸ hne)] at h
  cases h

theorem minisOf_ordinary (h : IsOrdinary m s = true) : minisOf m s = [] := by
  rw [minisOf, not_mini_of_ordinary h]
  rfl

theorem sectorsOf_mini (h : IsMini m s = true) : sectorsOf m s = [] := by
  rw [sectorsOf, mini_not_ordinary h]
  rfl

theorem room_cons_ordinary (hroom : Room m done inUse) (hs : IsOrdinary m s = true)
    (hc : OrdinaryChain m s chain extents) : Room m (s :: done) inUse ↔
      (∀ x ∈ chain, x ∉ sectorsTaken m done inUse) ∧ callsMade m done inUse + 1 < 2 ^ 32 := by
  have hcalls : callsMade m (s :: done) inUse = callsMade m done inUse + 1 := callsMade_cons (by simp [hs])
  constructor
  · intro h
    refine ⟨?_, hcalls ▸ h.calls⟩
    have hsectors := h.sectors
    rw [sectorsTaken_cons, hc.sectorsOf_eq hs] at hsectors
    exact fun x hx hmem => (List.nodup_append.1 hsectors).2.2 x hx x hmem rfl
  · rintro ⟨hfree, hlt⟩
    refine ⟨?_, ?_, hcalls ▸ hlt⟩
    · rw [sectorsTaken_cons, hc.sectorsOf_eq hs]
      refine List.nodup_append.2 ⟨hc.1.nodup, hroom.sectors, ?_⟩
      rintro x hx _ hmem rfl
      exact hfree x hx hmem
    · rw [List.flatMap_cons, minisOf_ordinary hs]
      exact hroom.minis

theorem ordinary_chain_ne_nil (hg : Geometry m) (hs : IsOrdinary m s = true) (hc : OrdinaryChain m s chain extents) :
    chain ≠ [] := by
  simp only [IsOrdinary, Bool.and_eq_true, decide_eq_true_eq] at hs
  refine List.ne_nil_of_length_pos ?_
  rw [hc.2.1]
  exact unitsFor_pos hg.sector_pos hs.1.2

/-- What an ordinary stream takes when it is resolved. -/
theorem Taken.ordinary (hg : Geometry m) (h : Taken m done inUse u) (hroom : Room m done inUse)
    (hs : IsOrdinary m s = true) (hr : m.resolve s u = (.ok extents, u')) :
    (m.resolve s {}).1 = .ok extents ∧ Room m (s :: done) inUse ∧ Taken m (s :: done) inUse u' := by
  rw [resolve_ordinary hs] at hr
  obtain ⟨chain, hc, hid, hfree, hlen, hext, rfl⟩ := resolveOrdinary_eq_ok.1 hr
  have hchain : OrdinaryChain m s chain extents := ⟨hc, hlen, hext⟩
  have hlt := calls_lt_of_nextOwner h.last hroom.calls (hid (ordinary_chain_ne_nil hg hs hchain))
  refine ⟨(ordinary_alone hs).2 ⟨chain, hchain⟩, ?_, ?_⟩
  · exact (room_cons_ordinary hroom hs hchain).2 ⟨fun x hx => (h.sector x).1 (hfree x hx), hlt⟩
  · refine ⟨fun x => ?_, fun x => ?_, ?_, h.ready, h.container, h.found⟩
    · rw [sectorsTaken_cons, hchain.sectorsOf_eq hs, List.mem_append, not_or, ← h.sector x]
      exact claim_eq_zero hid
    · rw [List.flatMap_cons, minisOf_ordinary hs]
      exact h.mini x
    · rw [callsMade_cons (by simp [hs])]
      exact nextOwner_eq h.last hlt

theorem Taken.ordinary_ok (h : Taken m done inUse u) (hroom : Room m done inUse) (hs : IsOrdinary m s = true)
    (halone : (m.resolve s {}).1 = .ok extents) (hcons : Room m (s :: done) inUse) :
    ∃ u', m.resolve s u = (.ok extents, u') := by
  obtain ⟨chain, hchain⟩ := (ordinary_alone hs).1 halone
  obtain ⟨hfree, hlt⟩ := (room_cons_ordinary hroom hs hchain).1 hcons
  rw [resolve_ordinary hs]
  refine ⟨_, resolveOrdinary_eq_ok.2 ⟨chain, hchain.1, fun _ => ?_, fun x hx => (h.sector x).2 (hfree x hx), hchain.2.1,
    hchain.2.2, rfl⟩⟩
  rw [nextOwner_eq h.last hlt]
  exact Nat.succ_ne_zero _

/-! The mini stream and small streams -/

theorem sectorsTaken_false : sectorsTaken m streams false = streams.flatMap (sectorsOf m) := List.append_nil _

theorem sectorsTaken_true : sectorsTaken m streams true = streams.flatMap (sectorsOf m) ++ containerSectors m := rfl

theorem callsMade_true (hsize : m.miniContainerSize ≠ 0) (streams : List CfbNode) :
    callsMade m streams true = callsMade m streams false + 1 := by
  simp [callsMade, hsize]

theorem container_ne_nil (hg : Geometry m) (hsize : m.miniContainerSize ≠ 0)
    (hfits : m.containerChain (.ok chain) = .ok chain) : chain ≠ [] := by
  obtain ⟨-, hle, -⟩ := containerChain_eq_ok.1 hfits
  have hpos := unitsFor_pos hg.sector_pos hsize
  exact List.ne_nil_of_length_pos (by omega)

theorem containerSectors_eq (h : FindsContainer m u chain) : containerSectors m = chain := by
  rw [containerSectors, if_neg h.size, visited_chain h.follows]

theorem taken_no_container (hsize : m.miniContainerSize = 0) (streams : List CfbNode) :
    sectorsTaken m streams true = sectorsTaken m streams false ∧ callsMade m streams true = callsMade m streams false := by
  have hnil : containerSectors m = [] := if_pos hsize
  constructor
  · rw [sectorsTaken_true, hnil, sectorsTaken_false, List.append_nil]
  · simp [callsMade, hsize]

/-- From the moment that the first small stream is resolved the mini stream is in use. -/
theorem Taken.ensure (hg : Geometry m) (h : Taken m done inUse u) (hroom : Room m done inUse) {r : Unit}
    (hr : m.ensureMiniStream u = (.ok r, u')) : Room m done true ∧ Taken m done true u' := by
  rcases ensureMiniStream_eq_ok.1 hr with ⟨hready, rfl⟩ | ⟨hready, hsize, rfl⟩ | ⟨hready, chain, hc, rfl⟩
  · rw [h.ready] at hready
    subst hready
    exact ⟨hroom, h⟩
  · rw [h.ready] at hready
    subst hready
    obtain ⟨hsectors, hcalls⟩ := taken_no_container hsize done
    refine ⟨⟨hsectors ▸ hroom.sectors, hroom.minis, hcalls ▸ hroom.calls⟩, ?_⟩
    refine ⟨hsectors ▸ h.sector, h.mini, hcalls ▸ h.last, rfl, ?_, fun _ => .inl hsize⟩
    rw [if_pos rfl, containerSectors, if_pos hsize]
    exact h.container
  · rw [h.ready] at hready
    subst hready
    have hchain := containerSectors_eq hc
    have hcalls := callsMade_true hc.size done
    have hlt := calls_lt_of_nextOwner h.last hroom.calls (hc.named (container_ne_nil hg hc.size hc.fits))
    have hfree : ∀ x ∈ chain, x ∉ sectorsTaken m done false := fun x hx => (h.sector x).1 (hc.free x hx)
    rw [sectorsTaken_false] at hfree
    refine ⟨⟨?_, hroom.minis, hcalls ▸ hlt⟩, fun x => ?_, h.mini, ?_, rfl, ?_, fun _ => .inr ?_⟩
    · have hsectors := hroom.sectors
      rw [sectorsTaken_false] at hsectors
      rw [sectorsTaken_true, hchain]
      refine List.nodup_append.2 ⟨hsectors, hc.follows.nodup, ?_⟩
      rintro x hx _ hmem rfl
      exact hfree x hmem hx
    · rw [sectorsTaken_true, hchain, List.mem_append, not_or]
      have hsector := h.sector x
      rw [sectorsTaken_false] at hsector
      rw [← hsector, and_comm]
      exact claim_eq_zero hc.named
    · rw [hcalls]
      exact nextOwner_eq h.last hlt
    · exact hchain.symm
    · rw [hchain]
      exact ⟨hc.follows, hc.fits⟩

theorem Taken.ensure_ok (h : Taken m done inUse u) (hok : ContainerOk m) (hroom : Room m done true) :
    ∃ v, m.ensureMiniStream u = (.ok (), v) := by
  cases inUse with
  | true => exact ⟨u, ensureMiniStream_eq_ok.2 (.inl ⟨h.ready, rfl⟩)⟩
  | false =>
      by_cases hsize : m.miniContainerSize = 0
      · exact ⟨_, ensureMiniStream_eq_ok.2 (.inr (.inl ⟨h.ready, hsize, rfl⟩))⟩
      · obtain ⟨hfollows, hfits⟩ := hok.resolve_left hsize
        have hlt : callsMade m done false + 1 < 2 ^ 32 := callsMade_true hsize done ▸ hroom.calls
        refine ⟨_, ensureMiniStream_eq_ok.2 (.inr (.inr ⟨h.ready, _, ⟨hsize, hfollows, fun _ => ?_, fun x hx => ?_, hfits⟩,
          rfl⟩))⟩
        · rw [nextOwner_eq h.last hlt]
          exact Nat.succ_ne_zero _
        · refine (h.sector x).2 fun hmem => ?_
          rw [sectorsTaken_false] at hmem
          exact (List.nodup_append.1 hroom.sectors).2.2 x hmem x hx rfl

/-- What resolving a small stream asks of its chain. -/
def MiniChain (m : PackageModel) (s : CfbNode) (chain : List Nat) (extents : ByteExtents) : Prop :=
  Chain m.miniFatTable s.startSector chain ∧ chain.length = unitsFor s.size m.header.miniSectorSize ∧
    collectExtents (m.placeMiniSector (containerSectors m)) m.header.miniSectorSize chain [] s.size = .ok extents

theorem resolve_mini (h : IsMini m s = true) (u : Usage) : m.resolve s u = m.resolveMini s u := by
  simp only [IsMini, Bool.and_eq_true, Bool.not_eq_true', decide_eq_true_eq, ne_eq] at h
  rw [PackageModel.resolve, if_neg (by simp [h.1.1, h.1.2]), if_pos h.2]

theorem MiniChain.minisOf_eq (hs : IsMini m s = true) (h : MiniChain m s chain extents) : minisOf m s = chain := by
  rw [minisOf, if_pos hs, visited_mini_chain h.1]

theorem mini_chain_ne_nil (hg : Geometry m) (hs : IsMini m s = true) (hc : MiniChain m s chain extents) : chain ≠ [] := by
  simp only [IsMini, Bool.and_eq_true, decide_eq_true_eq] at hs
  refine List.ne_nil_of_length_pos ?_
  rw [hc.2.1]
  exact unitsFor_pos hg.mini_pos hs.1.2

theorem room_cons_mini (hroom : Room m done true) (hs : IsMini m s = true) (hc : MiniChain m s chain extents) :
    Room m (s :: done) true ↔
      (∀ q ∈ chain, q ∉ done.flatMap (minisOf m)) ∧ callsMade m done true + 1 < 2 ^ 32 := by
  have hcalls : callsMade m (s :: done) true = callsMade m done true + 1 := callsMade_cons (by simp [hs])
  constructor
  · intro h
    refine ⟨?_, hcalls ▸ h.calls⟩
    have hminis := h.minis
    rw [List.flatMap_cons, hc.minisOf_eq hs] at hminis
    exact fun q hq hmem => (List.nodup_append.1 hminis).2.2 q hq q hmem rfl
  · rintro ⟨hfree, hlt⟩
    refine ⟨?_, ?_, hcalls ▸ hlt⟩
    · rw [sectorsTaken_cons, sectorsOf_mini hs]
      exact hroom.sectors
    · rw [List.flatMap_cons, hc.minisOf_eq hs]
      refine List.nodup_append.2 ⟨hc.1.nodup, hroom.minis, ?_⟩
      rintro q hq _ hmem rfl
      exact hfree q hq hmem

/-- What a small stream takes when it is resolved. -/
theorem Taken.mini_step (hg : Geometry m) (h : Taken m done inUse u) (hroom : Room m done inUse)
    (hs : IsMini m s = true) (hr : m.resolve s u = (.ok extents, u')) :
    (ContainerOk m ∧ ∃ chain, MiniChain m s chain extents) ∧ Room m (s :: done) true ∧
      Taken m (s :: done) true u' := by
  rw [resolve_mini hs] at hr
  obtain ⟨v, chain, hensure, hc, hid, hfree, hlen, hext, rfl⟩ := resolveMini_eq_ok.1 hr
  obtain ⟨hroom', hv⟩ := h.ensure hg hroom hensure
  have hcontainer : v.miniContainerChain = containerSectors m := hv.container
  rw [hcontainer] at hext
  have hchain : MiniChain m s chain extents := ⟨hc, hlen, hext⟩
  have hlt := calls_lt_of_nextOwner hv.last hroom'.calls (hid (mini_chain_ne_nil hg hs hchain))
  refine ⟨⟨hv.found rfl, chain, hchain⟩, ?_, ?_⟩
  · exact (room_cons_mini hroom' hs hchain).2 ⟨fun q hq => (hv.mini q).1 (hfree q hq), hlt⟩
  · refine ⟨fun x => ?_, fun q => ?_, ?_, hv.ready, hv.container, hv.found⟩
    · rw [sectorsTaken_cons, sectorsOf_mini hs]
      exact hv.sector x
    · rw [List.flatMap_cons, hchain.minisOf_eq hs, List.mem_append, not_or, ← hv.mini q]
      exact claim_eq_zero hid
    · rw [callsMade_cons (by simp [hs])]
      exact nextOwner_eq hv.last hlt

theorem Taken.mini_ok (hg : Geometry m) (h : Taken m done inUse u) (hroom : Room m done inUse)
    (hs : IsMini m s = true) (hok : ContainerOk m) (hchain : MiniChain m s chain extents)
    (hcons : Room m (s :: done) true) : ∃ u', m.resolve s u = (.ok extents, u') := by
  have htrue : Room m done true := by
    refine ⟨?_, hroom.minis, ?_⟩
    · have hsectors := hcons.sectors
      rwa [sectorsTaken_cons, sectorsOf_mini hs] at hsectors
    · have hcalls := hcons.calls
      rw [callsMade_cons (by simp [hs])] at hcalls
      omega
  obtain ⟨v, hensure⟩ := h.ensure_ok hok htrue
  obtain ⟨-, hv⟩ := h.ensure hg hroom hensure
  obtain ⟨hfree, hlt⟩ := (room_cons_mini htrue hs hchain).1 hcons
  have hcontainer : v.miniContainerChain = containerSectors m := hv.container
  rw [resolve_mini hs]
  refine ⟨_, resolveMini_eq_ok.2 ⟨v, chain, hensure, hchain.1, fun _ => ?_, fun q hq => (hv.mini q).2 (hfree q hq),
    hchain.2.1, hcontainer ▸ hchain.2.2, rfl⟩⟩
  rw [nextOwner_eq hv.last hlt]
  exact Nat.succ_ne_zero _

theorem containerSectors_nodup (hok : ContainerOk m) : (containerSectors m).Nodup := by
  rcases hok with hsize | ⟨hfollows, -⟩
  · rw [containerSectors, if_pos hsize]
    exact List.nodup_nil
  · exact hfollows.nodup

theorem mini_alone (hg : Geometry m) (hs : IsMini m s = true) :
    (m.resolve s {}).1 = .ok extents ↔ ContainerOk m ∧ ∃ chain, MiniChain m s chain extents := by
  constructor
  · intro h
    exact ((Taken.initial m).mini_step hg (Room.initial m) hs (Prod.ext h rfl)).1
  · rintro ⟨hok, chain, hchain⟩
    have hroom : Room m [] true := ⟨containerSectors_nodup hok, List.nodup_nil, by
      simp only [callsMade, List.countP_nil]
      split <;> decide⟩
    have hcons : Room m [s] true := by
      refine (room_cons_mini hroom hs hchain).2 ⟨by simp, ?_⟩
      simp only [callsMade, List.countP_nil]
      split <;> decide
    obtain ⟨u', hu⟩ := (Taken.initial m).mini_ok hg (Room.initial m) hs hok hchain hcons
    rw [hu]

/-! Any order -/

/-- The streams can be resolved one after the other. -/
structure Joint (m : PackageModel) (streams : List CfbNode) : Prop where
  alone : ∀ s ∈ streams, ∃ extents, (m.resolve s {}).1 = .ok extents
  room : Room m streams (streams.any (IsMini m))

theorem Joint.initial (m : PackageModel) : Joint m [] := ⟨by simp, Room.initial m⟩

theorem resolve_empty (h : IsMini m s = false) (h' : IsOrdinary m s = false) (u : Usage) :
    m.resolve s u = (.ok [], u) := by
  rw [PackageModel.resolve, if_pos]
  by_contra hne
  simp only [not_or, Bool.not_eq_true] at hne
  simp only [IsMini, IsOrdinary, hne.1, Bool.not_false, Bool.true_and, Bool.and_eq_false_imp, decide_eq_true_eq,
    decide_eq_false_iff_not, not_not] at h h'
  exact h hne.2 (h' hne.2)

theorem taken_cons_empty (h : IsMini m s = false) (h' : IsOrdinary m s = false) (streams : List CfbNode)
    (inUse : Bool) :
    sectorsTaken m (s :: streams) inUse = sectorsTaken m streams inUse ∧
      (s :: streams).flatMap (minisOf m) = streams.flatMap (minisOf m) ∧
      callsMade m (s :: streams) inUse = callsMade m streams inUse := by
  refine ⟨?_, ?_, ?_⟩
  · rw [sectorsTaken_cons, sectorsOf, h']
    rfl
  · rw [List.flatMap_cons, minisOf, h]
    rfl
  · simp [callsMade, h, h']

theorem Room.cons_empty (h : IsMini m s = false) (h' : IsOrdinary m s = false) :
    Room m (s :: streams) inUse ↔ Room m streams inUse := by
  obtain ⟨hsectors, hminis, hcalls⟩ := taken_cons_empty h h' streams inUse
  constructor
  · intro hroom
    exact ⟨hsectors ▸ hroom.sectors, hminis ▸ hroom.minis, hcalls ▸ hroom.calls⟩
  · intro hroom
    exact ⟨hsectors.symm ▸ hroom.sectors, hminis.symm ▸ hroom.minis, hcalls.symm ▸ hroom.calls⟩

/-- A call that returns gives what it would give on its own, and takes its place beside the others. -/
theorem Taken.resolve (hg : Geometry m) (h : Taken m done (done.any (IsMini m)) u) (hj : Joint m done)
    (hr : m.resolve s u = (.ok extents, u')) :
    (m.resolve s {}).1 = .ok extents ∧ Joint m (s :: done) ∧ Taken m (s :: done) ((s :: done).any (IsMini m)) u' := by
  have hjoint : (m.resolve s {}).1 = .ok extents → Room m (s :: done) ((s :: done).any (IsMini m)) →
      Joint m (s :: done) := by
    intro halone hroom
    refine ⟨fun t ht => ?_, hroom⟩
    rcases List.mem_cons.1 ht with rfl | ht
    · exact ⟨extents, halone⟩
    · exact hj.alone t ht
  by_cases hmini : IsMini m s = true
  · obtain ⟨halone, hroom, htaken⟩ := h.mini_step hg hj.room hmini hr
    have halone := (mini_alone hg hmini).2 halone
    rw [List.any_cons, hmini, Bool.true_or] at hjoint ⊢
    exact ⟨halone, hjoint halone hroom, htaken⟩
  · rw [Bool.not_eq_true] at hmini
    rw [List.any_cons, hmini, Bool.false_or] at hjoint ⊢
    by_cases hord : IsOrdinary m s = true
    · obtain ⟨halone, hroom, htaken⟩ := h.ordinary hg hj.room hord hr
      exact ⟨halone, hjoint halone hroom, htaken⟩
    · rw [Bool.not_eq_true] at hord
      rw [resolve_empty hmini hord] at hr
      cases hr
      obtain ⟨hsectors, hminis, hcalls⟩ := taken_cons_empty hmini hord done (done.any (IsMini m))
      have halone : (m.resolve s {}).1 = .ok [] := by rw [resolve_empty hmini hord]
      refine ⟨halone, hjoint halone ((Room.cons_empty hmini hord).2 hj.room), ?_⟩
      refine ⟨?_, ?_, ?_, h.ready, h.container, h.found⟩
      · rw [hsectors]
        exact h.sector
      · rw [hminis]
        exact h.mini
      · rw [hcalls]
        exact h.last

theorem Taken.resolve_ok (hg : Geometry m) (h : Taken m done (done.any (IsMini m)) u) (hj : Joint m done)
    (hcons : Joint m (s :: done)) : ∃ extents u', m.resolve s u = (.ok extents, u') := by
  obtain ⟨extents, halone⟩ := hcons.alone s List.mem_cons_self
  have hroom := hcons.room
  by_cases hmini : IsMini m s = true
  · rw [List.any_cons, hmini, Bool.true_or] at hroom
    obtain ⟨hok, chain, hchain⟩ := (mini_alone hg hmini).1 halone
    exact ⟨extents, h.mini_ok hg hj.room hmini hok hchain hroom⟩
  · rw [Bool.not_eq_true] at hmini
    rw [List.any_cons, hmini, Bool.false_or] at hroom
    by_cases hord : IsOrdinary m s = true
    · exact ⟨extents, h.ordinary_ok hj.room hord halone hroom⟩
    · rw [Bool.not_eq_true] at hord
      exact ⟨[], u, resolve_empty hmini hord u⟩

theorem sectorsTaken_perm {others : List CfbNode} (hp : streams.Perm others) :
    (sectorsTaken m streams inUse).Perm (sectorsTaken m others inUse) := (hp.flatMap_right _).append_right _

theorem Joint.perm {others : List CfbNode} (h : Joint m streams) (hp : streams.Perm others) : Joint m others := by
  have hany : others.any (IsMini m) = streams.any (IsMini m) := by
    rw [Bool.eq_iff_iff, List.any_eq_true, List.any_eq_true]
    simp only [hp.mem_iff]
  refine ⟨fun s hs => h.alone s (hp.mem_iff.2 hs), ?_⟩
  rw [hany]
  refine ⟨(sectorsTaken_perm hp).nodup_iff.1 h.room.sectors, ((hp.flatMap_right _).nodup_iff).1 h.room.minis, ?_⟩
  have hcalls := h.room.calls
  rwa [callsMade, hp.countP_eq] at hcalls

theorem Room.sublist {others : List CfbNode} {inUse' : Bool} (h : Room m streams inUse)
    (hs : others.Sublist streams) (himp : inUse' = true → inUse = true) : Room m others inUse' := by
  refine ⟨h.sectors.sublist ((hs.flatMap (sectorsOf m)).append ?_), h.minis.sublist (hs.flatMap _), ?_⟩
  · cases inUse' with
    | false => exact List.nil_sublist _
    | true =>
        rw [himp rfl]
  · refine Nat.lt_of_le_of_lt (Nat.add_le_add (hs.countP_le) ?_) h.calls
    by_cases hin : inUse' = true ∧ m.miniContainerSize ≠ 0
    · rw [if_pos hin, if_pos ⟨himp hin.1, hin.2⟩]
    · simp only [if_neg hin, Nat.zero_le]

theorem Joint.sublist {others : List CfbNode} (h : Joint m streams) (hs : others.Sublist streams) : Joint m others := by
  refine ⟨fun s hm => h.alone s (hs.subset hm), h.room.sublist hs fun hany => ?_⟩
  obtain ⟨s, hm, hmini⟩ := List.any_eq_true.1 hany
  exact List.any_eq_true.2 ⟨s, hs.subset hm, hmini⟩

/-- The state after the streams in `done` were resolved, in any order. -/
structure After (m : PackageModel) (done : List CfbNode) (u : Usage) : Prop where
  joint : Joint m done
  taken : Taken m done (done.any (IsMini m)) u

theorem After.initial (m : PackageModel) : After m [] {} := ⟨Joint.initial m, Taken.initial m⟩

theorem After.perm {others : List CfbNode} (h : After m done u) (hp : done.Perm others) : After m others u := by
  have hany : others.any (IsMini m) = done.any (IsMini m) := by
    rw [Bool.eq_iff_iff, List.any_eq_true, List.any_eq_true]
    simp only [hp.mem_iff]
  refine ⟨h.joint.perm hp, ?_⟩
  rw [hany]
  have hminis : (done.flatMap (minisOf m)).Perm (others.flatMap (minisOf m)) := hp.flatMap_right _
  refine ⟨fun x => ?_, fun x => ?_, ?_, h.taken.ready, h.taken.container, h.taken.found⟩
  · rw [h.taken.sector x, (sectorsTaken_perm hp).mem_iff]
  · rw [h.taken.mini x, hminis.mem_iff]
  · rw [h.taken.last, callsMade, callsMade, hp.countP_eq]

theorem After.resolve (hg : Geometry m) (h : After m done u) (hr : m.resolve s u = (.ok extents, u')) :
    (m.resolve s {}).1 = .ok extents ∧ After m (s :: done) u' := by
  obtain ⟨halone, hj, ht⟩ := h.taken.resolve hg h.joint hr
  exact ⟨halone, hj, ht⟩

/-- What can be resolved together can be resolved in any order, with the same result for each stream. -/
theorem After.resolve_ok (hg : Geometry m) (h : After m done u) (hcons : Joint m (s :: done)) :
    ∃ extents u', m.resolve s u = (.ok extents, u') ∧ (m.resolve s {}).1 = .ok extents ∧ After m (s :: done) u' := by
  obtain ⟨extents, u', hr⟩ := h.taken.resolve_ok hg h.joint hcons
  exact ⟨extents, u', hr, h.resolve hg hr⟩

end TheSeed.CfbJoint
