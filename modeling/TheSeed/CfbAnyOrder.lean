import TheSeed.CfbJoint

namespace TheSeed.CfbAnyOrder

open Bytes Checked CfbReader CfbResolve CfbJoint

/-! The order in which streams are resolved does not matter: what a sequence of calls gives, all its calls give in
every other order, and some of them without the others. -/

variable {m : PackageModel} {calls done others : List CfbNode} {u : Usage}

/-- All calls of a sequence on a new model return. -/
def AllResolved (m : PackageModel) (calls : List CfbNode) : Prop :=
  ∀ call ∈ resolveAll m calls {}, ∃ extents, call.2 = .ok extents

theorem joint_of_resolved (hg : Geometry m) (h : After m done u) (hall : ∀ call ∈ resolveAll m calls u, ∃ extents, call.2 = .ok extents) :
    Joint m (calls.reverse ++ done) := by
  induction calls generalizing done u with
  | nil => exact h.joint
  | cons stream rest ih =>
      rw [resolveAll, List.forall_mem_cons] at hall
      obtain ⟨⟨extents, hfirst⟩, hrest⟩ := hall
      have hnext := (h.resolve hg (Prod.ext hfirst rfl)).2
      rw [List.reverse_cons, List.append_assoc, List.singleton_append]
      exact ih hnext hrest

/-- Streams that can be resolved together are, each with what it gives on its own. -/
theorem resolved_of_joint (hg : Geometry m) (h : After m done u) (hjoint : Joint m (calls ++ done)) :
    ∀ call ∈ resolveAll m calls u, ∃ extents, call.2 = .ok extents ∧ (m.resolve call.1 {}).1 = .ok extents := by
  induction calls generalizing done u with
  | nil =>
      intro call hcall
      cases hcall
  | cons stream rest ih =>
      rw [List.cons_append] at hjoint
      have hfirst : Joint m (stream :: done) :=
        hjoint.sublist ((List.sublist_append_right rest done).cons_cons stream)
      obtain ⟨extents, u', hr, halone, hafter⟩ := h.resolve_ok hg hfirst
      rw [resolveAll, List.forall_mem_cons, hr]
      refine ⟨⟨extents, rfl, halone⟩, ?_⟩
      apply ih hafter
      exact hjoint.perm List.perm_middle.symm

theorem allResolved_iff (hg : Geometry m) : AllResolved m calls ↔ Joint m calls := by
  constructor
  · intro h
    have hjoint := joint_of_resolved hg (After.initial m) h
    rw [List.append_nil] at hjoint
    exact hjoint.perm (List.reverse_perm calls)
  · intro h call hcall
    rw [← List.append_nil calls] at h
    obtain ⟨extents, hok, -⟩ := resolved_of_joint hg (After.initial m) h call hcall
    exact ⟨extents, hok⟩

/-- When all calls of a sequence return, so does every selection of them in every order, and each call gives the ranges
that it gives alone on a new model. -/
theorem resolved_in_any_order {bytes : List UInt8} (h : parse bytes = .ok m) (calls others : List CfbNode)
    (hselect : others.Subperm calls) (hall : AllResolved m calls) :
    AllResolved m others ∧ ∀ call ∈ resolveAll m others {}, call.2 = (m.resolve call.1 {}).1 := by
  have hg := (parse_accepted h).geometry
  obtain ⟨chosen, hperm, hsublist⟩ := hselect
  have hjoint : Joint m others := (((allResolved_iff hg).1 hall).sublist hsublist).perm hperm
  refine ⟨(allResolved_iff hg).2 hjoint, fun call hcall => ?_⟩
  rw [← List.append_nil others] at hjoint
  obtain ⟨extents, hok, halone⟩ := resolved_of_joint hg (After.initial m) hjoint call hcall
  rw [hok, halone]

/-- Two streams in the mini container, of 100 and of 10 bytes. -/
def minisPackage : List UInt8 :=
  kMagic ++ List.replicate 16 0 ++ leBytes 2 0x3E ++ leBytes 2 3 ++ leBytes 2 0xFFFE ++ leBytes 2 9 ++ leBytes 2 6 ++
    List.replicate 10 0 ++ leBytes 4 1 ++ leBytes 4 1 ++ leBytes 4 0 ++ leBytes 4 4096 ++ leBytes 4 2 ++
    leBytes 4 1 ++ leBytes 4 kCfbEndOfChain ++ leBytes 4 0 ++ leBytes 4 0 ++ List.replicate 432 0xFF ++
  leBytes 4 0xFFFFFFFD ++ leBytes 4 kCfbEndOfChain ++ leBytes 4 kCfbEndOfChain ++ leBytes 4 kCfbEndOfChain ++
    List.replicate 496 0xFF ++
  sampleEntry 0x52 kTypeRoot kCfbNoStream 1 3 192 ++ sampleEntry 0x41 kTypeStream 2 kCfbNoStream 0 100 ++
    sampleEntry 0x42 kTypeStream kCfbNoStream kCfbNoStream 2 10 ++ List.replicate 128 0 ++
  leBytes 4 1 ++ leBytes 4 kCfbEndOfChain ++ leBytes 4 kCfbEndOfChain ++ List.replicate 500 0xFF ++
  List.replicate 512 7

theorem resolved_in_any_order_minis : ∃ m, parse minisPackage = .ok m ∧
    AllResolved m m.root.children.reverse ∧
      ∀ call ∈ resolveAll m m.root.children.reverse {}, call.2 = (m.resolve call.1 {}).1 := by
  have hboth : (parse minisPackage >>= fun m => (resolveAll m m.root.children {}).mapM fun call => call.2).isOk = true := by
    decide +kernel
  obtain ⟨out, hout⟩ := exists_of_isOk hboth
  obtain ⟨m, hparse, hmap⟩ := bind_eq_ok.1 hout
  have hall : AllResolved m m.root.children := by
    intro call hcall
    obtain ⟨k, hk⟩ := List.mem_iff_getElem?.1 hcall
    obtain ⟨extents, -, hok⟩ := forall₂_getElem? (mapM_eq_ok.1 hmap) hk
    exact ⟨extents, hok⟩
  exact ⟨m, hparse, resolved_in_any_order hparse _ _ (List.reverse_perm _).subperm hall⟩

end TheSeed.CfbAnyOrder
