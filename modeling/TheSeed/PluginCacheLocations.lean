import TheSeed.PluginCacheRuns

namespace TheSeed.PluginCacheLocations

open TheSeed.Transition TheSeed.PluginCache TheSeed.PluginCacheRuns Function

/-! Which locations the load behind an outcome knew. -/

variable {s t : State} {i j : CallId} {g : GetCall} {pc pc₀ : Pc} {n p : String} {o : Outcome}

/-- Records and running calls know a beginning of the configured locations. -/
structure Versioned (s : State) : Prop where
  version : s.version = s.paths.length
  bound : s.paths.length ≤ kMaxPaths
  flight : ∀ n f, s.inFlight n = some f →
    f.version ≤ s.version ∧ s.snapshots f.future = s.paths.take f.version
  added : ∀ p ∈ s.added, p ∈ s.paths
  pushed : ∀ i p, s.calls i = some (.pathAdd p .pushed) → p ∈ s.paths
  began : ∀ i g, s.calls i = some (.get g) → ∀ p ∈ g.added, p ∈ s.paths

theorem Versioned.goto (h : Versioned s) (hg : ∀ p ∈ g.added, p ∈ s.paths)
    (hcalls : t.calls = update s.calls i (some (.get { g with pc := pc })))
    (hv : t.version = s.version) (hp : t.paths = s.paths) (ha : t.added = s.added)
    (hf : ∀ n f, t.inFlight n = some f →
      f.version ≤ s.version ∧ t.snapshots f.future = s.paths.take f.version) : Versioned t where
  version := by rw [hv, hp, h.version]
  bound := hp ▸ h.bound
  flight n f hnf := by
    rw [hv, hp]
    exact hf n f hnf
  added p hpa := hp ▸ h.added p (ha ▸ hpa)
  pushed j p hj := by
    rw [hcalls, update_apply] at hj
    split at hj
    · cases hj
    · exact hp ▸ h.pushed j p hj
  began j g' hj p hpg := by
    rw [hcalls, update_apply] at hj
    rw [hp]
    split at hj
    · cases hj
      exact hg p hpg
    · exact h.began j g' hj p hpg

theorem Versioned.addGoto {q : AddPc} (h : Versioned s) (hq : q = .pushed → p ∈ s.paths) :
    Versioned (s.addGoto i p q) where
  version := h.version
  bound := h.bound
  flight := h.flight
  added := h.added
  pushed j p' hj := by
    simp only [State.addGoto, update_apply] at hj
    split at hj
    · cases hj
      exact hq rfl
    · exact h.pushed j p' hj
  began j g' hj := by
    simp only [State.addGoto, update_apply] at hj
    split at hj
    · cases hj
    · exact h.began j g' hj

theorem step_versioned (hv : SingleFlight.Inv (view s)) (h : Versioned s) (hst : Step s t) : Versioned t := by
  cases hst with
  | begin i r hi =>
      exact h.goto (g := ⟨r, s.added, (s.entries r.name).isSome, .start⟩) h.added rfl rfl rfl rfl h.flight
  | uniqueOwn i g hat he hf =>
      refine h.goto (h.began i g hat.1) rfl rfl rfl rfl fun n f hnf => ?_
      simp only [update_apply] at hnf ⊢
      split at hnf
      · cases hnf
        rw [if_pos rfl, h.version, List.take_length]
        exact ⟨Nat.le_refl _, rfl⟩
      · have hne : f.future ≠ i := by
          intro heq
          have hrole := flight_role hv hnf
          rw [heq, view_role hat.1, hat.2] at hrole
          cases hrole
        rw [if_neg hne]
        exact h.flight n f hnf
  | publish i g e hat | fail i g e hat =>
      refine h.goto (h.began i g hat.1) rfl rfl rfl rfl fun n f hnf => ?_
      simp only [update_apply] at hnf
      split at hnf
      · cases hnf
      · exact h.flight n f hnf
  | addBegin i p hi => exact h.addGoto fun hq => absurd hq (by decide)
  | addThrows i p hi hp => exact h.addGoto fun hq => absurd hq (by decide)
  | addPush i p hi hp =>
      have hlt : s.paths.length + 1 < 2 ^ 64 := by
        have hmax : kMaxPaths < 2 ^ 63 := by decide
        omega
      refine ⟨?_, ?_, fun n f hf => ?_, fun p' hp' => ?_, fun j p' hj => ?_, fun j g' hj p' hp' => ?_⟩
      · rw [h.version, Nat.mod_eq_of_lt hlt, List.length_append, List.length_singleton]
      · rw [List.length_append, List.length_singleton]
        exact hp
      · obtain ⟨hle, hsnap⟩ := h.flight n f hf
        have hlen : f.version ≤ s.paths.length := h.version ▸ hle
        rw [h.version, Nat.mod_eq_of_lt hlt, List.take_append_of_le_length hlen]
        exact ⟨Nat.le_succ_of_le hlen, hsnap⟩
      · exact List.mem_append_left _ (h.added p' hp')
      · simp only [State.addGoto, update_apply] at hj
        split at hj
        · cases hj
          exact List.mem_append_right _ (List.mem_singleton.2 rfl)
        · exact List.mem_append_left _ (h.pushed j p' hj)
      · simp only [State.addGoto, update_apply] at hj
        split at hj
        · cases hj
        · exact List.mem_append_left _ (h.began j g' hj p' hp')
  | addReturn i p hi =>
      have hgoto := h.addGoto (i := i) (p := p) (q := .returned) fun hq => absurd hq (by decide)
      refine ⟨hgoto.version, hgoto.bound, hgoto.flight, fun p' hp' => ?_, hgoto.pushed, hgoto.began⟩
      rcases List.mem_cons.1 hp' with rfl | hp'
      · exact h.pushed i _ hi
      · exact h.added p' hp'
  | sharedHit _ _ _ hat | sharedMiss _ _ hat | uniqueHit _ _ _ hat | uniqueShare _ _ _ hat
    | uniqueWait _ _ _ hat | shared _ _ _ _ hat | waited _ _ _ _ hat
    | searchFound _ _ _ _ _ hat | searchMissing _ _ _ _ _ hat | searchThrows _ _ _ _ _ hat
    | openAcquire _ _ _ hat | openKnown _ _ _ _ hat | openPinned _ _ _ _ hat
    | openPinnedFails _ _ _ _ hat | openEmplace _ _ _ _ hat | symbolFound _ _ _ _ _ hat
    | symbolMissing _ _ _ _ _ hat | setValue _ _ _ hat | deliver _ _ _ hat =>
      exact h.goto (h.began _ _ hat.1) rfl rfl rfl rfl h.flight

/-- A `Get` that began with no entry remembered has an outcome of a load that knew every location
whose `PathAdd` had returned by then. -/
def UsesAdded (s : State) : Prop :=
  ∀ i g o source, s.At i g (.done o source) → g.remembered = false →
    Concludes s (source.load i) g.request.name o ∧ ∀ p ∈ g.added, p ∈ s.snapshots (source.load i)

def Running (g : GetCall) : Prop := ∀ o source, g.pc ≠ .done o source

/-- A name becomes remembered only by a load that knew every location that any running `Get` of the
name, begun with no entry remembered, has to use. -/
def Timely (s t : State) : Prop :=
  ∀ n, s.entries n = none → t.entries n ≠ none → ∀ i g, s.calls i = some (.get g) → g.request.name = n →
    g.remembered = false → Running g → ∀ p ∈ g.added, p ∈ t.snapshots (t.loadedBy n)

/-- The locations a call has to use are known to the load it takes its outcome from. -/
def Covered (s : State) (i : CallId) (added : List String) : Pc → Prop
  | .start | .missed | .waiting _ => True
  | .sharing f => ∀ p ∈ added, p ∈ s.snapshots f
  | .done _ source => ∀ p ∈ added, p ∈ s.snapshots (source.load i)
  | _ => ∀ p ∈ added, p ∈ s.snapshots i

structure Fresh (s : State) : Prop where
  remembered : ∀ i g e, s.calls i = some (.get g) → g.remembered = false → Running g →
    s.entries g.request.name = some e → ∀ p ∈ g.added, p ∈ s.snapshots (s.loadedBy g.request.name)
  covered : ∀ i g, s.calls i = some (.get g) → g.remembered = false → Covered s i g.added g.pc

/-- The snapshot of a load does not change. -/
theorem step_snapshots (hst : Step s t) (hj : ∀ m, (view s).role j ≠ .asking m) :
    t.snapshots j = s.snapshots j := by
  cases hst with
  | uniqueOwn i g hat he hf =>
      have hne : j ≠ i := by
        rintro rfl
        rw [view_role hat.1, hat.2] at hj
        exact hj _ rfl
      exact update_of_ne hne _ _
  | _ => rfl

theorem loadedBy_step (hv : SingleFlight.Inv (view s)) (hst : Step s t) {e : Entry}
    (he : s.entries n = some e) : t.loadedBy n = s.loadedBy n := by
  have hk : (view s).kept n = some (s.loadedBy n, e) := by simp only [view, he, Option.map_some]
  have ht : (view t).kept n = some (s.loadedBy n, e) := by
    rcases step_view hst with heq | hstep
    · rw [heq, hk]
    · exact SingleFlight.step_kept hv hstep hk
  obtain ⟨e', he', hpair⟩ := Option.map_eq_some_iff.1 ht
  exact (Prod.mk.inj hpair).1

theorem role_of_backed (h : Backed s n pc) : ∀ f, (pc = .sharing f ∨ ∃ o, pc = .done o (.shared f) ∨
    pc = .done o (.remembered f)) → ∀ m, (view s).role f ≠ .asking m := by
  rintro f (rfl | ⟨o, rfl | rfl⟩) m hm
  · rcases h with h | ⟨o, h⟩
    · exact absurd (h.symm.trans hm) (by simp)
    · exact absurd (h.symm.trans hm) (by simp)
  · exact absurd ((show (view s).role f = .settled n o from h).symm.trans hm) (by simp)
  · exact absurd (h.2.symm.trans hm) (by simp)

/-- Where a call has got to, the load it depends on keeps its snapshot. -/
theorem Covered.step {added : List String} (hst : Step s t) (h : Covered s i added pc)
    (hb : Backed s n pc) (hr : (∀ m, role n pc ≠ .asking m) → ∀ m, (view s).role i ≠ .asking m) :
    Covered t i added pc := by
  have hself : (∀ m, role n pc ≠ .asking m) → t.snapshots i = s.snapshots i :=
    fun hpc => step_snapshots hst (hr hpc)
  cases hpc : pc with
  | start | missed | waiting => trivial
  | sharing f =>
      have hsnap := step_snapshots hst (role_of_backed hb f (.inl hpc))
      subst hpc
      exact fun p hp => hsnap ▸ h p hp
  | done o source =>
      have hsnap : t.snapshots (source.load i) = s.snapshots (source.load i) := by
        cases source with
        | remembered f => exact step_snapshots hst (role_of_backed hb f (.inr ⟨o, .inr hpc⟩))
        | shared f => exact step_snapshots hst (role_of_backed hb f (.inr ⟨o, .inl hpc⟩))
        | own => exact hself (by simp [hpc, role])
      subst hpc
      exact fun p hp => hsnap ▸ h p hp
  | search | openLock | openLocked | openEmplace | symbol | publish | fail | setValue | deliver =>
      have hsnap := hself (by simp [hpc, role])
      subst hpc
      exact fun p hp => hsnap ▸ h p hp

theorem Fresh.covered_step (h : Fresh s) (hon : Honest s) (hst : Step s t) (hj : s.calls j = some (.get g))
    (hrem : g.remembered = false) : Covered t j g.added g.pc := by
  refine (h.covered j g hj hrem).step hst (hon.backed j g hj) fun hr m hm => ?_
  rw [view_role hj] at hm
  exact hr m hm

theorem Fresh.remembered_step (h : Fresh s) (hv : SingleFlight.Inv (view s)) (hst : Step s t)
    (htimely : Timely s t) (hj : s.calls j = some (.get g)) (hrem : g.remembered = false) (hrun : Running g)
    {e : Entry} (he : t.entries g.request.name = some e) :
    ∀ p ∈ g.added, p ∈ t.snapshots (t.loadedBy g.request.name) := by
  match hs : s.entries g.request.name with
  | none =>
      have hne : t.entries g.request.name ≠ none := by
        rw [he]
        exact Option.some_ne_none e
      exact htimely _ hs hne j g hj rfl hrem hrun
  | some e₀ =>
      have hload := loadedBy_step hv hst hs
      have hsnap : t.snapshots (s.loadedBy g.request.name) = s.snapshots (s.loadedBy g.request.name) :=
        step_snapshots hst (by simp [kept_role hv hs])
      intro p hp
      rw [hload, hsnap]
      exact h.remembered j g e₀ hj hrem hrun hs p hp

/-- One `Get` moved on, to where the load it depends on knows its locations. -/
theorem Fresh.goto (h : Fresh s) (hv : SingleFlight.Inv (view s)) (hon : Honest s) (hst : Step s t)
    (htimely : Timely s t) (hat : s.At i g pc₀) (hrun : Running { g with pc := pc₀ })
    (hcalls : t.calls = update s.calls i (some (.get { g with pc := pc })))
    (hc : g.remembered = false → Covered t i g.added pc) : Fresh t := by
  have hrunning : Running g := by
    intro o source hpc
    exact hrun o source (hat.2.symm.trans hpc)
  constructor
  · intro j g' e hj hrem hrunj he
    rw [hcalls, update_apply] at hj
    split at hj
    · cases hj
      exact h.remembered_step (g := g) hv hst htimely hat.1 hrem hrunning he
    · exact h.remembered_step hv hst htimely hj hrem hrunj he
  · intro j g' hj hrem
    rw [hcalls, update_apply] at hj
    split at hj
    next heq =>
      cases hj
      rw [heq]
      exact hc hrem
    · exact h.covered_step hon hst hj hrem

theorem Fresh.other {c : Call} (h : Fresh s) (hv : SingleFlight.Inv (view s)) (hon : Honest s) (hst : Step s t)
    (htimely : Timely s t) (hcalls : t.calls = update s.calls i (some c))
    (hc : ∀ g, c = .get g → g.pc = .start ∧ (g.remembered = false → t.entries g.request.name = none)) :
    Fresh t := by
  constructor
  · intro j g' e hj hrem hrunj he
    rw [hcalls, update_apply] at hj
    split at hj
    · have hnone := (hc g' (Option.some.inj hj)).2 hrem
      rw [he] at hnone
      cases hnone
    · exact h.remembered_step hv hst htimely hj hrem hrunj he
  · intro j g' hj hrem
    rw [hcalls, update_apply] at hj
    split at hj
    · rw [(hc g' (Option.some.inj hj)).1]
      trivial
    · exact h.covered_step hon hst hj hrem

theorem step_fresh (hv : SingleFlight.Inv (view s)) (hon : Honest s) (hver : Versioned s) (h : Fresh s)
    (hst : Step s t) (htimely : Timely s t) : Fresh t := by
  have hself : ∀ {i g pc₀}, s.At i g pc₀ → g.remembered = false → Covered s i g.added pc₀ := by
    intro i g pc₀ hat hrem
    exact hat.2 ▸ h.covered i g hat.1 hrem
  cases id hst with
  | begin i r hi =>
      refine h.other hv hon hst htimely rfl fun g' hg' => ?_
      cases hg'
      exact ⟨rfl, fun hrem => Option.isSome_eq_false_iff.1 hrem |> Option.isNone_iff_eq_none.1⟩
  | addBegin i p | addPush i p | addThrows i p | addReturn i p =>
      refine h.other hv hon hst htimely rfl fun g' hg' => ?_
      cases hg'
  | sharedHit i g e hat he | uniqueHit i g e hat he =>
      exact h.goto hv hon hst htimely hat nofun rfl fun hrem =>
        h.remembered i g e hat.1 hrem (by rw [Running, hat.2]; nofun) he
  | uniqueShare i g f hat he hf hveq =>
      refine h.goto hv hon hst htimely hat nofun rfl fun hrem p hp => ?_
      have hsnap := (hver.flight _ f hf).2
      rw [hveq, hver.version, List.take_length] at hsnap
      exact hsnap.symm ▸ hver.began i g hat.1 p hp
  | uniqueOwn i g hat he hf =>
      refine h.goto hv hon hst htimely hat nofun rfl fun hrem p hp => ?_
      simp only [update_self]
      exact hver.began i g hat.1 p hp
  | shared i g f o hat ho => exact h.goto hv hon hst htimely hat nofun rfl fun hrem => hself hat hrem
  | sharedMiss i g hat | uniqueWait i g f hat | waited i g f o hat =>
      exact h.goto hv hon hst htimely hat nofun rfl fun _ => trivial
  | searchFound _ _ _ _ _ hat | searchMissing _ _ _ _ _ hat | searchThrows _ _ _ _ _ hat
    | openAcquire _ _ _ hat | openKnown _ _ _ _ hat | openPinned _ _ _ _ hat
    | openPinnedFails _ _ _ _ hat | openEmplace _ _ _ _ hat | symbolFound _ _ _ _ _ hat
    | symbolMissing _ _ _ _ _ hat | publish _ _ _ hat | fail _ _ _ hat | setValue _ _ _ hat
    | deliver _ _ _ hat => exact h.goto hv hon hst htimely hat nofun rfl fun hrem => hself hat hrem

theorem versioned (h : cache.Reachable s) : Versioned s := by
  obtain ⟨s₀, rfl, hst⟩ := h
  induction hst with
  | refl =>
      refine ⟨rfl, Nat.zero_le _, fun n f h => (Option.some_ne_none f h.symm).elim,
        fun p h => absurd h List.not_mem_nil, fun i p h => (init_calls h).elim, fun i g h => (init_calls h).elim⟩
  | @tail b c hb hbc ih => exact step_versioned (view_inv ⟨init, rfl, hb⟩) ih hbc

theorem fresh (h : (cache.restrict Timely).Reachable s) : cache.Reachable s ∧ Fresh s := by
  obtain ⟨s₀, rfl, hst⟩ := h
  induction hst with
  | refl => exact ⟨.start rfl, fun i g e h => (init_calls h).elim, fun i g h => (init_calls h).elim⟩
  | @tail b c hb hbc ih =>
      have hv := view_inv ih.1
      exact ⟨ih.1.next hbc.1, step_fresh hv (honest ih.1) (versioned ih.1) ih.2 hbc.1 hbc.2⟩

theorem concludes_source (hon : Honest s) {source : Source} (hat : s.At i g (.done o source)) :
    Concludes s (source.load i) g.request.name o := by
  have hb : Backed s g.request.name (.done o source) := hat.2 ▸ hon.backed i g hat.1
  cases source with
  | remembered f => exact concludes_of_role hb.2
  | shared f => exact concludes_of_role hb
  | own => exact ⟨g, hat.1, rfl, .inr (.inr hat.2)⟩

theorem timely_runs_use_added (h : (cache.restrict Timely).Reachable s) : UsesAdded s := by
  obtain ⟨hs, hfresh⟩ := fresh h
  intro i g o source hat hrem
  have hc : Covered s i g.added (.done o source) := hat.2 ▸ hfresh.covered i g hat.1 hrem
  exact ⟨concludes_source (honest hs) hat, hc⟩

theorem timely_of_no_entry (h : ∀ n, t.entries n = none) : Timely s t :=
  fun n _ ht => absurd (h n) ht

/-- The `Get` that runs before the location is added, and the one that begins after. -/
def earlyGet (pc : Pc) : GetCall := ⟨sampleRequest, [], false, pc⟩

def lateGet (pc : Pc) : GetCall := ⟨sampleRequest, ["/q"], false, pc⟩

/-- A load fails that began before the location was added; the request that waited for it loads again. -/
theorem timely_runs_use_added_sample : ∃ s pc, (cache.restrict Timely).Reachable s ∧
    s.calls 2 = some (.get (lateGet pc)) ∧ (∃ e, pc = .done (.error e) .own) ∧ UsesAdded s := by
  have h0 : (cache.restrict Timely).Reachable init := .start rfl
  have h1 := h0.next ⟨.begin _ 0 sampleRequest rfl, timely_of_no_entry fun _ => rfl⟩
  have h2 := h1.next ⟨.sharedMiss _ 0 (earlyGet .start) ⟨rfl, rfl⟩ rfl, timely_of_no_entry fun _ => rfl⟩
  have h3 := h2.next ⟨.uniqueOwn _ 0 (earlyGet .missed) ⟨rfl, rfl⟩ rfl rfl, timely_of_no_entry fun _ => rfl⟩
  have h4 := h3.next ⟨.addBegin _ 1 "/q" rfl, timely_of_no_entry fun _ => rfl⟩
  have h5 := h4.next ⟨.addPush _ 1 _ rfl (by decide : 0 < kMaxPaths), timely_of_no_entry fun _ => rfl⟩
  have h6 := h5.next ⟨.addReturn _ 1 _ rfl, timely_of_no_entry fun _ => rfl⟩
  have h7 := h6.next ⟨.begin _ 2 sampleRequest rfl, timely_of_no_entry fun _ => rfl⟩
  have h8 := h7.next ⟨.sharedMiss _ 2 (lateGet .start) ⟨rfl, rfl⟩ rfl, timely_of_no_entry fun _ => rfl⟩
  have h9 := h8.next ⟨.uniqueWait _ 2 (lateGet .missed) ⟨0, 0⟩ ⟨rfl, rfl⟩ rfl rfl Nat.zero_ne_one,
    timely_of_no_entry fun _ => rfl⟩
  have h10 := h9.next ⟨.searchThrows _ 0 (earlyGet (.search _ _)) _ _ "gone" ⟨rfl, rfl⟩, timely_of_no_entry fun _ => rfl⟩
  have h11 := h10.next ⟨.fail _ 0 (earlyGet (.fail _)) _ ⟨rfl, rfl⟩, timely_of_no_entry fun _ => rfl⟩
  have h12 := h11.next ⟨.setValue _ 0 (earlyGet (.setValue _)) _ ⟨rfl, rfl⟩, timely_of_no_entry fun _ => rfl⟩
  have h13 := h12.next ⟨.waited _ 2 (lateGet (.waiting 0)) 0 _ ⟨rfl, rfl⟩ rfl, timely_of_no_entry fun _ => rfl⟩
  have h14 := h13.next ⟨.sharedMiss _ 2 (lateGet .start) ⟨rfl, rfl⟩ rfl, timely_of_no_entry fun _ => rfl⟩
  have h15 := h14.next ⟨.uniqueOwn _ 2 (lateGet .missed) ⟨rfl, rfl⟩ rfl rfl, timely_of_no_entry fun _ => rfl⟩
  have h16 := h15.next ⟨.searchThrows _ 2 (lateGet (.search _ _)) _ _ "gone" ⟨rfl, rfl⟩, timely_of_no_entry fun _ => rfl⟩
  have h17 := h16.next ⟨.fail _ 2 (lateGet (.fail _)) _ ⟨rfl, rfl⟩, timely_of_no_entry fun _ => rfl⟩
  have h18 := h17.next ⟨.setValue _ 2 (lateGet (.setValue _)) _ ⟨rfl, rfl⟩, timely_of_no_entry fun _ => rfl⟩
  have h19 := h18.next ⟨.deliver _ 2 (lateGet (.deliver _)) _ ⟨rfl, rfl⟩, timely_of_no_entry fun _ => rfl⟩
  exact ⟨_, _, h19, rfl, ⟨_, rfl⟩, timely_runs_use_added h19⟩

/-- The load that began before the location was added succeeds, and its entry answers the request. -/
theorem request_misses_added_location : ¬ ∀ s, cache.Reachable s → UsesAdded s := by
  intro hall
  have h0 : cache.Reachable init := .start rfl
  have h1 := h0.next (.begin _ 0 sampleRequest rfl)
  have h2 := h1.next (.sharedMiss _ 0 (earlyGet .start) ⟨rfl, rfl⟩ rfl)
  have h3 := h2.next (.uniqueOwn _ 0 (earlyGet .missed) ⟨rfl, rfl⟩ rfl rfl)
  have h4 := h3.next (.addBegin _ 1 "/q" rfl)
  have h5 := h4.next (.addPush _ 1 _ rfl (by decide : 0 < kMaxPaths))
  have h6 := h5.next (.addReturn _ 1 _ rfl)
  have h7 := h6.next (.begin _ 2 sampleRequest rfl)
  have h8 := h7.next (.sharedMiss _ 2 (lateGet .start) ⟨rfl, rfl⟩ rfl)
  have h9 := h8.next (.uniqueWait _ 2 (lateGet .missed) ⟨0, 0⟩ ⟨rfl, rfl⟩ rfl rfl Nat.zero_ne_one)
  have h10 := h9.next (.searchFound _ 0 (earlyGet (.search _ _)) _ _ sampleSearch ⟨rfl, rfl⟩ rfl)
  have h11 := h10.next (.openAcquire _ 0 (earlyGet (.openLock _)) _ ⟨rfl, rfl⟩ rfl)
  have h12 := h11.next (.openPinned _ 0 (earlyGet (.openLocked _)) _ 3 ⟨rfl, rfl⟩ rfl)
  have h13 := h12.next (.openEmplace _ 0 (earlyGet (.openEmplace _ _)) _ _ ⟨rfl, rfl⟩)
  have h14 := h13.next (.symbolFound _ 0 (earlyGet (.symbol _ _)) _ _ 5 ⟨rfl, rfl⟩)
  have h15 := h14.next (.publish _ 0 (earlyGet (.publish _)) _ ⟨rfl, rfl⟩)
  have h16 := h15.next (.setValue _ 0 (earlyGet (.setValue _)) _ ⟨rfl, rfl⟩)
  have h17 := h16.next (.waited _ 2 (lateGet (.waiting 0)) 0 _ ⟨rfl, rfl⟩ rfl)
  have h18 := h17.next (.sharedHit _ 2 (lateGet .start) _ ⟨rfl, rfl⟩ rfl)
  have hused := (hall _ h18 2 (lateGet (.done _ _)) _ _ ⟨rfl, rfl⟩ rfl).2 "/q" (List.mem_cons_self ..)
  change "/q" ∈ [] at hused
  exact List.not_mem_nil hused

end TheSeed.PluginCacheLocations
