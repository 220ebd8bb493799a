import Mathlib.Tactic.Common
import Mathlib.Data.List.Basic
import TheSeed.PluginCache

namespace TheSeed.PluginCacheRuns

open TheSeed.Transition TheSeed.PluginCache Function

/-! Every interleaving of `Get` and `PathAdd`, seen as callers of a single-flight store. -/

variable {s t : State} {i j : CallId} {g g' : GetCall} {pc pc₀ : Pc} {n p : String} {o : Outcome}

def role (name : String) : Pc → SingleFlight.Role String Entry Failure
  | .start | .missed | .sharing _ | .waiting _ => .asking name
  | .search _ _ | .openLock _ | .openLocked _ | .openEmplace _ _ | .symbol _ _ | .publish _ | .fail _ =>
      .loading name
  | .setValue outcome | .deliver outcome | .done outcome .own => .settled name outcome
  | .done _ (.remembered _) | .done _ (.shared _) => .asking name

def callRole : Option Call → SingleFlight.Role String Entry Failure
  | some (.get g) => role g.request.name g.pc
  | some (.pathAdd _ _) | none => .absent

def view (s : State) : SingleFlight.State CallId String Entry Failure where
  role i := callRole (s.calls i)
  flight n := (s.inFlight n).map fun f => f.future
  kept n := (s.entries n).map fun e => (s.loadedBy n, e)

theorem view_role (h : s.calls i = some (.get g)) : (view s).role i = role g.request.name g.pc := by
  simp only [view, h, callRole]

theorem role_goto (s : State) (i : CallId) (g : GetCall) (pc : Pc) :
    (view (s.goto i g pc)).role = update (view s).role i (role g.request.name pc) := by
  funext j
  by_cases hij : j = i
  · subst hij
    simp only [view, State.goto, update_self, callRole]
  · simp only [view, State.goto, update_of_ne hij]

/-- The single-flight store sees nothing of a step that keeps the role of its call. -/
theorem view_goto (h : s.At i g pc₀) (hr : role g.request.name pc = role g.request.name pc₀) :
    view (s.goto i g pc) = view s := by
  have hrole : (view (s.goto i g pc)).role = (view s).role := by
    rw [role_goto, hr, ← h.2, ← view_role h.1, update_eq_self]
  exact congrArg (fun r => SingleFlight.State.mk r (view s).flight (view s).kept) hrole

theorem view_addGoto {q : AddPc} (h : callRole (s.calls i) = .absent) : view (s.addGoto i p q) = view s := by
  have hrole : (view (s.addGoto i p q)).role = (view s).role := by
    funext j
    by_cases hij : j = i
    · subst hij
      simp only [view, State.addGoto, update_self, h]
      rfl
    · simp only [view, State.addGoto, update_of_ne hij]
  exact congrArg (fun r => SingleFlight.State.mk r (view s).flight (view s).kept) hrole

theorem flight_update (n : String) (f : Option InFlight) :
    (fun m => (update s.inFlight n f m).map fun f => f.future) =
      update (view s).flight n (f.map fun f => f.future) := by
  funext m
  by_cases hmn : m = n
  · subst hmn
    simp only [update_self]
  · simp only [update_of_ne hmn, view]

theorem kept_update (n : String) (e : Entry) (i : CallId) :
    (fun m => (update s.entries n (some e) m).map fun e => (update s.loadedBy n i m, e)) =
      update (view s).kept n (some (i, e)) := by
  funext m
  by_cases hmn : m = n
  · subst hmn
    simp only [update_self, Option.map_some]
  · simp only [update_of_ne hmn, view]

theorem refines : cache.Refines SingleFlight.system view fun _ => True where
  init s hs := by
    subst hs
    rfl
  step s t _ hst := by
    cases hst with
    | begin i r h =>
        have hrole := role_goto s i ⟨r, s.added, (s.entries r.name).isSome, .start⟩ .start
        refine .inr ?_
        have hask := SingleFlight.Step.ask (view s) i r.name (by simp only [view, h, callRole])
        rwa [← show _ = update (view s).role i (.asking r.name) from hrole] at hask
    | uniqueOwn i g h he hf =>
        refine .inr ?_
        have hown := SingleFlight.Step.own (view s) i g.request.name (by rw [view_role h.1, h.2]; rfl)
          (by simp only [view, hf, Option.map_none]) (by simp only [view, he, Option.map_none])
        rw [← show _ = update (view s).role i (.loading g.request.name) from
          role_goto s i g (.search (searchListBuild s.paths g.request.org g.request.library false).1
            (searchListBuild s.paths g.request.org g.request.library false).2)] at hown
        rwa [← show _ = update (view s).flight _ (some i) from
          flight_update g.request.name (some ⟨i, s.version⟩)] at hown
    | publish i g e h =>
        refine .inr ?_
        have hsucceed := SingleFlight.Step.succeed (view s) i g.request.name e (by rw [view_role h.1, h.2]; rfl)
        rw [← show _ = update (view s).role i (.settled g.request.name (.ok e)) from
          role_goto s i g (.setValue (.ok e))] at hsucceed
        rwa [← show _ = update (view s).flight _ none from flight_update g.request.name none,
          ← kept_update g.request.name e i] at hsucceed
    | fail i g e h =>
        refine .inr ?_
        have hfail := SingleFlight.Step.fail (view s) i g.request.name e (by rw [view_role h.1, h.2]; rfl)
        rw [← show _ = update (view s).role i (.settled g.request.name (.error e)) from
          role_goto s i g (.setValue (.error e))] at hfail
        rwa [← show _ = update (view s).flight _ none from flight_update g.request.name none] at hfail
    | sharedHit _ _ _ h | sharedMiss _ _ h | uniqueHit _ _ _ h | uniqueShare _ _ _ h | uniqueWait _ _ _ h
    | shared _ _ _ _ h | waited _ _ _ _ h | searchFound _ _ _ _ _ h | searchMissing _ _ _ _ _ h
    | searchThrows _ _ _ _ _ h | openAcquire _ _ _ h | openKnown _ _ _ _ h | openPinned _ _ _ _ h
    | openPinnedFails _ _ _ _ h | openEmplace _ _ _ _ h | symbolFound _ _ _ _ _ h
    | symbolMissing _ _ _ _ _ h | setValue _ _ _ h | deliver _ _ _ h => exact .inl (view_goto h rfl)
    | addBegin _ _ h | addPush _ _ h | addThrows _ _ h | addReturn _ _ h =>
        exact .inl (view_addGoto (by rw [h]; rfl))

theorem view_inv (h : cache.Reachable s) : SingleFlight.Inv (view s) :=
  SingleFlight.inv.reachable (refines.reachable ⟨fun _ _ => trivial, fun _ _ _ _ => trivial⟩ h)

theorem step_view (hst : Step s t) : view t = view s ∨ SingleFlight.Step (view s) (view t) :=
  refines.step s t trivial hst

theorem step_settled (hst : Step s t) (h : (view s).role i = .settled n o) : (view t).role i = .settled n o := by
  rcases step_view hst with heq | hstep
  · rw [heq]
    exact h
  · exact SingleFlight.step_settled hstep h

theorem step_loading (hst : Step s t) (h : (view s).role i = .loading n) :
    (view t).role i = .loading n ∨ ∃ o, (view t).role i = .settled n o := by
  rcases step_view hst with heq | hstep
  · rw [heq]
    exact .inl h
  · exact SingleFlight.step_loading hstep h

/-- What a call relies on that another call's promise gives it. -/
def Backed (s : State) (n : String) : Pc → Prop
  | .sharing f => (view s).role f = .loading n ∨ ∃ o, (view s).role f = .settled n o
  | .done o (.shared f) => (view s).role f = .settled n o
  | .done o (.remembered f) => (∃ e, o = .ok e) ∧ (view s).role f = .settled n o
  | _ => True

theorem Backed.step (hst : Step s t) (h : Backed s n pc) : Backed t n pc := by
  cases pc with
  | sharing f =>
      rcases h with h | ⟨o, h⟩
      · exact step_loading hst h
      · exact .inr ⟨o, step_settled hst h⟩
  | done o src =>
      cases src with
      | remembered f => exact ⟨h.1, step_settled hst h.2⟩
      | shared f => exact step_settled hst h
      | own => trivial
  | _ => trivial

/-- Promises are set by loads that ended so, and calls take only outcomes that are backed. -/
structure Honest (s : State) : Prop where
  promise : ∀ i o, s.promises i = some o → ∃ n, (view s).role i = .settled n o
  backed : ∀ i g, s.calls i = some (.get g) → Backed s g.request.name g.pc

/-- One call moved on, to where what it relies on is backed. -/
theorem Honest.of_call {c : Call} (h : Honest s) (hst : Step s t) (hcalls : t.calls = update s.calls i (some c))
    (hc : ∀ g, c = .get g → Backed s g.request.name g.pc)
    (hp : ∀ j o, t.promises j = some o → s.promises j = some o ∨ ∃ n, (view s).role j = .settled n o) :
    Honest t where
  promise j o hj := by
    have hs : ∃ n, (view s).role j = .settled n o := (hp j o hj).elim (h.promise j o) id
    obtain ⟨n, hn⟩ := hs
    exact ⟨n, step_settled hst hn⟩
  backed j g hj := by
    rw [hcalls, update_apply] at hj
    by_cases hij : j = i
    · rw [if_pos hij] at hj
      exact (hc g (Option.some.inj hj)).step hst
    · rw [if_neg hij] at hj
      exact (h.backed j g hj).step hst

theorem Honest.goto (h : Honest s) (hst : Step s t)
    (hcalls : t.calls = update s.calls i (some (.get { g with pc := pc })))
    (hc : Backed s g.request.name pc) (hp : t.promises = s.promises) : Honest t := by
  refine h.of_call hst hcalls ?_ fun j o hj => .inl (hp ▸ hj)
  rintro g' hg'
  cases hg'
  exact hc

theorem kept_role (hv : SingleFlight.Inv (view s)) {e : Entry} (he : s.entries n = some e) :
    (view s).role (s.loadedBy n) = .settled n (.ok e) :=
  (hv.kept n (s.loadedBy n) e (by simp only [view, he, Option.map_some])).1

theorem flight_role (hv : SingleFlight.Inv (view s)) {f : InFlight} (hf : s.inFlight n = some f) :
    (view s).role f.future = .loading n :=
  (hv.flight n f.future).1 (by simp only [view, hf, Option.map_some])

theorem Honest.shared (h : Honest s) {f : CallId} (hat : s.At i g (.sharing f)) (ho : s.promises f = some o) :
    (view s).role f = .settled g.request.name o := by
  have hb : Backed s g.request.name (.sharing f) := hat.2 ▸ h.backed i g hat.1
  obtain ⟨m, hm⟩ := h.promise f o ho
  rcases hb with hload | ⟨o', hset⟩
  · rw [hm] at hload
    cases hload
  · rw [hm] at hset
    cases hset
    exact hm

theorem step_honest (hv : SingleFlight.Inv (view s)) (h : Honest s) (hst : Step s t) : Honest t := by
  cases id hst with
  | begin i r hi => exact h.goto (g := ⟨r, s.added, (s.entries r.name).isSome, .start⟩) hst rfl trivial rfl
  | sharedHit i g e hat he | uniqueHit i g e hat he => exact h.goto hst rfl ⟨⟨e, rfl⟩, kept_role hv he⟩ rfl
  | uniqueShare i g f hat he hf _ => exact h.goto hst rfl (.inl (flight_role hv hf)) rfl
  | shared i g f o hat ho => exact h.goto hst rfl (h.shared hat ho) rfl
  | setValue i g o hat =>
      refine h.of_call hst rfl (fun g' hg' => by cases hg'; trivial) fun j o' hj => ?_
      simp only [update_apply] at hj
      by_cases hij : j = i
      · rw [if_pos hij] at hj
        cases hj
        exact .inr ⟨g.request.name, by rw [hij, view_role hat.1, hat.2]; rfl⟩
      · rw [if_neg hij] at hj
        exact .inl hj
  | addBegin i p | addPush i p | addThrows i p | addReturn i p =>
      refine h.of_call hst rfl (fun g' hg' => ?_) fun j o hj => .inl hj
      cases hg'
  | sharedMiss | uniqueWait | uniqueOwn | waited | searchFound | searchMissing | searchThrows | openAcquire
    | openKnown | openPinned | openPinnedFails | openEmplace | symbolFound | symbolMissing | publish | fail
    | deliver => exact h.goto hst rfl trivial rfl

/-! The open lock: one file is opened once. -/

def holdsOpen : Option Call → Bool
  | some (.get ⟨_, _, _, .openLocked _⟩) | some (.get ⟨_, _, _, .openEmplace _ _⟩) => true
  | _ => false

/-- The file a call has opened and not yet recorded. -/
def emplaces : Option Call → Option String
  | some (.get ⟨_, _, _, .openEmplace search _⟩) => some search.identity
  | _ => none

structure Opens (s : State) : Prop where
  holder : ∀ i, holdsOpen (s.calls i) = true → s.openMutex = some i
  known : ∀ x ∈ s.opened, s.libraries x ≠ none ∨ ∃ i, emplaces (s.calls i) = some x
  nodup : s.opened.Nodup

theorem holdsOpen_of_emplaces {c : Option Call} {x : String} (h : emplaces c = some x) : holdsOpen c = true := by
  match c, h with
  | some (.get ⟨_, _, _, .openEmplace _ _⟩), _ => rfl

theorem Opens.quiet {c : Call} (h : Opens s) (hcalls : t.calls = update s.calls i (some c))
    (hi : holdsOpen (s.calls i) = false) (hc : holdsOpen (some c) = false) (hm : t.openMutex = s.openMutex)
    (hl : t.libraries = s.libraries) (ho : t.opened = s.opened) : Opens t where
  holder j hj := by
    rw [hcalls, update_apply] at hj
    by_cases hij : j = i
    · rw [if_pos hij, hc] at hj
      cases hj
    · rw [if_neg hij] at hj
      exact hm.trans (h.holder j hj)
  known x hx := by
    rcases h.known x (ho ▸ hx) with hk | ⟨j, hj⟩
    · exact .inl (hl ▸ hk)
    · have hne : j ≠ i := by
        rintro rfl
        rw [holdsOpen_of_emplaces hj] at hi
        cases hi
      exact .inr ⟨j, by rw [hcalls, update_of_ne hne, hj]⟩
  nodup := ho ▸ h.nodup

/-- Only the call that holds the open lock can have a file it has not recorded. -/
theorem Opens.known_of_holder (h : Opens s) (hi : holdsOpen (s.calls i) = true) :
    ∀ x ∈ s.opened, s.libraries x ≠ none ∨ emplaces (s.calls i) = some x := by
  intro x hx
  rcases h.known x hx with hk | ⟨j, hj⟩
  · exact .inl hk
  · have hji := (h.holder j (holdsOpen_of_emplaces hj)).symm.trans (h.holder i hi)
    cases hji
    exact .inr hj

theorem Opens.release {c : Call} (h : Opens s) (hcalls : t.calls = update s.calls i (some c))
    (hi : holdsOpen (s.calls i) = true) (hc : holdsOpen (some c) = false)
    (hk : ∀ x ∈ s.opened, t.libraries x ≠ none) (ho : t.opened = s.opened) : Opens t where
  holder j hj := by
    rw [hcalls, update_apply] at hj
    by_cases hij : j = i
    · rw [if_pos hij, hc] at hj
      cases hj
    · rw [if_neg hij] at hj
      have hji := (h.holder j hj).symm.trans (h.holder i hi)
      exact absurd (Option.some.inj hji) hij
  known x hx := .inl (hk x (ho ▸ hx))
  nodup := ho ▸ h.nodup

theorem At.holdsOpen (h : s.At i g pc) : holdsOpen (s.calls i) = holdsOpen (some (.get { g with pc := pc })) := by
  rw [h.1, ← h.2]

theorem At.emplaces (h : s.At i g pc) : emplaces (s.calls i) = emplaces (some (.get { g with pc := pc })) := by
  rw [h.1, ← h.2]

theorem Opens.known_of_locked {search : SearchResult} (h : Opens s) (hat : s.At i g (.openLocked search)) :
    ∀ x ∈ s.opened, s.libraries x ≠ none := by
  intro x hx
  rcases h.known_of_holder (At.holdsOpen hat) x hx with hk | hi
  · exact hk
  · rw [At.emplaces hat] at hi
    cases hi

theorem step_opens (h : Opens s) (hst : Step s t) : Opens t := by
  cases hst with
  | openAcquire i g result hat hm =>
      have hfree : ∀ j, holdsOpen (s.calls j) = true → False := by
        intro j hj
        exact Option.some_ne_none _ ((h.holder j hj).symm.trans hm)
      refine ⟨fun j hj => ?_, fun x hx => ?_, h.nodup⟩
      · by_cases hij : j = i
        · rw [hij]
        · simp only [State.goto, update_of_ne hij] at hj
          exact (hfree j hj).elim
      · rcases h.known x hx with hk | ⟨j, hj⟩
        · exact .inl hk
        · exact (hfree j (holdsOpen_of_emplaces hj)).elim
  | openKnown i g result handle hat hl => exact h.release rfl (At.holdsOpen hat) rfl (h.known_of_locked hat) rfl
  | openPinnedFails i g result error hat hl =>
      exact h.release rfl (At.holdsOpen hat) rfl (h.known_of_locked hat) rfl
  | openPinned i g result handle hat hl =>
      have hknown := h.known_of_locked hat
      refine ⟨fun j hj => ?_, fun x hx => ?_, ?_⟩
      · by_cases hij : j = i
        · rw [hij]
          exact h.holder i (At.holdsOpen hat)
        · simp only [State.goto, update_of_ne hij] at hj
          exact h.holder j hj
      · rcases List.mem_cons.1 hx with rfl | hx
        · exact .inr ⟨i, by simp only [State.goto, update_self]; rfl⟩
        · exact .inl (hknown x hx)
      · exact List.nodup_cons.2 ⟨fun hx => hknown _ hx hl, h.nodup⟩
  | openEmplace i g result handle hat =>
      refine h.release rfl (At.holdsOpen hat) rfl (fun x hx => ?_) rfl
      simp only [update_apply]
      by_cases hxr : x = result.identity
      · rw [if_pos hxr]
        exact Option.some_ne_none _
      · rw [if_neg hxr]
        rcases h.known_of_holder (At.holdsOpen hat) x hx with hk | hi
        · exact hk
        · rw [At.emplaces hat] at hi
          exact absurd (Option.some.inj hi).symm hxr
  | begin i r hi => exact h.quiet rfl (by rw [hi]; rfl) rfl rfl rfl rfl
  | addBegin i p hi | addPush i p hi | addThrows i p hi | addReturn i p hi =>
      exact h.quiet rfl (by rw [hi]; rfl) rfl rfl rfl rfl
  | sharedHit _ _ _ hat | sharedMiss _ _ hat | uniqueHit _ _ _ hat | uniqueShare _ _ _ hat
    | uniqueWait _ _ _ hat | uniqueOwn _ _ hat | shared _ _ _ _ hat | waited _ _ _ _ hat
    | searchFound _ _ _ _ _ hat | searchMissing _ _ _ _ _ hat | searchThrows _ _ _ _ _ hat
    | symbolFound _ _ _ _ _ hat | symbolMissing _ _ _ _ _ hat | publish _ _ _ hat | fail _ _ _ hat
    | setValue _ _ _ hat | deliver _ _ _ hat => exact h.quiet rfl (At.holdsOpen hat) rfl rfl rfl rfl

theorem init_calls {c : Call} (h : init.calls i = some c) : False := Option.some_ne_none c h.symm

theorem honest (h : cache.Reachable s) : Honest s := by
  obtain ⟨s₀, rfl, hst⟩ := h
  induction hst with
  | refl => exact ⟨fun i o h => (Option.some_ne_none o h.symm).elim, fun i g h => (init_calls h).elim⟩
  | @tail b c hb hbc ih => exact step_honest (view_inv ⟨init, rfl, hb⟩) ih hbc

theorem opens : cache.Invariant Opens where
  init s hs := by
    subst hs
    exact ⟨fun i h => absurd h Bool.false_ne_true, fun x h => absurd h List.not_mem_nil, List.nodup_nil⟩
  step _ _ h hst := step_opens h hst

/-! What the cache promises. -/

/-- The `Get` made the record for `n` and has not published its outcome. -/
def Loads (s : State) (i : CallId) (n : String) : Prop :=
  ∃ g, s.calls i = some (.get g) ∧ g.request.name = n ∧ role n g.pc = .loading n

/-- The `Get` loaded `n` itself, with this outcome. -/
def Concludes (s : State) (i : CallId) (n : String) (o : Outcome) : Prop :=
  ∃ g, s.calls i = some (.get g) ∧ g.request.name = n ∧
    (g.pc = .setValue o ∨ g.pc = .deliver o ∨ g.pc = .done o .own)

theorem loads_iff : Loads s i n ↔ (view s).role i = .loading n := by
  constructor
  · rintro ⟨g, hg, rfl, hr⟩
    rw [view_role hg, hr]
  · intro h
    match hc : s.calls i with
    | none | some (.pathAdd _ _) =>
        simp only [view, hc, callRole] at h
        cases h
    | some (.get g) =>
        rw [view_role hc] at h
        have hname : g.request.name = n := by
          cases hpc : g.pc with
          | done o src => cases src <;> simp [role, hpc] at h
          | _ =>
              simp [role, hpc] at h
              try exact h
        exact ⟨g, hc, hname, hname ▸ h⟩

theorem concludes_of_role (h : (view s).role i = .settled n o) : Concludes s i n o := by
  match hc : s.calls i with
  | none | some (.pathAdd _ _) =>
      simp only [view, hc, callRole] at h
      cases h
  | some (.get g) =>
      rw [view_role hc] at h
      refine ⟨g, hc, ?_⟩
      cases hpc : g.pc with
      | done o src => cases src <;> simp_all [role]
      | _ => simp_all [role]

structure OneLoad (s : State) : Prop where
  one : ∀ i j n, Loads s i n → Loads s j n → i = j
  record : ∀ n i, (∃ f, s.inFlight n = some f ∧ f.future = i) ↔ Loads s i n
  idle : (∀ i g, s.calls i = some (.get g) → ∃ o source, g.pc = .done o source) → ∀ n, s.inFlight n = none
  lasting : ∀ t, Relation.ReflTransGen Step s t → ∀ n e, s.entries n = some e →
    t.entries n = some e ∧ ∀ i, ¬ Loads t i n
  sharedOutcome : ∀ i g f o, s.At i g (.done o (.shared f)) → Concludes s f g.request.name o
  entry : ∀ n e, s.entries n = some e → ∃ i, Concludes s i n (.ok e)
  failed : ∀ i g e t g', s.At i g (.fail e) → Step s t → t.At i g' (.setValue (.error e)) →
    t.entries g.request.name = none
  opened : s.opened.Nodup

theorem record_iff (hv : SingleFlight.Inv (view s)) :
    (∃ f, s.inFlight n = some f ∧ f.future = i) ↔ Loads s i n := by
  rw [loads_iff, ← hv.flight]
  simp only [view, Option.map_eq_some_iff]

theorem not_loads_of_entry (hv : SingleFlight.Inv (view s)) {e : Entry} (he : s.entries n = some e) :
    ¬ Loads s i n := by
  rw [loads_iff]
  exact hv.not_loading_of_kept (x := (s.loadedBy n, e)) (by simp only [view, he, Option.map_some])

theorem step_entry (hv : SingleFlight.Inv (view s)) (hst : Step s t) {e : Entry} (he : s.entries n = some e) :
    t.entries n = some e := by
  have hk : (view s).kept n = some (s.loadedBy n, e) := by simp only [view, he, Option.map_some]
  have ht : (view t).kept n = some (s.loadedBy n, e) := by
    rcases step_view hst with heq | hstep
    · rw [heq, hk]
    · exact SingleFlight.step_kept hv hstep hk
  obtain ⟨e', he', hpair⟩ := Option.map_eq_some_iff.1 ht
  rw [← (Prod.mk.inj hpair).2]
  exact he'

theorem steps_entry (h : cache.Reachable s) (hst : Relation.ReflTransGen Step s t) {e : Entry}
    (he : s.entries n = some e) : cache.Reachable t ∧ t.entries n = some e := by
  induction hst with
  | refl => exact ⟨h, he⟩
  | tail _ hstep ih => exact ⟨ih.1.next hstep, step_entry (view_inv ih.1) hstep ih.2⟩

theorem step_entry_new (hst : Step s t) {e : Entry} (hs : s.entries n = none) (ht : t.entries n = some e) :
    (view s).role (t.loadedBy n) = .loading n ∧ (view t).role (t.loadedBy n) = .settled n (.ok e) := by
  have hks : (view s).kept n = none := by simp only [view, hs, Option.map_none]
  have hkt : (view t).kept n = some (t.loadedBy n, e) := by simp only [view, ht, Option.map_some]
  rcases step_view hst with heq | hstep
  · rw [heq, hks] at hkt
    cases hkt
  · exact SingleFlight.step_kept_new hstep hks hkt

theorem entry_none_of_fail (hv : SingleFlight.Inv (view s)) {e : Failure} (hat : s.At i g (.fail e))
    (hst : Step s t) (ht : t.At i g' (.setValue (.error e))) : t.entries g.request.name = none := by
  have hrole : (view s).role i = .loading g.request.name := by
    rw [view_role hat.1, hat.2]
    rfl
  have hloads : Loads s i g.request.name := loads_iff.2 hrole
  have hs : s.entries g.request.name = none := by
    by_contra hne
    obtain ⟨e', he'⟩ := Option.ne_none_iff_exists'.1 hne
    exact not_loads_of_entry hv he' hloads
  by_contra hne
  obtain ⟨e', he'⟩ := Option.ne_none_iff_exists'.1 hne
  obtain ⟨hload, hset⟩ := step_entry_new hst hs he'
  rw [hv.loading_unique hload hrole, view_role ht.1, ht.2] at hset
  simp [role] at hset

theorem one_load_per_name (h : cache.Reachable s) : OneLoad s := by
  have hv : SingleFlight.Inv (view s) := view_inv h
  refine ⟨?_, fun n i => record_iff hv, ?_, ?_, ?_, ?_, ?_, (opens.reachable h).nodup⟩
  · intro i j n hi hj
    exact hv.loading_unique (loads_iff.1 hi) (loads_iff.1 hj)
  · intro hdone n
    by_contra hne
    obtain ⟨f, hf⟩ := Option.ne_none_iff_exists'.1 hne
    obtain ⟨g, hg, -, hr⟩ := (record_iff hv).1 ⟨f, hf, rfl⟩
    obtain ⟨o, source, hpc⟩ := hdone f.future g hg
    rw [hpc] at hr
    cases source <;> cases hr
  · intro t hst n e he
    obtain ⟨ht, het⟩ := steps_entry h hst he
    exact ⟨het, fun i => not_loads_of_entry (view_inv ht) het⟩
  · intro i g f o hat
    have hb : Backed s g.request.name (.done o (.shared f)) := hat.2 ▸ (honest h).backed i g hat.1
    exact concludes_of_role hb
  · intro n e he
    exact ⟨s.loadedBy n, concludes_of_role (kept_role hv he)⟩
  · intro i g e t g' hat hst ht
    exact entry_none_of_fail hv hat hst ht

def sampleRequest : Request := ⟨"a", "", "a", "create", "component plugin"⟩

def sampleSearch : SearchResult := ⟨true, "/p/liba.so", "/p/liba.so", []⟩

theorem one_load_per_name_sample : ∃ s g, cache.Reachable s ∧
    s.At 1 g (.done (.ok ⟨5, "/p/liba.so"⟩) (.shared 0)) ∧ OneLoad s := by
  have h0 : cache.Reachable init := .start rfl
  have h1 := h0.next (.begin _ 0 sampleRequest rfl)
  have h2 := h1.next (.begin _ 1 sampleRequest rfl)
  have h3 := h2.next (.sharedMiss _ 0 _ ⟨rfl, rfl⟩ rfl)
  have h4 := h3.next (.sharedMiss _ 1 _ ⟨rfl, rfl⟩ rfl)
  have h5 := h4.next (.uniqueOwn _ 0 _ ⟨rfl, rfl⟩ rfl rfl)
  have h6 := h5.next (.uniqueShare _ 1 _ ⟨0, 0⟩ ⟨rfl, rfl⟩ rfl rfl rfl)
  have h7 := h6.next (.searchFound _ 0 _ _ _ sampleSearch ⟨rfl, rfl⟩ rfl)
  have h8 := h7.next (.openAcquire _ 0 _ _ ⟨rfl, rfl⟩ rfl)
  have h9 := h8.next (.openPinned _ 0 _ _ 3 ⟨rfl, rfl⟩ rfl)
  have h10 := h9.next (.openEmplace _ 0 _ _ _ ⟨rfl, rfl⟩)
  have h11 := h10.next (.symbolFound _ 0 _ _ _ 5 ⟨rfl, rfl⟩)
  have h12 := h11.next (.publish _ 0 _ _ ⟨rfl, rfl⟩)
  have h13 := h12.next (.setValue _ 0 _ _ ⟨rfl, rfl⟩)
  have h14 := h13.next (.shared _ 1 _ 0 _ ⟨rfl, rfl⟩ rfl)
  exact ⟨_, _, h14, ⟨rfl, rfl⟩, one_load_per_name h14⟩

end TheSeed.PluginCacheRuns
