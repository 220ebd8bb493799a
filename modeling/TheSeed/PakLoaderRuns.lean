import Mathlib.Tactic.Common
import Mathlib.Data.List.Basic
import TheSeed.PakLoader

namespace TheSeed.PakLoaderRuns

open TheSeed.Transition TheSeed.PakLoader Function
open PluginCache (CallId)

/-! Every interleaving of `IndexGet` calls and of replacements of the paks. -/

variable {s t : State} {i j f : CallId} {c d : Call} {pc pc₀ : Pc} {n : String} {v : PakStamp} {o : Outcome}
  {index : PakIndex}

/-- The call validates: its record is made and not yet to be taken out. -/
def UnderWay : Pc → Prop
  | .reading | .publish _ => True
  | _ => False

/-- The outcome of the validation that the call made itself, once it is published. -/
def concluded : Pc → Option Outcome
  | .setValue o | .done o .own => some o
  | _ => none

/-- The call is the one that validates, or that did. -/
def Owns (pc : Pc) : Prop := UnderWay pc ∨ (concluded pc).isSome = true

/-- The same request, further on. -/
structure Continues (c d : Call) : Prop where
  request : d.request = c.request
  stamp : d.stamp = c.stamp
  owns : Owns c.pc → Owns d.pc
  concluded : ∀ o, concluded c.pc = some o → concluded d.pc = some o

theorem Continues.refl (c : Call) : Continues c c := ⟨rfl, rfl, id, fun _ => id⟩

theorem goto_continues (hat : s.At i c pc₀) (howns : Owns pc₀ → Owns pc)
    (hconcluded : ∀ o, concluded pc₀ = some o → concluded pc = some o) (hd : s.calls j = some d) :
    ∃ e, (s.goto i c pc).calls j = some e ∧ Continues d e := by
  by_cases hij : j = i
  · subst hij
    obtain rfl : c = d := Option.some.inj (hat.1.symm.trans hd)
    refine ⟨_, update_self .., rfl, rfl, ?_, ?_⟩
    · rw [hat.2]
      exact howns
    · rw [hat.2]
      exact hconcluded
  · exact ⟨d, by rw [State.goto_calls, update_of_ne hij, hd], .refl d⟩

/-- A call is never forgotten, and what it validated stays. -/
theorem step_call (hst : Step s t) (hd : s.calls j = some d) : ∃ e, t.calls j = some e ∧ Continues d e := by
  cases hst with
  | replace path stamp => exact ⟨d, hd, .refl d⟩
  | begin i r h =>
      have hij : j ≠ i := by
        rintro rfl
        rw [h] at hd
        cases hd
      exact ⟨d, by rw [State.goto_calls, update_of_ne hij, hd], .refl d⟩
  | stampFails i c what h | sharedHit i c index h hit | sharedMiss i c h miss | uniqueHit i c index h hit
    | uniqueWait i c f h miss hf | uniqueOwn i c h miss hf | waited i c f o h ho =>
      exact goto_continues h (by simp [Owns, UnderWay, concluded]) (by simp [concluded]) hd
  | readSucceeds i c entries size h | readFails i c failure h =>
      exact goto_continues h (fun _ => .inl trivial) (by simp [concluded]) hd
  | publish i c o h => exact goto_continues h (fun _ => .inr rfl) (by simp [concluded]) hd
  | setValue i c o h => exact goto_continues h (fun _ => .inr rfl) (fun _ => id) hd

/-- The call has the version open that the other one validates or validated. -/
def SameVersion (s : State) (f : CallId) (c : Call) (P : Pc → Prop) : Prop :=
  ∃ owner, s.calls f = some owner ∧ owner.request.identity = c.request.identity ∧ owner.stamp = c.stamp ∧ P owner.pc

/-- What a call relies on. -/
def Backed (s : State) (c : Call) : Pc → Prop
  | .waiting f => SameVersion s f c Owns
  | .publish o | .setValue o | .done o .own => ∀ index, o = .ok index → index.stamp = c.stamp
  | .done o (.shared f) => SameVersion s f c fun pc => concluded pc = some o
  | .done o .remembered => ∃ index, o = .ok index ∧ index.stamp = c.stamp
  | _ => True

structure Honest (s : State) : Prop where
  flight : ∀ n f, s.inFlight n = some f → ∃ c, s.calls f.future = some c ∧ c.request.identity = n ∧ c.stamp = f.stamp ∧
    UnderWay c.pc
  remembered : ∀ n index, s.remembered n = some index → ∃ i c, s.calls i = some c ∧ c.request.identity = n ∧
    concluded c.pc = some (.ok index)
  promise : ∀ f o, s.promises f = some o → ∃ c, s.calls f = some c ∧ concluded c.pc = some o
  backed : ∀ i c, s.calls i = some c → Backed s c c.pc

theorem SameVersion.step {P : Pc → Prop} (hst : Step s t) (hP : ∀ d e, Continues d e → P d.pc → P e.pc)
    (h : SameVersion s f c P) : SameVersion t f c P := by
  obtain ⟨owner, howner, hidentity, hstamp, hpc⟩ := h
  obtain ⟨later, hlater, hcont⟩ := step_call hst howner
  exact ⟨later, hlater, hcont.request ▸ hidentity, hcont.stamp ▸ hstamp, hP _ _ hcont hpc⟩

theorem Backed.step (hst : Step s t) (h : Backed s c pc) : Backed t c pc := by
  cases pc with
  | waiting f => exact SameVersion.step hst (fun d e hcont => hcont.owns) h
  | done o source =>
      cases source with
      | shared f => exact SameVersion.step (P := fun pc => concluded pc = some o) hst (fun d e hcont => hcont.concluded o) h
      | _ => exact h
  | _ => exact h

/-- A record is for a call that the step does not end the validation of. -/
theorem Honest.flight_goto (h : Honest s) (hat : s.At i c pc₀) (pc : Pc) (hpc : UnderWay pc₀ → UnderWay pc)
    {record : InFlight} (hf : s.inFlight n = some record) : ∃ d, (s.goto i c pc).calls record.future = some d ∧ d.request.identity = n ∧
      d.stamp = record.stamp ∧ UnderWay d.pc := by
  obtain ⟨d, hd, hidentity, hstamp, hway⟩ := h.flight n record hf
  by_cases hij : record.future = i
  · subst hij
    obtain rfl : c = d := Option.some.inj (hat.1.symm.trans hd)
    rw [hat.2] at hway
    exact ⟨_, update_self .., hidentity, hstamp, hpc hway⟩
  · exact ⟨d, by rw [State.goto_calls, update_of_ne hij, hd], hidentity, hstamp, hway⟩

theorem concluded_step (hst : Step s t) (h : ∃ c, s.calls i = some c ∧ c.request.identity = n ∧ concluded c.pc = some o) :
    ∃ c, t.calls i = some c ∧ c.request.identity = n ∧ concluded c.pc = some o := by
  obtain ⟨c, hc, hidentity, ho⟩ := h
  obtain ⟨d, hd, hcont⟩ := step_call hst hc
  exact ⟨d, hd, hcont.request ▸ hidentity, hcont.concluded o ho⟩

/-- One call moved on, to where what it relies on is backed. -/
theorem Honest.backed_step (h : Honest s) (hst : Step s t) (hself : ∀ d, t.calls i = some d → Backed t d d.pc)
    (hother : ∀ j, j ≠ i → t.calls j = s.calls j) : ∀ j d, t.calls j = some d → Backed t d d.pc := by
  intro j d hd
  by_cases hij : j = i
  · exact hself d (hij ▸ hd)
  · rw [hother j hij] at hd
    exact (h.backed j d hd).step hst

/-- A step that moves one call and touches neither the records nor what is remembered or promised. -/
theorem Honest.move (h : Honest s) (hat : s.At i c pc₀) (hpc : UnderWay pc₀ → UnderWay pc) (hst : Step s (s.goto i c pc))
    (hback : Backed (s.goto i c pc) c pc) : Honest (s.goto i c pc) where
  flight n record hf := h.flight_goto hat pc hpc hf
  remembered n index hr := by
    obtain ⟨j, hj⟩ := h.remembered n index hr
    exact ⟨j, concluded_step hst hj⟩
  promise f o ho := by
    obtain ⟨d, hd, hdone⟩ := h.promise f o ho
    obtain ⟨e, he, hcont⟩ := step_call hst hd
    exact ⟨e, he, hcont.concluded o hdone⟩
  backed := h.backed_step hst (fun d hd => by
    rw [State.goto_calls, update_self] at hd
    cases hd
    exact hback) fun j hij => update_of_ne hij _ _

/-- The record of another call is left alone by the end of a validation, unless it is for the same version. -/
theorem land_eq_some {identity : String} {record : InFlight} (h : s.land identity v n = some record) :
    s.inFlight n = some record ∧ (n = identity → record.stamp ≠ v) := by
  by_cases hn : n = identity
  · subst hn
    rw [State.land, update_self, Option.filter_eq_some_iff] at h
    exact ⟨h.1, fun _ => of_decide_eq_true h.2⟩
  · rw [State.land, update_of_ne hn] at h
    exact ⟨h, fun heq => absurd heq hn⟩

theorem remember_eq_some {identity : String} (h : s.remember identity o n = some index) :
    s.remembered n = some index ∨ n = identity ∧ o = .ok index := by
  cases o with
  | error refusal => exact .inl h
  | ok other =>
      by_cases hn : n = identity
      · subst hn
        rw [State.remember, update_self] at h
        exact .inr ⟨rfl, congrArg _ (Option.some.inj h)⟩
      · rw [State.remember, update_of_ne hn] at h
        exact .inl h

theorem step_honest (h : Honest s) (hst : Step s t) : Honest t := by
  have hremembered : ∀ n index, s.remembered n = some index → ∃ i c, t.calls i = some c ∧ c.request.identity = n ∧
      concluded c.pc = some (.ok index) := by
    intro n index hr
    obtain ⟨i, hi⟩ := h.remembered n index hr
    exact ⟨i, concluded_step hst hi⟩
  have hpromise : ∀ f o, s.promises f = some o → ∃ c, t.calls f = some c ∧ concluded c.pc = some o := by
    intro f o ho
    obtain ⟨d, hd, hdone⟩ := h.promise f o ho
    obtain ⟨e, he, hcont⟩ := step_call hst hd
    exact ⟨e, he, hcont.concluded o hdone⟩
  cases hst with
  | replace path stamp => exact ⟨h.flight, h.remembered, h.promise, fun j d hd => (h.backed j d hd).step (.replace s path stamp)⟩
  | begin i r hi =>
      have hst := Step.begin s i r hi
      refine ⟨fun n record hf => ?_, hremembered, hpromise, ?_⟩
      · obtain ⟨d, hd, hrest⟩ := h.flight n record hf
        have hij : record.future ≠ i := by
          intro heq
          rw [heq, hi] at hd
          cases hd
        exact ⟨d, by rw [State.goto_calls, update_of_ne hij, hd], hrest⟩
      · refine h.backed_step hst (fun d hd => ?_) fun j hij => update_of_ne hij _ _
        rw [State.goto_calls, update_self] at hd
        cases hd
        trivial
  | stampFails i c what hat => exact h.move hat id (.stampFails s i c what hat) trivial
  | sharedHit i c index hat hit => exact h.move hat id (.sharedHit s i c index hat hit) ⟨index, rfl, hit.2⟩
  | sharedMiss i c hat miss => exact h.move hat id (.sharedMiss s i c hat miss) trivial
  | uniqueHit i c index hat hit => exact h.move hat id (.uniqueHit s i c index hat hit) ⟨index, rfl, hit.2⟩
  | uniqueWait i c f hat miss hf =>
      have hst := Step.uniqueWait s i c f hat miss hf
      obtain ⟨owner, howner, hidentity, hstamp, hway⟩ := h.flight _ f hf.1
      have hsame : SameVersion s f.future c Owns := ⟨owner, howner, hidentity, hstamp.trans hf.2, .inl hway⟩
      exact h.move hat id hst (hsame.step hst fun d e hcont => hcont.owns)
  | uniqueOwn i c hat miss hf =>
      have hst := Step.uniqueOwn s i c hat miss hf
      refine ⟨fun n record hrecord => ?_, hremembered, hpromise, ?_⟩
      · by_cases hn : n = c.request.identity
        · subst hn
          simp only [update_self, Option.some.injEq] at hrecord
          subst hrecord
          exact ⟨_, update_self .., rfl, rfl, trivial⟩
        · simp only [update_of_ne hn] at hrecord
          exact h.flight_goto hat .reading (fun _ => trivial) hrecord
      · refine h.backed_step hst (fun d hd => ?_) fun j hij => update_of_ne hij _ _
        simp only [State.goto_calls, update_self, Option.some.injEq] at hd
        subst hd
        trivial
  | readSucceeds i c entries size hat =>
      refine h.move hat (fun _ => trivial) (.readSucceeds s i c entries size hat) fun index hindex => ?_
      cases hindex
      rfl
  | readFails i c failure hat =>
      refine h.move hat (fun _ => trivial) (.readFails s i c failure hat) fun index hindex => ?_
      cases hindex
  | publish i c o hat =>
      have hst := Step.publish s i c o hat
      refine ⟨fun n record hrecord => ?_, fun n index hr => ?_, hpromise, ?_⟩
      · obtain ⟨hf, hother⟩ := land_eq_some hrecord
        obtain ⟨d, hd, hidentity, hstamp, hway⟩ := h.flight n record hf
        have hij : record.future ≠ i := by
          intro heq
          rw [heq] at hd
          obtain rfl : c = d := Option.some.inj (hat.1.symm.trans hd)
          exact hother hidentity.symm hstamp.symm
        exact ⟨d, (update_of_ne hij _ _).trans hd, hidentity, hstamp, hway⟩
      · rcases remember_eq_some hr with hr | ⟨rfl, rfl⟩
        · exact hremembered n index hr
        · exact ⟨i, _, update_self .., rfl, rfl⟩
      · refine h.backed_step hst (fun d hd => ?_) fun j hij => update_of_ne hij _ _
        simp only [State.goto_calls, update_self, Option.some.injEq] at hd
        subst hd
        have hback := h.backed i c hat.1
        rw [hat.2] at hback
        exact hback
  | setValue i c o hat =>
      have hst := Step.setValue s i c o hat
      refine ⟨fun n record hrecord => h.flight_goto hat (.done o .own) id hrecord, hremembered, fun f p hp => ?_, ?_⟩
      · by_cases hfi : f = i
        · subst hfi
          simp only [update_self, Option.some.injEq] at hp
          subst hp
          exact ⟨_, update_self .., rfl⟩
        · simp only [update_of_ne hfi] at hp
          exact hpromise f p hp
      · refine h.backed_step hst (fun d hd => ?_) fun j hij => update_of_ne hij _ _
        simp only [State.goto_calls, update_self, Option.some.injEq] at hd
        subst hd
        have hback := h.backed i c hat.1
        rw [hat.2] at hback
        exact hback
  | waited i c f o hat ho =>
      have hst := Step.waited s i c f o hat ho
      have hback := h.backed i c hat.1
      rw [hat.2] at hback
      obtain ⟨owner, howner, hidentity, hstamp, -⟩ := hback
      obtain ⟨settled, hsettled, hdone⟩ := h.promise f o ho
      obtain rfl : owner = settled := Option.some.inj (howner.symm.trans hsettled)
      have hsame : SameVersion s f c fun pc => concluded pc = some o := ⟨owner, howner, hidentity, hstamp, hdone⟩
      exact h.move hat id hst (SameVersion.step (P := fun pc => concluded pc = some o) hst
        (fun d e hcont => hcont.concluded o) hsame)

theorem honest : loader.Invariant Honest where
  init s hs := by
    refine ⟨?_, ?_, ?_, ?_⟩
    · simp [hs.inFlight]
    · simp [hs.remembered]
    · simp [hs.promises]
    · simp [hs.calls]
  step _ _ h hst := step_honest h hst

theorem concluded_stamp (h : Honest s) (hc : s.calls i = some c) (ho : concluded c.pc = some (.ok index)) :
    index.stamp = c.stamp := by
  have hback := h.backed i c hc
  match hpc : c.pc with
  | .setValue (.ok _) | .done (.ok _) .own =>
      rw [hpc] at hback ho
      cases ho
      exact hback index rfl
  | .start | .missed | .reading | .publish _ | .waiting _ | .threw _ | .setValue (.error _) | .done (.error _) .own
  | .done _ .remembered | .done _ (.shared _) =>
      rw [hpc] at ho
      cases ho

/-- A description that a call returns is of the version that the call opened. -/
theorem returned_stamp (h : Honest s) {source : Source} (hc : s.calls i = some c) (hpc : c.pc = .done (.ok index) source) :
    index.stamp = c.stamp := by
  have hback := h.backed i c hc
  rw [hpc] at hback
  cases source with
  | remembered =>
      obtain ⟨other, heq, hstamp⟩ := hback
      cases heq
      exact hstamp
  | shared f =>
      obtain ⟨owner, howner, -, hstamp, ho⟩ := hback
      exact (concluded_stamp h howner ho).trans hstamp
  | own => exact hback index rfl

/-- The call waits for the outcome of `f`, or was given it. -/
def ServedBy (f : CallId) : Pc → Prop
  | .waiting g | .done _ (.shared g) => g = f
  | _ => False

theorem goto_served (hat : s.At i c pc₀) (hpc : ServedBy f pc → ServedBy f pc₀)
    (hj : ∀ d, s.calls j = some d → ¬ ServedBy f d.pc) : ∀ d, (s.goto i c pc).calls j = some d → ¬ ServedBy f d.pc := by
  intro d hd hserved
  by_cases hij : j = i
  · subst hij
    simp only [State.goto_calls, update_self, Option.some.injEq] at hd
    subst hd
    refine hj c hat.1 ?_
    rw [hat.2]
    exact hpc hserved
  · rw [State.goto_calls, update_of_ne hij] at hd
    exact hj d hd hserved

/-- Nobody begins to wait for a validation that has ended. -/
theorem step_served (h : Honest s) (hst : Step s t) (hf : ∃ d, s.calls f = some d ∧ concluded d.pc = some o)
    (hj : ∀ d, s.calls j = some d → ¬ ServedBy f d.pc) : ∀ d, t.calls j = some d → ¬ ServedBy f d.pc := by
  cases hst with
  | replace path stamp => exact hj
  | begin i r hi =>
      intro d hd hserved
      by_cases hij : j = i
      · subst hij
        simp only [State.goto_calls, update_self, Option.some.injEq] at hd
        subst hd
        exact hserved
      · rw [State.goto_calls, update_of_ne hij] at hd
        exact hj d hd hserved
  | uniqueWait i c g hat miss hg =>
      refine goto_served hat ?_ hj
      rintro rfl
      obtain ⟨owner, howner, -, -, hway⟩ := h.flight _ g hg.1
      obtain ⟨d, hd, ho⟩ := hf
      obtain rfl : owner = d := Option.some.inj (howner.symm.trans hd)
      match hpc : owner.pc with
      | .reading | .publish _ =>
          rw [hpc] at ho
          cases ho
      | .start | .missed | .setValue _ | .waiting _ | .done _ _ | .threw _ =>
          rw [hpc] at hway
          exact hway.elim
  | waited i c g p hat hp => exact goto_served hat id hj
  | stampFails i c what hat | sharedHit i c index hat hit | sharedMiss i c hat miss | uniqueHit i c index hat hit
    | uniqueOwn i c hat miss hf | readSucceeds i c entries size hat | readFails i c failure hat | publish i c p hat
    | setValue i c p hat => exact goto_served hat False.elim hj

theorem steps_served (h : loader.Reachable s) (hst : Relation.ReflTransGen Step s t)
    (hf : ∃ d, s.calls f = some d ∧ concluded d.pc = some o) (hj : s.calls j = none) :
    ∀ d, t.calls j = some d → ¬ ServedBy f d.pc := by
  have hall : loader.Reachable t ∧ (∃ d, t.calls f = some d ∧ concluded d.pc = some o) ∧
      ∀ d, t.calls j = some d → ¬ ServedBy f d.pc := by
    induction hst with
    | refl => exact ⟨h, hf, fun d hd => by rw [hj] at hd; cases hd⟩
    | tail _ hstep ih =>
        obtain ⟨hreach, ⟨d, hd, ho⟩, hserved⟩ := ih
        obtain ⟨e, he, hcont⟩ := step_call hstep hd
        exact ⟨hreach.next hstep, ⟨e, he, hcont.concluded o ho⟩,
          step_served (honest.reachable hreach) hstep ⟨d, hd, ho⟩ hserved⟩
  exact hall.2.2

/-! One path whose file stays as it is: a single-flight store. -/

/-- Every call for the path opened this version. -/
def Steady (n : String) (v : PakStamp) (s : State) : Prop :=
  ∀ i c, s.calls i = some c → c.request.identity = n → c.stamp = v

def role : Pc → SingleFlight.Role Unit PakIndex Refusal
  | .reading | .publish _ => .loading ()
  | .setValue outcome | .done outcome .own => .settled () outcome
  | .start | .missed | .waiting _ | .threw _ | .done _ .remembered | .done _ (.shared _) => .asking ()

def callRole (n : String) : Option Call → SingleFlight.Role Unit PakIndex Refusal
  | some c => if c.request.identity = n then role c.pc else .absent
  | none => .absent

/-- What the loader does for one path. -/
def view (n : String) (s : State) : SingleFlight.State CallId Unit PakIndex Refusal where
  role i := callRole n (s.calls i)
  flight _ := (s.inFlight n).map fun record => record.future
  kept _ := (s.remembered n).map fun index => (s.loadedBy n, index)

theorem view_ext {x y : SingleFlight.State CallId Unit PakIndex Refusal} (hrole : x.role = y.role)
    (hflight : x.flight () = y.flight ()) (hkept : x.kept () = y.kept ()) : x = y := by
  obtain ⟨xr, xf, xk⟩ := x
  obtain ⟨yr, yf, yk⟩ := y
  obtain rfl : xf = yf := funext fun _ => hflight
  obtain rfl : xk = yk := funext fun _ => hkept
  cases hrole
  rfl

theorem step_congr {x y z : SingleFlight.State CallId Unit PakIndex Refusal} (h : SingleFlight.Step x y) (heq : z = y) :
    SingleFlight.Step x z := heq ▸ h

theorem role_goto (n : String) (s : State) (i : CallId) (c : Call) (pc : Pc) :
    (view n (s.goto i c pc)).role = update (view n s).role i (if c.request.identity = n then role pc else .absent) := by
  funext j
  by_cases hij : j = i
  · subst hij
    rw [update_self]
    simp only [view, State.goto_calls, update_self, callRole]
  · rw [update_of_ne hij]
    simp only [view, State.goto_calls, update_of_ne hij]

theorem role_at (hat : s.At i c pc₀) (hn : c.request.identity = n) : (view n s).role i = role pc₀ := by
  simp only [view, hat.1, callRole, if_pos hn, hat.2]

/-- A step that keeps the role of its call. -/
theorem role_goto_same (hat : s.At i c pc₀) (hpc : c.request.identity = n → role pc = role pc₀) :
    (view n (s.goto i c pc)).role = (view n s).role := by
  rw [role_goto]
  refine update_eq_self_iff.2 ?_
  simp only [view, hat.1, callRole, hat.2]
  split
  · rename_i hn
    exact hpc hn
  · rfl

theorem step_steady (hst : Step s t) (h : Steady n v t) : Steady n v s := by
  intro i c hc hn
  obtain ⟨d, hd, hcont⟩ := step_call hst hc
  rw [← hcont.stamp]
  exact h i d hd (hcont.request ▸ hn)

theorem flight_stamp (h : Honest s) (hv : Steady n v s) {record : InFlight} (hf : s.inFlight n = some record) :
    record.stamp = v := by
  obtain ⟨c, hc, hidentity, hstamp, -⟩ := h.flight n record hf
  exact hstamp.symm.trans (hv _ c hc hidentity)

theorem remembered_stamp (h : Honest s) (hv : Steady n v s) (hr : s.remembered n = some index) : index.stamp = v := by
  obtain ⟨i, c, hc, hidentity, ho⟩ := h.remembered n index hr
  exact (concluded_stamp h hc ho).trans (hv i c hc hidentity)

/-- Whoever becomes the owner finds the path without a record and without a description. -/
theorem own_alone (h : Honest s) (hv : Steady n v s) (hat : s.At i c .missed) (hn : c.request.identity = n)
    (miss : ∀ index, ¬ s.Hit c index) (hf : ∀ f, ¬ s.Flying c f) : s.inFlight n = none ∧ s.remembered n = none := by
  have hstamp : c.stamp = v := hv i c hat.1 hn
  constructor
  · by_contra hne
    obtain ⟨record, hrecord⟩ := Option.ne_none_iff_exists'.1 hne
    exact hf record ⟨hn ▸ hrecord, (flight_stamp h hv hrecord).trans hstamp.symm⟩
  · by_contra hne
    obtain ⟨index, hindex⟩ := Option.ne_none_iff_exists'.1 hne
    exact miss index ⟨hn ▸ hindex, (remembered_stamp h hv hindex).trans hstamp.symm⟩

theorem step_refines (h : Honest s) (hv : Steady n v s) (hst : Step s t) :
    view n t = view n s ∨ SingleFlight.Step (view n s) (view n t) := by
  cases hst with
  | replace path stamp => exact .inl rfl
  | begin i r hi =>
      by_cases hn : r.identity = n
      · refine .inr ?_
        have hask := SingleFlight.Step.ask (view n s) i () (by simp only [view, hi, callRole])
        have hrole := role_goto n s i ⟨r, s.disk r.identity, .start⟩ .start
        rw [if_pos hn] at hrole
        rwa [← show _ = update (view n s).role i (.asking ()) from hrole] at hask
      · refine .inl (view_ext ?_ rfl rfl)
        rw [role_goto, if_neg hn]
        exact update_eq_self_iff.2 (by simp only [view, hi, callRole])
  | uniqueOwn i c hat miss hf =>
      by_cases hn : c.request.identity = n
      · refine .inr ?_
        obtain ⟨hflight, hkept⟩ := own_alone h hv hat hn miss hf
        have hown := SingleFlight.Step.own (view n s) i () (role_at hat hn) (by simp only [view, hflight, Option.map_none])
          (by simp only [view, hkept, Option.map_none])
        refine step_congr hown (view_ext ?_ ?_ rfl)
        · have hrole := role_goto n s i c .reading
          rw [if_pos hn] at hrole
          exact hrole
        · subst hn
          simp only [view, update_self, Option.map_some]
      · refine .inl (view_ext (role_goto_same hat fun heq => absurd heq hn) ?_ rfl)
        simp only [view, update_of_ne (Ne.symm hn)]
  | publish i c o hat =>
      by_cases hn : c.request.identity = n
      · refine .inr ?_
        have hland : s.land c.request.identity c.stamp n = none := by
          refine Option.eq_none_iff_forall_ne_some.2 fun record hrecord => ?_
          obtain ⟨hf, hother⟩ := land_eq_some hrecord
          exact hother hn.symm ((flight_stamp h hv hf).trans (hv i c hat.1 hn).symm)
        have hrole := role_goto n s i c (.setValue o)
        rw [if_pos hn] at hrole
        cases o with
        | ok index =>
            refine step_congr (SingleFlight.Step.succeed (view n s) i () index (role_at hat hn)) (view_ext hrole ?_ ?_)
            · simp only [view, hland, Option.map_none, update_self]
            · subst hn
              simp only [view, State.remember, State.credit, update_self, Option.map_some]
        | error refusal =>
            refine step_congr (SingleFlight.Step.fail (view n s) i () refusal (role_at hat hn)) (view_ext hrole ?_ rfl)
            simp only [view, hland, Option.map_none, update_self]
      · refine .inl (view_ext (role_goto_same hat fun heq => absurd heq hn) ?_ ?_)
        · simp only [view, State.land, update_of_ne (Ne.symm hn)]
        · cases o with
          | ok index => simp only [view, State.remember, State.credit, update_of_ne (Ne.symm hn)]
          | error refusal => rfl
  | stampFails i c what hat | sharedHit i c index hat hit | sharedMiss i c hat miss | uniqueHit i c index hat hit
    | uniqueWait i c f hat miss hf | readSucceeds i c entries size hat | readFails i c failure hat | setValue i c o hat
    | waited i c f o hat ho => exact .inl (view_ext (role_goto_same hat fun _ => rfl) rfl rfl)

/-- While a path stays the same version, the loader refines the single-flight store. -/
theorem refines (n : String) (v : PakStamp) : (loader.restrict fun _ t => Steady n v t).Refines SingleFlight.system (view n)
    fun s => Honest s ∧ Steady n v s where
  init s hs := by
    refine view_ext (funext fun i => ?_) ?_ ?_
    · simp only [view, hs.calls, callRole, SingleFlight.init]
    · simp only [view, hs.inFlight, Option.map_none, SingleFlight.init]
    · simp only [view, hs.remembered, Option.map_none, SingleFlight.init]
  step s t h hst := step_refines h.1 h.2 hst.1

theorem steady_invariant (n : String) (v : PakStamp) :
    (loader.restrict fun _ t => Steady n v t).Invariant fun s => Honest s ∧ Steady n v s where
  init s hs := ⟨honest.init s hs, fun i c hc => by rw [hs.calls] at hc; cases hc⟩
  step s t h hst := ⟨step_honest h.1 hst.1, hst.2⟩

theorem view_reachable (h : loader.Reachable s) (hv : Steady n v s) : SingleFlight.system.Reachable (view n s) :=
  (refines n v).reachable (steady_invariant n v) (h.restrict (fun _ _ => step_steady) hv)

theorem role_underWay (hc : s.calls i = some c) (hn : c.request.identity = n) (hway : UnderWay c.pc) :
    (view n s).role i = .loading () := by
  rw [role_at ⟨hc, rfl⟩ hn]
  match hpc : c.pc with
  | .reading | .publish _ => rfl
  | .start | .missed | .setValue _ | .waiting _ | .done _ _ | .threw _ =>
      rw [hpc] at hway
      exact hway.elim

theorem role_concluded (hc : s.calls i = some c) (hn : c.request.identity = n) (ho : concluded c.pc = some o) :
    (view n s).role i = .settled () o := by
  rw [role_at ⟨hc, rfl⟩ hn]
  match hpc : c.pc with
  | .setValue p | .done p .own =>
      rw [hpc] at ho
      cases ho
      rfl
  | .start | .missed | .reading | .publish _ | .waiting _ | .threw _ | .done _ .remembered | .done _ (.shared _) =>
      rw [hpc] at ho
      cases ho

/-! What the loader promises. -/

/-- The call validates a description for the path, or did so with this outcome. -/
def Validates (s : State) (n : String) (i : CallId) : Prop :=
  ∃ c, s.calls i = some c ∧ c.request.identity = n ∧ UnderWay c.pc

def Validated (s : State) (n : String) (i : CallId) (o : Outcome) : Prop :=
  ∃ c, s.calls i = some c ∧ c.request.identity = n ∧ concluded c.pc = some o

structure OwnVersion (s : State) : Prop where
  returned : ∀ i c index, s.calls i = some c → c.result = some (.ok index) → index.stamp = c.stamp
  shared : ∀ i c o f, s.calls i = some c → c.pc = .done o (.shared f) →
    ∃ d, s.calls f = some d ∧ d.stamp = c.stamp ∧ Validated s c.request.identity f o
  remembered : ∀ n index, s.remembered n = some index → ∃ i, Validated s n i (.ok index)
  failed : ∀ n f refusal i t c, Validated s n f (.error refusal) → s.calls i = none →
    Relation.ReflTransGen Step s t → t.calls i = some c → c.pc ≠ .waiting f ∧ ∀ o, c.pc ≠ .done o (.shared f)
  record : ∀ n f, s.inFlight n = some f → Validates s n f.future
  steady : ∀ n v, (∀ i c, s.calls i = some c → c.request.identity = n → c.stamp = v) →
    (∀ i j, Validates s n i → Validates s n j → i = j) ∧
    ∀ i j x y, Validated s n i (.ok x) → Validated s n j (.ok y) → i = j

theorem result_eq_ok (h : c.result = some (.ok index)) : ∃ source, c.pc = .done (.ok index) source := by
  match hpc : c.pc with
  | .done (.ok other) source =>
      simp only [Call.result, hpc, Option.some.injEq, Except.ok.injEq] at h
      exact ⟨source, by rw [h]⟩
  | .done (.error _) _ => simp [Call.result, hpc] at h
  | .start | .missed | .reading | .publish _ | .waiting _ | .threw _ | .setValue _ => simp [Call.result, hpc] at h

theorem requests_use_own_version (h : loader.Reachable s) : OwnVersion s := by
  have hh : Honest s := honest.reachable h
  refine ⟨?_, ?_, hh.remembered, ?_, ?_, ?_⟩
  · intro i c index hc hresult
    obtain ⟨source, hpc⟩ := result_eq_ok hresult
    exact returned_stamp hh hc hpc
  · intro i c o f hc hpc
    have hback := hh.backed i c hc
    rw [hpc] at hback
    obtain ⟨owner, howner, hidentity, hstamp, ho⟩ := hback
    exact ⟨owner, howner, hstamp, owner, howner, hidentity, ho⟩
  · intro n f refusal i t c hf hi hst hc
    obtain ⟨d, hd, -, ho⟩ := hf
    have hserved := steps_served h hst ⟨d, hd, ho⟩ hi c hc
    constructor
    · intro hpc
      exact hserved (by rw [hpc]; rfl)
    · intro o hpc
      exact hserved (by rw [hpc]; rfl)
  · intro n f hf
    obtain ⟨c, hc, hidentity, -, hway⟩ := hh.flight n f hf
    exact ⟨c, hc, hidentity, hway⟩
  · intro n v hv
    have hview := view_reachable h hv
    constructor
    · rintro i j ⟨c, hc, hn, hi⟩ ⟨d, hd, hm, hj⟩
      exact (SingleFlight.inv.reachable hview).loading_unique (role_underWay hc hn hi) (role_underWay hd hm hj)
    · rintro i j x y ⟨c, hc, hn, hi⟩ ⟨d, hd, hm, hj⟩
      exact SingleFlight.succeeded_unique hview (role_concluded hc hn hi) (role_concluded hd hm hj)

theorem no_hit (h : s.remembered c.request.identity = none) : ∀ index, ¬ s.Hit c index := by
  rintro index ⟨hit, -⟩
  rw [h] at hit
  cases hit

theorem no_flying (h : s.inFlight c.request.identity = none) : ∀ record, ¬ s.Flying c record := by
  rintro record ⟨hf, -⟩
  rw [h] at hf
  cases hf

def samplePak : PakStamp := ⟨1, 2, 30, 4⟩

def sampleRequest : Request := ⟨"/p/a.pak", "a", "/p/a.pak", []⟩

def sampleStart : State :=
  ⟨fun _ => samplePak, fun _ => none, fun _ => none, fun _ => none, fun _ => none, fun _ => 0⟩

theorem requests_use_own_version_sample : ∃ s, loader.Reachable s ∧
    s.calls 1 = some ⟨sampleRequest, samplePak, .done (.ok ⟨samplePak, [], 20⟩) (.shared 0)⟩ ∧
    s.disk "/p/a.pak" ≠ samplePak ∧ OwnVersion s := by
  have h0 : loader.Reachable sampleStart := .start ⟨fun _ => rfl, fun _ => rfl, fun _ => rfl, fun _ => rfl⟩
  have h1 := h0.next (.begin _ 0 sampleRequest rfl)
  have h2 := h1.next (.begin _ 1 sampleRequest rfl)
  have h3 := h2.next (.replace _ "/p/a.pak" ⟨1, 3, 30, 5⟩)
  have h4 := h3.next (.sharedMiss _ 0 _ ⟨rfl, rfl⟩ (no_hit rfl))
  have h5 := h4.next (.sharedMiss _ 1 _ ⟨rfl, rfl⟩ (no_hit rfl))
  have h6 := h5.next (.uniqueOwn _ 0 _ ⟨rfl, rfl⟩ (no_hit rfl) (no_flying rfl))
  have h7 := h6.next (.uniqueWait _ 1 _ ⟨samplePak, 0⟩ ⟨rfl, rfl⟩ (no_hit rfl) ⟨rfl, rfl⟩)
  have h8 := h7.next (.readSucceeds _ 0 _ [] 20 ⟨rfl, rfl⟩)
  have h9 := h8.next (.publish _ 0 _ _ ⟨rfl, rfl⟩)
  have h10 := h9.next (.setValue _ 0 _ _ ⟨rfl, rfl⟩)
  have h11 := h10.next (.waited _ 1 _ 0 _ ⟨rfl, rfl⟩ rfl)
  exact ⟨_, h11, rfl, by decide, requests_use_own_version h11⟩

end TheSeed.PakLoaderRuns
