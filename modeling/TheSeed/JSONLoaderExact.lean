import Mathlib.Data.List.Forall2
import TheSeed.Library.Checked
import TheSeed.JSONLoader

namespace TheSeed.JSONLoaderExact

open Checked JSONLoader
open PakDescription (Json)

/-! What a load does to its container, exactly: all of a scene, in the order of the parsed value, or nothing. The value
lists the members of an object as `nlohmann::json` keeps them, by key, whatever their order in the text. The operations
of the container do not throw. -/

variable {σ κ β : Type} {world : World σ κ β} {source data' : String} {value document : Json} {values : List Json}
  {loader loader' : σ} {failure : Failure} {s : State σ κ} {data : List UInt8}

/-! What a scene is -/

structure Entity where
  handle : String
  components : List (String × Json)

def IsEntity (value : Json) (entity : Entity) : Prop :=
  ∃ members, value = .object members ∧ members.lookup "Handle" = some (.string entity.handle) ∧ entity.handle ≠ "" ∧
    members.lookup "Components" = some (.object entity.components) ∧ ∀ item ∈ entity.components, item.1 ≠ ""

def IsScene (document : Json) (entities : List Entity) : Prop :=
  ∃ members values, document = .object members ∧ members.lookup "entities" = some (.array values) ∧
    List.Forall₂ IsEntity values entities

/-- One component of a scene. -/
structure Job where
  handle : String
  type : String
  config : Json

def Entity.jobs (entity : Entity) : List Job := entity.components.map fun item => ⟨entity.handle, item.1, item.2⟩

/-- All components of a scene, in the order of the value. -/
def jobsOf (entities : List Entity) : List Job := entities.flatMap Entity.jobs

/-- The loader makes each component of some jobs, one after the other, and nothing is wrong with any. -/
inductive Makes (world : World σ κ β) : σ → List Job → List (Staged β) → σ → Prop
  | nil (start : σ) : Makes world start [] [] start
  | cons {start next last : σ} {job : Job} {component : Component β} {rest : List Job} {made : List (Staged β)}
      (hmade : world.create job.type job.config start = (.made component, next)) (htype : component.type ≠ "")
      (hrest : Makes world next rest made last) : Makes world start (job :: rest) (⟨job.handle, component⟩ :: made) last

/-! What is not one -/

/-- The first thing that is wrong with an entity. -/
inductive EntityFlaw (index : Nat) : Json → String → Prop
  | notObject (value : Json) (h : ∀ members, value ≠ .object members) :
      EntityFlaw index value (entityLabel index ++ " must be an object")
  | handle (members : List (String × Json)) (h : ∀ handle, members.lookup "Handle" = some (.string handle) → handle = "") :
      EntityFlaw index (.object members) (entityLabel index ++ ": \"Handle\" must be a non-empty string")
  | componentsMissing (members : List (String × Json)) (handle : String)
      (hhandle : members.lookup "Handle" = some (.string handle)) (hne : handle ≠ "")
      (h : members.lookup "Components" = none) :
      EntityFlaw index (.object members) (entityLabel index ++ " (" ++ quoted handle ++ ")" ++ ": \"Components\" is missing")
  | componentsNotObject (members : List (String × Json)) (handle : String) (value : Json)
      (hhandle : members.lookup "Handle" = some (.string handle)) (hne : handle ≠ "")
      (h : members.lookup "Components" = some value) (hvalue : ∀ components, value ≠ .object components) :
      EntityFlaw index (.object members)
        (entityLabel index ++ " (" ++ quoted handle ++ ")" ++ ": \"Components\" must be an object")
  | nameEmpty (members : List (String × Json)) (handle : String) (components : List (String × Json))
      (hhandle : members.lookup "Handle" = some (.string handle)) (hne : handle ≠ "")
      (h : members.lookup "Components" = some (.object components)) (hname : ∃ item ∈ components, item.1 = "") :
      EntityFlaw index (.object members) (entityLabel index ++ " (" ++ quoted handle ++ ")" ++ ": a component name is empty")

/-- The first thing that is wrong with a document. -/
inductive DocumentFlaw : Json → String → Prop
  | missing (document : Json) (h : ∀ members, document = .object members → members.lookup "entities" = none) :
      DocumentFlaw document "\"entities\" is missing"
  | notArray (members : List (String × Json)) (value : Json) (h : members.lookup "entities" = some value)
      (hvalue : ∀ values, value ≠ .array values) : DocumentFlaw (.object members) "\"entities\" must be an array"
  | entity (members : List (String × Json)) (before after : List Json) (value : Json) (reason : String)
      (h : members.lookup "entities" = some (.array (before ++ value :: after)))
      (hbefore : ∀ value ∈ before, ∃ entity, IsEntity value entity) (hflaw : EntityFlaw before.length value reason) :
      DocumentFlaw (.object members) reason

/-! The check accepts the scenes -/

theorem checkNames_eq_ok {label : String} {items : List (String × Json)} :
    checkNames source label items = .ok () ↔ ∀ item ∈ items, item.1 ≠ "" := by
  induction items with
  | nil => simp [checkNames]
  | cons item rest ih =>
      obtain ⟨key, config⟩ := item
      rw [checkNames, List.forall_mem_cons]
      by_cases hkey : key = ""
      · rw [if_pos hkey]
        constructor
        · intro h
          cases h
        · intro h
          exact absurd hkey h.1
      · rw [if_neg hkey, ih]
        exact ⟨fun h => ⟨hkey, h⟩, fun h => h.2⟩

theorem checkNames_eq_error {label : String} {items : List (String × Json)} (h : ∃ item ∈ items, item.1 = "") :
    checkNames source label items = notUnderstood source (label ++ ": a component name is empty") := by
  induction items with
  | nil =>
      obtain ⟨item, hin, -⟩ := h
      cases hin
  | cons item rest ih =>
      obtain ⟨key, config⟩ := item
      rw [checkNames]
      by_cases hkey : key = ""
      · rw [if_pos hkey]
      · rw [if_neg hkey]
        apply ih
        obtain ⟨other, hin, hother⟩ := h
        obtain rfl | hrest := List.mem_cons.1 hin
        · exact absurd hother hkey
        · exact ⟨other, hrest, hother⟩

theorem checkEntity_eq_ok {index : Nat} {entity : Entity} (h : IsEntity value entity) :
    checkEntity source index value = .ok () := by
  obtain ⟨members, rfl, hhandle, hne, hcomponents, hnames⟩ := h
  simp only [checkEntity, hhandle, if_neg hne, checkComponents, hcomponents]
  exact checkNames_eq_ok.2 hnames

theorem checkEntity_eq_error {index : Nat} {reason : String} (h : EntityFlaw index value reason) :
    checkEntity source index value = notUnderstood source reason := by
  cases h with
  | notObject value h =>
      unfold checkEntity
      split
      · rename_i members
        exact absurd rfl (h members)
      · rfl
  | handle members h =>
      unfold checkEntity
      dsimp only
      split
      · rename_i handle hhandle
        rw [if_pos (h handle hhandle)]
      · rfl
  | componentsMissing members handle hhandle hne h =>
      simp only [checkEntity, hhandle, if_neg hne, checkComponents, h]
  | componentsNotObject members handle value hhandle hne h hvalue =>
      simp only [checkEntity, hhandle, if_neg hne, checkComponents, h]
  | nameEmpty members handle components hhandle hne h hname =>
      simp only [checkEntity, hhandle, if_neg hne, checkComponents, h]
      exact checkNames_eq_error hname

/-- What is not an entity has a flaw. -/
theorem entity_or_flaw (index : Nat) (value : Json) :
    (∃ entity, IsEntity value entity) ∨ ∃ reason, EntityFlaw index value reason := by
  by_cases hobject : ∃ members, value = .object members
  · obtain ⟨members, rfl⟩ := hobject
    by_cases hhandle : ∃ handle, members.lookup "Handle" = some (.string handle) ∧ handle ≠ ""
    · obtain ⟨handle, hhandle, hne⟩ := hhandle
      cases hcomponents : members.lookup "Components" with
      | none => exact .inr ⟨_, .componentsMissing members handle hhandle hne hcomponents⟩
      | some value =>
          by_cases hvalue : ∃ components, value = .object components
          · obtain ⟨components, rfl⟩ := hvalue
            by_cases hnames : ∀ item ∈ components, item.1 ≠ ""
            · exact .inl ⟨⟨handle, components⟩, members, rfl, hhandle, hne, hcomponents, hnames⟩
            · push Not at hnames
              exact .inr ⟨_, .nameEmpty members handle components hhandle hne hcomponents hnames⟩
          · exact .inr ⟨_, .componentsNotObject members handle value hhandle hne hcomponents fun components heq =>
              hvalue ⟨components, heq⟩⟩
    · refine .inr ⟨_, .handle members fun handle hsome => ?_⟩
      by_contra hne
      exact hhandle ⟨handle, hsome, hne⟩
  · exact .inr ⟨_, .notObject value fun members heq => hobject ⟨members, heq⟩⟩

theorem checkEntities_eq_ok {entities : List Entity} (h : List.Forall₂ IsEntity values entities) (index : Nat) :
    checkEntities source index values = .ok () := by
  induction h generalizing index with
  | nil => rfl
  | cons hentity _ ih =>
      rw [checkEntities, checkEntity_eq_ok hentity, ok_bind]
      exact ih _

theorem checkEntities_eq_error {before after : List Json} {index : Nat} {reason : String}
    (hbefore : ∀ value ∈ before, ∃ entity, IsEntity value entity) (h : EntityFlaw (index + before.length) value reason) :
    checkEntities source index (before ++ value :: after) = notUnderstood source reason := by
  induction before generalizing index with
  | nil =>
      rw [List.length_nil, Nat.add_zero] at h
      rw [List.nil_append, checkEntities, checkEntity_eq_error h]
      rfl
  | cons first before ih =>
      obtain ⟨⟨entity, hentity⟩, hrest⟩ := List.forall_mem_cons.1 hbefore
      rw [List.cons_append, checkEntities, checkEntity_eq_ok hentity, ok_bind]
      apply ih hrest
      rwa [List.length_cons, Nat.add_comm before.length, ← Nat.add_assoc] at h

/-- The values are entities up to a first one with a flaw, if any. -/
theorem entities_or_flaw (index : Nat) (values : List Json) :
    (∃ entities, List.Forall₂ IsEntity values entities) ∨
      ∃ before value after reason, values = before ++ value :: after ∧ (∀ value ∈ before, ∃ entity, IsEntity value entity) ∧
        EntityFlaw (index + before.length) value reason := by
  induction values generalizing index with
  | nil => exact .inl ⟨[], .nil⟩
  | cons value rest ih =>
      obtain ⟨entity, hentity⟩ | ⟨reason, hflaw⟩ := entity_or_flaw index value
      · obtain ⟨entities, hentities⟩ | ⟨before, other, after, reason, rfl, hbefore, hflaw⟩ := ih (index + 1)
        · exact .inl ⟨entity :: entities, .cons hentity hentities⟩
        · refine .inr ⟨value :: before, other, after, reason, rfl, List.forall_mem_cons.2 ⟨⟨entity, hentity⟩, hbefore⟩, ?_⟩
          rwa [Nat.add_assoc, Nat.add_comm 1, ← @List.length_cons _ value] at hflaw
      · exact .inr ⟨[], value, rest, reason, rfl, fun _ h => absurd h List.not_mem_nil, hflaw⟩

theorem checkDocument_eq_ok {entities : List Entity} (h : IsScene document entities) :
    ∃ values, checkDocument source document = .ok values ∧ List.Forall₂ IsEntity values entities := by
  obtain ⟨members, values, rfl, hvalues, hentities⟩ := h
  refine ⟨values, ?_, hentities⟩
  simp only [checkDocument, hvalues, checkEntities_eq_ok hentities]
  rfl

theorem checkDocument_eq_error {reason : String} (h : DocumentFlaw document reason) :
    checkDocument source document = notUnderstood source reason := by
  cases h with
  | missing document h =>
      unfold checkDocument
      split
      · rename_i members
        rw [h members rfl]
      · rfl
  | notArray members value h hvalue =>
      simp only [checkDocument, h]
  | entity members before after value reason h hbefore hflaw =>
      have herror : checkEntities source 0 (before ++ value :: after) = notUnderstood source reason :=
        checkEntities_eq_error hbefore (by rwa [Nat.zero_add])
      simp only [checkDocument, h, herror]
      rfl

theorem scene_or_flaw (document : Json) :
    (∃ entities, IsScene document entities) ∨ ∃ reason, DocumentFlaw document reason := by
  by_cases hobject : ∃ members, document = .object members ∧ (members.lookup "entities").isSome = true
  · obtain ⟨members, rfl, hsome⟩ := hobject
    obtain ⟨value, hvalue⟩ := Option.isSome_iff_exists.1 hsome
    by_cases harray : ∃ values, value = .array values
    · obtain ⟨values, rfl⟩ := harray
      obtain ⟨entities, hentities⟩ | ⟨before, value, after, reason, rfl, hbefore, hflaw⟩ := entities_or_flaw 0 values
      · exact .inl ⟨entities, members, values, rfl, hvalue, hentities⟩
      · rw [Nat.zero_add] at hflaw
        exact .inr ⟨reason, .entity members before after value reason hvalue hbefore hflaw⟩
    · exact .inr ⟨_, .notArray members value hvalue fun values heq => harray ⟨values, heq⟩⟩
  · refine .inr ⟨_, .missing document fun members heq => ?_⟩
    by_contra hne
    exact hobject ⟨members, heq, Option.isSome_iff_ne_none.2 hne⟩

theorem handleOf_eq {entity : Entity} (h : IsEntity value entity) : handleOf value = entity.handle := by
  obtain ⟨members, rfl, hhandle, -⟩ := h
  simp only [handleOf, hhandle]

theorem componentsOf_eq {entity : Entity} (h : IsEntity value entity) : componentsOf value = entity.components := by
  obtain ⟨members, rfl, -, -, hcomponents, -⟩ := h
  simp only [componentsOf, hcomponents]

/-! The two loops over the components are one loop over the jobs -/

def stageJobs (world : World σ κ β) (source : String) :
    List Job → σ → List (Staged β) → Except Failure (List (Staged β)) × σ
  | [], loader, staged => (.ok staged, loader)
  | job :: rest, loader, staged =>
      match accept source job.handle job.type (world.create job.type job.config loader).1 with
      | .error failure => (.error failure, (world.create job.type job.config loader).2)
      | .ok component =>
          stageJobs world source rest (world.create job.type job.config loader).2 (staged ++ [⟨job.handle, component⟩])

theorem stageJobs_append {first second : List Job} {next : σ} {staged out : List (Staged β)}
    (h : stageJobs world source first loader staged = (.ok out, next)) :
    stageJobs world source (first ++ second) loader staged = stageJobs world source second next out := by
  induction first generalizing loader staged with
  | nil =>
      cases h
      rfl
  | cons job rest ih =>
      rw [stageJobs] at h
      rw [List.cons_append, stageJobs]
      cases haccept : accept source job.handle job.type (world.create job.type job.config loader).1 with
      | error failure =>
          rw [haccept] at h
          cases h
      | ok component =>
          rw [haccept] at h
          exact ih h

theorem stageJobs_append_error {first second : List Job} {next : σ} {staged : List (Staged β)}
    (h : stageJobs world source first loader staged = (.error failure, next)) :
    stageJobs world source (first ++ second) loader staged = (.error failure, next) := by
  induction first generalizing loader staged with
  | nil => cases h
  | cons job rest ih =>
      rw [stageJobs] at h
      rw [List.cons_append, stageJobs]
      cases haccept : accept source job.handle job.type (world.create job.type job.config loader).1 with
      | error failure' =>
          rw [haccept] at h
          exact h
      | ok component =>
          rw [haccept] at h
          exact ih h

theorem stageComponents_eq (handle : String) (items : List (String × Json)) (loader : σ) (staged : List (Staged β)) :
    stageComponents world source handle items loader staged =
      stageJobs world source (items.map fun item => ⟨handle, item.1, item.2⟩) loader staged := by
  induction items generalizing loader staged with
  | nil => rfl
  | cons item rest ih =>
      obtain ⟨type, config⟩ := item
      rw [stageComponents, List.map_cons, stageJobs]
      dsimp only
      cases haccept : accept source handle type (world.create type config loader).1 with
      | error failure => rfl
      | ok component => exact ih ..

theorem stageEntities_eq {entities : List Entity} (h : List.Forall₂ IsEntity values entities) (loader : σ)
    (staged : List (Staged β)) :
    stageEntities world source values loader staged = stageJobs world source (jobsOf entities) loader staged := by
  induction h generalizing loader staged with
  | nil => rfl
  | @cons value entity values entities hentity _ ih =>
      rw [stageEntities, handleOf_eq hentity, componentsOf_eq hentity, stageComponents_eq, ← Entity.jobs, jobsOf,
        List.flatMap_cons]
      cases hfirst : stageJobs world source entity.jobs loader staged with
      | mk outcome next =>
          cases outcome with
          | error failure => rw [stageJobs_append_error hfirst]
          | ok out =>
              rw [stageJobs_append hfirst]
              exact ih ..

theorem accept_eq_ok {handle type : String} {created : Created β} {component : Component β} :
    accept source handle type created = .ok component ↔ created = .made component ∧ component.type ≠ "" := by
  constructor
  · intro h
    unfold accept at h
    split at h
    · cases h
    · rename_i other
      rw [problemOf] at h
      by_cases htype : other.type = ""
      · rw [if_pos htype, if_neg (by decide)] at h
        cases h
      · rw [if_neg htype, if_pos rfl] at h
        cases h
        exact ⟨rfl, htype⟩
    all_goals split at h <;> cases h
  · rintro ⟨rfl, htype⟩
    simp only [accept, problemOf, if_neg htype, if_true]

/-- All components are made, or those in front of the first that is not. -/
theorem stageJobs_cases (world : World σ κ β) (source : String) (jobs : List Job) (loader : σ) (staged : List (Staged β)) :
    (∃ made last, Makes world loader jobs made last ∧ stageJobs world source jobs loader staged = (.ok (staged ++ made), last)) ∨
      ∃ before job after made next failure, jobs = before ++ job :: after ∧ Makes world loader before made next ∧
        accept source job.handle job.type (world.create job.type job.config next).1 = .error failure ∧
        stageJobs world source jobs loader staged = (.error failure, (world.create job.type job.config next).2) := by
  induction jobs generalizing loader staged with
  | nil => exact .inl ⟨[], loader, .nil loader, by rw [stageJobs, List.append_nil]⟩
  | cons job rest ih =>
      rw [stageJobs]
      cases haccept : accept source job.handle job.type (world.create job.type job.config loader).1 with
      | error failure => exact .inr ⟨[], job, rest, [], loader, failure, rfl, .nil loader, haccept, rfl⟩
      | ok component =>
          obtain ⟨hmade, htype⟩ := accept_eq_ok.1 haccept
          have hcreate : world.create job.type job.config loader =
              (.made component, (world.create job.type job.config loader).2) := by rw [← hmade]
          obtain ⟨made, last, hmakes, hstage⟩ | ⟨before, other, after, made, next, failure, rfl, hmakes, hother, hstage⟩ :=
            ih (world.create job.type job.config loader).2 (staged ++ [⟨job.handle, component⟩])
          · refine .inl ⟨⟨job.handle, component⟩ :: made, last, .cons hcreate htype hmakes, ?_⟩
            rw [List.append_cons]
            exact hstage
          · exact .inr ⟨job :: before, other, after, ⟨job.handle, component⟩ :: made, next, failure, rfl,
              .cons hcreate htype hmakes, hother, hstage⟩

/-! How a call ends -/

/-- What the container has after a scene: its entities in the order of the value, and then its components. -/
def filled (world : World σ κ β) (entities : List Entity) (made : List (Staged β)) (container : κ) : κ :=
  attachAll world made (entities.foldl (fun container entity => world.entity entity.handle container) container)

/-- The text of the error about a component. -/
def failedText (job : Job) (problem : String) : String :=
  "entity " ++ quoted job.handle ++ ", component " ++ quoted job.type ++ ": " ++ problem

/-- The error of what is not a component that can be attached. -/
inductive Rejects (source : String) (job : Job) : Created β → Failure → Prop
  | null : Rejects source job .null (.load ⟨.sceneComponentFailed, source, source, failedText job "the plugin produced no object"⟩)
  | threw (what : String) : Rejects source job (.threw what)
      (.load ⟨.sceneComponentFailed, source, source,
        failedText job (if what = "" then "the plugin produced no object" else what)⟩)
  | untyped (component : Component β) (h : component.type = "") : Rejects source job (.made component)
      (.load ⟨.sceneComponentFailed, source, source, failedText job "component type is empty"⟩)
  | other : Rejects source job .threwOther .other

/-- The ends of a call from a state, with what it gives and the state after it. -/
inductive Ends (world : World σ κ β) (call : Call) (s : State σ κ) : Except Failure Unit → State σ κ → Prop
  /-- the file cannot be read -/
  | unopenable (reason : String) (h : call.text = .error (.load ⟨.sceneUnopenable, call.source, call.source, reason⟩)) :
      Ends world call s (.error (.load ⟨.sceneUnopenable, call.source, call.source, reason⟩)) s
  | notParsed (data : List UInt8) (what : String) (h : call.text = .ok data) (hparse : world.parse data = .error what) :
      Ends world call s (.error (.load ⟨.sceneNotUnderstood, call.source, call.source, what⟩)) s
  | notScene (data : List UInt8) (document : Json) (reason : String) (h : call.text = .ok data)
      (hparse : world.parse data = .ok document) (hflaw : DocumentFlaw document reason) :
      Ends world call s (.error (.load ⟨.sceneNotUnderstood, call.source, call.source, reason⟩)) s
  /-- the components in front of the first that cannot be made are made and thrown away -/
  | failed (data : List UInt8) (document : Json) (entities : List Entity) (before after : List Job) (job : Job)
      (made : List (Staged β)) (next last : σ) (created : Created β) (failure : Failure) (h : call.text = .ok data)
      (hparse : world.parse data = .ok document) (hscene : IsScene document entities)
      (hjobs : jobsOf entities = before ++ job :: after) (hmakes : Makes world s.loader before made next)
      (hcreate : world.create job.type job.config next = (created, last)) (hrejects : Rejects call.source job created failure) :
      Ends world call s (.error failure) ⟨last, s.container⟩
  | loaded (data : List UInt8) (document : Json) (entities : List Entity) (made : List (Staged β)) (last : σ)
      (h : call.text = .ok data) (hparse : world.parse data = .ok document) (hscene : IsScene document entities)
      (hmakes : Makes world s.loader (jobsOf entities) made last) :
      Ends world call s (.ok ()) ⟨last, filled world entities made s.container⟩

theorem accept_eq_error {job : Job} {created : Created β} (h : accept source job.handle job.type created = .error failure) :
    Rejects source job created failure := by
  unfold accept at h
  split at h
  · cases h
    exact .other
  · rename_i component
    rw [problemOf] at h
    by_cases htype : component.type = ""
    · rw [if_pos htype, if_neg (by decide)] at h
      cases h
      exact .untyped component htype
    · rw [if_neg htype, if_pos rfl] at h
      cases h
  · cases h
    exact .null
  · rename_i what
    rw [problemOf] at h
    have hrejects := @Rejects.threw β source job what
    by_cases hwhat : what = ""
    · rw [if_pos hwhat] at h hrejects
      cases h
      exact hrejects
    · rw [if_neg hwhat] at h hrejects
      cases h
      exact hrejects

theorem fileRead_eq_error {filename : String} {files : FileSystem} (h : fileRead files filename = .error failure) :
    ∃ reason, failure = .load ⟨.sceneUnopenable, filename, filename, reason⟩ := by
  rw [fileRead] at h
  dsimp only at h
  split at h
  · cases h
    exact ⟨_, rfl⟩
  · split at h
    · cases h
      exact ⟨_, rfl⟩
    · split at h
      · cases h
        exact ⟨_, rfl⟩
      · split at h
        · cases h
          exact ⟨_, rfl⟩
        · cases h
          exact ⟨_, rfl⟩
        · cases h

theorem createEntities_eq {entities : List Entity} (h : List.Forall₂ IsEntity values entities) (container : κ) :
    createEntities world values container =
      entities.foldl (fun container entity => world.entity entity.handle container) container := by
  rw [createEntities]
  induction h generalizing container with
  | nil => rfl
  | cons hentity _ ih =>
      rw [List.foldl_cons, List.foldl_cons, handleOf_eq hentity]
      exact ih _

theorem stageJobs_of_makes {jobs : List Job} {made : List (Staged β)} {last : σ} (h : Makes world loader jobs made last)
    (staged : List (Staged β)) : stageJobs world source jobs loader staged = (.ok (staged ++ made), last) := by
  induction h generalizing staged with
  | nil start => rw [stageJobs, List.append_nil]
  | @cons start next last job component rest made hmade htype _ ih =>
      have haccept : accept source job.handle job.type (.made component) = .ok component := accept_eq_ok.2 ⟨rfl, htype⟩
      rw [stageJobs, hmade, List.append_cons]
      simp only [haccept]
      exact ih _

theorem accept_of_rejects {job : Job} {created : Created β} (h : Rejects source job created failure) :
    accept source job.handle job.type created = .error failure := by
  cases h with
  | null => rfl
  | threw what =>
      rw [accept, problemOf]
      by_cases hwhat : what = ""
      · rw [if_pos hwhat, if_pos hwhat]
        rfl
      · rw [if_neg hwhat, if_neg hwhat]
        rfl
  | untyped component h =>
      rw [accept, problemOf, if_pos h, if_neg (by decide)]
      rfl
  | other => rfl

/-- A call adds all of its scene to the container, in the order of the value, or nothing: it ends at the first thing
that is wrong, and its error is about that. -/
theorem call_ends_iff (world : World σ κ β) (call : Call) (s : State σ κ) (outcome : Except Failure Unit) (t : State σ κ) :
    call.run world s = (outcome, t) ↔ Ends world call s outcome t := by
  constructor
  · rintro h
    rw [Call.run] at h
    cases htext : call.text with
    | error failure =>
        obtain ⟨reason, rfl⟩ : ∃ reason, failure = .load ⟨.sceneUnopenable, call.source, call.source, reason⟩ := by
          cases call with
          | stringParse data => cases htext
          | fileParse filename files => exact fileRead_eq_error htext
        rw [htext] at h
        cases h
        exact .unopenable reason htext
    | ok data =>
        rw [htext] at h
        dsimp only at h
        rw [load] at h
        cases hparse : world.parse data with
        | error what =>
            rw [hparse] at h
            cases h
            exact .notParsed data what htext hparse
        | ok document =>
            rw [hparse] at h
            dsimp only at h
            obtain ⟨entities, hscene⟩ | ⟨reason, hflaw⟩ := scene_or_flaw document
            · obtain ⟨values, hcheck, hentities⟩ := @checkDocument_eq_ok call.source document entities hscene
              rw [hcheck] at h
              dsimp only at h
              rw [stageEntities_eq hentities, createEntities_eq hentities] at h
              obtain ⟨made, last, hmakes, hstage⟩ | ⟨before, job, after, made, next, failure, hjobs, hmakes, haccept, hstage⟩ :=
                stageJobs_cases world call.source (jobsOf entities) s.loader []
              · rw [hstage] at h
                cases h
                exact .loaded data document entities made last htext hparse hscene hmakes
              · rw [hstage] at h
                cases h
                exact .failed data document entities before after job made next _ _ failure htext hparse hscene hjobs hmakes
                  rfl (accept_eq_error haccept)
            · rw [checkDocument_eq_error hflaw] at h
              cases h
              exact .notScene data document reason htext hparse hflaw
  · intro h
    cases h with
    | unopenable reason h => rw [Call.run, h]
    | notParsed data what h hparse =>
        rw [Call.run, h]
        dsimp only
        rw [load, hparse]
        rfl
    | notScene data document reason h hparse hflaw =>
        rw [Call.run, h]
        dsimp only
        rw [load, hparse]
        dsimp only
        rw [checkDocument_eq_error hflaw]
        rfl
    | failed data document entities before after job made next last created failure h hparse hscene hjobs hmakes hcreate hrejects =>
        obtain ⟨values, hcheck, hentities⟩ := @checkDocument_eq_ok call.source document entities hscene
        have hfail : stageJobs world call.source (job :: after) next ([] ++ made) = (.error failure, last) := by
          rw [stageJobs, hcreate]
          simp only [accept_of_rejects hrejects]
        rw [Call.run, h]
        dsimp only
        rw [load, hparse]
        dsimp only
        rw [hcheck]
        dsimp only
        rw [stageEntities_eq hentities, hjobs, stageJobs_append (stageJobs_of_makes hmakes []), hfail]
    | loaded data document entities made last h hparse hscene hmakes =>
        obtain ⟨values, hcheck, hentities⟩ := @checkDocument_eq_ok call.source document entities hscene
        rw [Call.run, h]
        dsimp only
        rw [load, hparse]
        dsimp only
        rw [hcheck]
        dsimp only
        rw [stageEntities_eq hentities, createEntities_eq hentities, stageJobs_of_makes hmakes []]
        rfl

end TheSeed.JSONLoaderExact
