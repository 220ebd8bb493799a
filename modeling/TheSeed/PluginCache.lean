import Mathlib.Logic.Function.Basic
import Mathlib.Tactic.Ring
import TheSeed.Library.SingleFlight

namespace TheSeed.PluginCache

open TheSeed.Transition Function

/-! `Get` and `PathAdd` on one plugin cache, as the steps between two lock operations, two system
calls or two uses of a promise. -/

/-- The calls running on the cache. -/
abbrev CallId := Nat

abbrev Handle := Nat

structure Entry where
  creator : Nat
  file : String
deriving DecidableEq

inductive Reason
  | notFound
  | notLoadable
  | entryPointMissing
deriving DecidableEq

inductive LocationState
  | searched
  | missing
  | found
  | notReached
  | unreadable
deriving DecidableEq

structure Location where
  path : String
  development : Bool
  state : LocationState
  reason : String
deriving DecidableEq

structure LoadError where
  reason : Reason
  name : String
  file : String
  locations : List Location
  detail : String
  kind : String
deriving DecidableEq

/-- A failure that is a `LoadError`, or any other exception. -/
inductive Failure
  | load (error : LoadError)
  | other (what : String)
deriving DecidableEq

abbrev Outcome := Except Failure Entry

structure SearchResult where
  found : Bool
  file : String
  identity : String
  locations : List Location
deriving DecidableEq

structure Request where
  name : String
  org : String
  library : String
  symbol : String
  kind : String
deriving DecidableEq

def pluginFileName (library : String) : String := "lib" ++ library ++ ".so"

def developmentLocations (org library : String) (pak : Bool) : List String :=
  let suffix := if pak then "" else "/src/.libs"
  ["../../" ++ library ++ suffix] ++
    if org ≠ "" then ["../node_modules/" ++ org ++ "/" ++ library ++ suffix] else []

/-- The search list and the number of configured locations it begins with. -/
def searchListBuild (configured : List String) (org library : String) (pak : Bool) : List String × Nat :=
  (configured ++ developmentLocations org library pak, configured.length)

def notFoundThrow (result : SearchResult) (name fileName kind : String) : LoadError :=
  ⟨.notFound, name, fileName, result.locations, "", kind⟩

def notLoadableThrow (result : SearchResult) (name reason kind : String) : LoadError :=
  ⟨.notLoadable, name, result.file, result.locations, reason, kind⟩

def entryPointMissingThrow (file name symbol reason kind : String) : LoadError :=
  ⟨.entryPointMissing, name, file, [], if reason = "" then symbol else symbol ++ ": " ++ reason, kind⟩

structure InFlight where
  /-- the promise of the call that made the record -/
  future : CallId
  version : Nat
deriving DecidableEq

/-- How a finished `Get` came by its outcome. -/
inductive Source
  | remembered (load : CallId)
  | shared (flight : CallId)
  | own
deriving DecidableEq

/-- The load an outcome of the call `i` comes from. -/
def Source.load (i : CallId) : Source → CallId
  | .remembered load => load
  | .shared flight => flight
  | .own => i

/-- What a `Get` does next. -/
inductive Pc
  | start
  | missed
  | sharing (flight : CallId)
  | waiting (flight : CallId)
  | search (locations : List String) (configuredCount : Nat)
  | openLock (search : SearchResult)
  | openLocked (search : SearchResult)
  | openEmplace (search : SearchResult) (handle : Handle)
  | symbol (search : SearchResult) (handle : Handle)
  | publish (entry : Entry)
  | fail (error : Failure)
  | setValue (outcome : Outcome)
  | deliver (outcome : Outcome)
  | done (outcome : Outcome) (source : Source)

/-- A running `Get`, with what held when it began: the locations of the `PathAdd` calls that had
returned, and whether an entry was remembered. -/
structure GetCall where
  request : Request
  added : List String
  remembered : Bool
  pc : Pc

inductive AddPc
  | start
  | pushed
  | returned
  | threw
deriving DecidableEq

inductive Call
  | get (g : GetCall)
  | pathAdd (path : String) (pc : AddPc)

/-- The cache, its calls, and the history that no call reads: the load an entry comes from, the
locations a load works with, the `PathAdd` calls that returned, the files opened. -/
structure State where
  paths : List String
  version : Nat
  entries : String → Option Entry
  inFlight : String → Option InFlight
  promises : CallId → Option Outcome
  openMutex : Option CallId
  libraries : String → Option Handle
  calls : CallId → Option Call
  loadedBy : String → CallId
  snapshots : CallId → List String
  added : List String
  opened : List String

def init : State where
  paths := []
  version := 0
  entries := fun _ => none
  inFlight := fun _ => none
  promises := fun _ => none
  openMutex := none
  libraries := fun _ => none
  calls := fun _ => none
  loadedBy := fun _ => 0
  snapshots := fun _ => []
  added := []
  opened := []

/-- `max_size()` of the vector, of strings of 32 bytes: the length `push_back` throws at. -/
def kMaxPaths : Nat := (2 ^ 63 - 1) / 32

def State.goto (s : State) (i : CallId) (g : GetCall) (pc : Pc) : State :=
  { s with calls := update s.calls i (some (.get { g with pc := pc })) }

def State.addGoto (s : State) (i : CallId) (path : String) (pc : AddPc) : State :=
  { s with calls := update s.calls i (some (.pathAdd path pc)) }

def State.At (s : State) (i : CallId) (g : GetCall) (pc : Pc) : Prop :=
  s.calls i = some (.get g) ∧ g.pc = pc

inductive Step : State → State → Prop
  | begin (s i r) (h : s.calls i = none) :
      Step s (s.goto i ⟨r, s.added, (s.entries r.name).isSome, .start⟩ .start)
  | sharedHit (s i g e) (h : s.At i g .start) (he : s.entries g.request.name = some e) :
      Step s (s.goto i g (.done (.ok e) (.remembered (s.loadedBy g.request.name))))
  | sharedMiss (s i g) (h : s.At i g .start) (he : s.entries g.request.name = none) :
      Step s (s.goto i g .missed)
  | uniqueHit (s i g e) (h : s.At i g .missed) (he : s.entries g.request.name = some e) :
      Step s (s.goto i g (.done (.ok e) (.remembered (s.loadedBy g.request.name))))
  | uniqueShare (s i g f) (h : s.At i g .missed) (he : s.entries g.request.name = none)
      (hf : s.inFlight g.request.name = some f) (hv : f.version = s.version) :
      Step s (s.goto i g (.sharing f.future))
  | uniqueWait (s i g f) (h : s.At i g .missed) (he : s.entries g.request.name = none)
      (hf : s.inFlight g.request.name = some f) (hv : f.version ≠ s.version) :
      Step s (s.goto i g (.waiting f.future))
  | uniqueOwn (s i g) (h : s.At i g .missed) (he : s.entries g.request.name = none)
      (hf : s.inFlight g.request.name = none) :
      Step s { s.goto i g (.search (searchListBuild s.paths g.request.org g.request.library false).1
          (searchListBuild s.paths g.request.org g.request.library false).2) with
        inFlight := update s.inFlight g.request.name (some ⟨i, s.version⟩)
        snapshots := update s.snapshots i s.paths }
  | shared (s i g f o) (h : s.At i g (.sharing f)) (ho : s.promises f = some o) :
      Step s (s.goto i g (.done o (.shared f)))
  | waited (s i g f o) (h : s.At i g (.waiting f)) (ho : s.promises f = some o) :
      Step s (s.goto i g .start)
  | searchFound (s i g locations count result) (h : s.At i g (.search locations count))
      (hr : result.found = true) : Step s (s.goto i g (.openLock result))
  | searchMissing (s i g locations count result) (h : s.At i g (.search locations count))
      (hr : result.found = false) :
      Step s (s.goto i g (.fail (.load (notFoundThrow result g.request.name
        (pluginFileName g.request.library) g.request.kind))))
  | searchThrows (s i g locations count what) (h : s.At i g (.search locations count)) :
      Step s (s.goto i g (.fail (.other what)))
  | openAcquire (s i g result) (h : s.At i g (.openLock result)) (hm : s.openMutex = none) :
      Step s { s.goto i g (.openLocked result) with openMutex := some i }
  | openKnown (s i g result handle) (h : s.At i g (.openLocked result))
      (hl : s.libraries result.identity = some handle) :
      Step s { s.goto i g (.symbol result handle) with openMutex := none }
  | openPinned (s i g result handle) (h : s.At i g (.openLocked result))
      (hl : s.libraries result.identity = none) :
      Step s { s.goto i g (.openEmplace result handle) with opened := result.identity :: s.opened }
  | openPinnedFails (s i g result error) (h : s.At i g (.openLocked result))
      (hl : s.libraries result.identity = none) :
      Step s { s.goto i g (.fail (.load (notLoadableThrow result g.request.name error g.request.kind))) with
        openMutex := none }
  | openEmplace (s i g result handle) (h : s.At i g (.openEmplace result handle)) :
      Step s { s.goto i g (.symbol result handle) with
        libraries := update s.libraries result.identity
          (some ((s.libraries result.identity).getD handle))
        openMutex := none }
  | symbolFound (s i g result handle address) (h : s.At i g (.symbol result handle)) :
      Step s (s.goto i g (.publish ⟨address, result.file⟩))
  | symbolMissing (s i g result handle error) (h : s.At i g (.symbol result handle)) :
      Step s (s.goto i g (.fail (.load (entryPointMissingThrow result.file g.request.name
        g.request.symbol error g.request.kind))))
  | publish (s i g e) (h : s.At i g (.publish e)) :
      Step s { s.goto i g (.setValue (.ok e)) with
        entries := update s.entries g.request.name (some e)
        inFlight := update s.inFlight g.request.name none
        loadedBy := update s.loadedBy g.request.name i }
  | fail (s i g e) (h : s.At i g (.fail e)) :
      Step s { s.goto i g (.setValue (.error e)) with
        inFlight := update s.inFlight g.request.name none }
  | setValue (s i g o) (h : s.At i g (.setValue o)) :
      Step s { s.goto i g (.deliver o) with promises := update s.promises i (some o) }
  | deliver (s i g o) (h : s.At i g (.deliver o)) : Step s (s.goto i g (.done o .own))
  | addBegin (s i p) (h : s.calls i = none) : Step s (s.addGoto i p .start)
  | addPush (s i p) (h : s.calls i = some (.pathAdd p .start)) (hp : s.paths.length < kMaxPaths) :
      Step s { s.addGoto i p .pushed with
        paths := s.paths ++ [p]
        version := (s.version + 1) % 2 ^ 64 }
  | addThrows (s i p) (h : s.calls i = some (.pathAdd p .start)) (hp : kMaxPaths ≤ s.paths.length) :
      Step s (s.addGoto i p .threw)
  | addReturn (s i p) (h : s.calls i = some (.pathAdd p .pushed)) :
      Step s { s.addGoto i p .returned with added := p :: s.added }

def cache : System State := ⟨fun s => s = init, Step⟩

end TheSeed.PluginCache
