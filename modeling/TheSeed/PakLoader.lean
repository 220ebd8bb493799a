import Mathlib.Logic.Function.Basic
import TheSeed.Library.Transition
import TheSeed.PluginCache

namespace TheSeed.PakLoader

open TheSeed.Transition Function
open PluginCache (CallId Location LoadError Reason)

/-! `IndexGet` on one pak loader while other programs replace the paks, as the steps between two lock operations, two
reads of a pak or two uses of a promise. -/

/-- One version of a file. -/
structure PakStamp where
  device : Nat
  file : Nat
  size : Nat
  modified : Int
  deriving DecidableEq

structure PakEntry where
  name : String
  offset : Nat
  size : Nat
  deriving DecidableEq

structure PakIndex where
  stamp : PakStamp
  entries : List PakEntry
  descriptionSize : Nat
  deriving DecidableEq

def pakKind : String := "resource pak"

/-- What `PakIndexRead` throws. -/
inductive ReadFailure
  | damaged (what : String)
  | shortRead (what : String)
  | readError (what : String)
  | badAlloc
  | lengthError
  | exception (typeName what : String)
  | unknown
  deriving DecidableEq

/-- The outcome of a validation that failed, as plain values. -/
structure Refusal where
  reason : Reason
  detail : String
  deriving DecidableEq

def pakFailureThrow (failure : ReadFailure) : Refusal where
  reason := .notLoadable
  detail :=
    match failure with
    | .damaged what | .shortRead what => "damaged: " ++ what
    | .readError what => what
    | .badAlloc | .lengthError => "not enough memory to read the resource pak"
    | .exception typeName what => "internal error (" ++ typeName ++ "): " ++ what
    | .unknown => "internal error (unknown exception)"

abbrev Outcome := Except Refusal PakIndex

/-- The validation of one version of a file, with the call whose promise has the outcome. -/
structure InFlight where
  stamp : PakStamp
  future : CallId
  deriving DecidableEq

structure Request where
  identity : String
  pakName : String
  fileName : String
  locations : List Location
  deriving DecidableEq

/-- How a finished call came by its outcome. -/
inductive Source
  | remembered
  | shared (owner : CallId)
  | own
  deriving DecidableEq

/-- What a call does next. -/
inductive Pc
  | start
  | missed
  | reading
  | publish (outcome : Outcome)
  | setValue (outcome : Outcome)
  | waiting (owner : CallId)
  | done (outcome : Outcome) (source : Source)
  /-- the stamp of the open file could not be read -/
  | threw (what : String)
  deriving DecidableEq

/-- A running `IndexGet` with the version of the file that it has open. -/
structure Call where
  request : Request
  stamp : PakStamp
  pc : Pc

/-- What the call gives its caller. -/
def Call.result (c : Call) : Option (Except LoadError PakIndex) :=
  match c.pc with
  | .done (.ok index) _ => some (.ok index)
  | .done (.error refusal) _ =>
      some (.error ⟨refusal.reason, c.request.pakName, c.request.fileName, c.request.locations, refusal.detail, pakKind⟩)
  | _ => none

/-- The loader, its calls and the files, and the call that a remembered description comes from, which no call reads. -/
structure State where
  /-- the version that a path stands for now -/
  disk : String → PakStamp
  remembered : String → Option PakIndex
  inFlight : String → Option InFlight
  promises : CallId → Option Outcome
  calls : CallId → Option Call
  loadedBy : String → CallId

/-- A loader that has not been used. -/
structure State.Fresh (s : State) : Prop where
  remembered : ∀ n, s.remembered n = none
  inFlight : ∀ n, s.inFlight n = none
  promises : ∀ i, s.promises i = none
  calls : ∀ i, s.calls i = none

def State.goto (s : State) (i : CallId) (c : Call) (pc : Pc) : State :=
  { s with calls := update s.calls i (some { c with pc := pc }) }

@[simp] theorem State.goto_calls (s : State) (i : CallId) (c : Call) (pc : Pc) :
    (s.goto i c pc).calls = update s.calls i (some { c with pc := pc }) := rfl

def State.At (s : State) (i : CallId) (c : Call) (pc : Pc) : Prop :=
  s.calls i = some c ∧ c.pc = pc

/-- The remembered description of the version that the call has open. -/
def State.Hit (s : State) (c : Call) (index : PakIndex) : Prop :=
  s.remembered c.request.identity = some index ∧ index.stamp = c.stamp

/-- The running validation of the version that the call has open. -/
def State.Flying (s : State) (c : Call) (f : InFlight) : Prop :=
  s.inFlight c.request.identity = some f ∧ f.stamp = c.stamp

/-- A description is remembered when the validation succeeded. -/
def State.remember (s : State) (identity : String) : Outcome → String → Option PakIndex
  | .ok index => update s.remembered identity (some index)
  | .error _ => s.remembered

def State.credit (s : State) (identity : String) (i : CallId) : Outcome → String → CallId
  | .ok _ => update s.loadedBy identity i
  | .error _ => s.loadedBy

/-- The record is taken out when it is for the version, whoever made it. -/
def State.land (s : State) (identity : String) (stamp : PakStamp) : String → Option InFlight :=
  update s.inFlight identity ((s.inFlight identity).filter fun f => f.stamp ≠ stamp)

inductive Step : State → State → Prop
  | replace (s path stamp) : Step s { s with disk := update s.disk path stamp }
  | begin (s i r) (h : s.calls i = none) : Step s (s.goto i ⟨r, s.disk r.identity, .start⟩ .start)
  | stampFails (s i c what) (h : s.At i c .start) : Step s (s.goto i c (.threw what))
  | sharedHit (s i c index) (h : s.At i c .start) (hit : s.Hit c index) : Step s (s.goto i c (.done (.ok index) .remembered))
  | sharedMiss (s i c) (h : s.At i c .start) (miss : ∀ index, ¬ s.Hit c index) : Step s (s.goto i c .missed)
  | uniqueHit (s i c index) (h : s.At i c .missed) (hit : s.Hit c index) : Step s (s.goto i c (.done (.ok index) .remembered))
  | uniqueWait (s i c f) (h : s.At i c .missed) (miss : ∀ index, ¬ s.Hit c index) (hf : s.Flying c f) :
      Step s (s.goto i c (.waiting f.future))
  | uniqueOwn (s i c) (h : s.At i c .missed) (miss : ∀ index, ¬ s.Hit c index) (hf : ∀ f, ¬ s.Flying c f) :
      Step s { s.goto i c .reading with inFlight := update s.inFlight c.request.identity (some ⟨c.stamp, i⟩) }
  | readSucceeds (s i c entries descriptionSize) (h : s.At i c .reading) :
      Step s (s.goto i c (.publish (.ok ⟨c.stamp, entries, descriptionSize⟩)))
  | readFails (s i c failure) (h : s.At i c .reading) : Step s (s.goto i c (.publish (.error (pakFailureThrow failure))))
  | publish (s i c o) (h : s.At i c (.publish o)) :
      Step s { s.goto i c (.setValue o) with
        remembered := s.remember c.request.identity o
        inFlight := s.land c.request.identity c.stamp
        loadedBy := s.credit c.request.identity i o }
  | setValue (s i c o) (h : s.At i c (.setValue o)) :
      Step s { s.goto i c (.done o .own) with promises := update s.promises i (some o) }
  | waited (s i c f o) (h : s.At i c (.waiting f)) (ho : s.promises f = some o) :
      Step s (s.goto i c (.done o (.shared f)))

def loader : System State := ⟨State.Fresh, Step⟩

end TheSeed.PakLoader
