import TheSeed.PakRequest

namespace TheSeed.ResourcePak

open TheSeed.Transition Function PakDescription
open PakLoader (PakStamp PakEntry ReadFailure pakFailureThrow pakKind)
open PakRequest (LoadError pakEntryRead entryOf refused)
open PluginCache (CallId)

/-! A `ResourcePak` that threads and copies share, as the steps between two lock operations or two uses of its file,
while another program replaces or deletes that file. -/

/-- What is thrown on the way to `PakFailureThrow`. -/
inductive Failure
  /-- `PakOpenError` -/
  | openError (missing : Bool) (what : String)
  | read (failure : ReadFailure)
  /-- `PakNoMemory` -/
  | noMemory (entry : PakEntry)
  | resourceMissing (name : String)

/-- `PakFailureThrow`, with a missing file as `NotFound`. -/
def failureThrow (filename : String) : Failure → LoadError
  | .openError missing what =>
      ⟨.load (if missing then .notFound else .notLoadable), filename, filename, [], what, pakKind, []⟩
  | .read failure => refused ⟨filename, filename, []⟩ (pakFailureThrow failure)
  | .noMemory entry =>
      ⟨.load .notLoadable, filename, filename, [], "not enough memory to read resource \"" ++ entry.name ++ "\" (" ++
        toString entry.size ++ " bytes)", pakKind, []⟩
  | .resourceMissing name =>
      ⟨.resourceMissing, filename, filename, [], "does not contain \"" ++ name ++ "\"", pakKind, [name]⟩

/-- The system refused something: this can happen on any file. -/
def Failure.Refused : Failure → Prop
  | .openError _ _ | .noMemory _ => True
  | .read (.readError _) | .read .badAlloc | .read .lengthError | .read (.exception _ _) | .read .unknown => True
  | .read (.damaged _) | .read (.shortRead _) | .resourceMissing _ => False

abbrev Resources := List (String × List UInt8)

inductive Request
  /-- `Load`, into a container or as the value of the call -/
  | load (name : String) (container : Bool)
  | loadAll
  | resourceNames

def Request.container : Request → Bool
  | .load _ container => container
  | .loadAll => true
  | .resourceNames => false

/-- The entries that a call reads. -/
def entriesFor (index : PakIndex) : Request → Except Failure (List PakEntry)
  | .load name _ =>
      match entryOf index name with
      | none => .error (.resourceMissing name)
      | some entry => .ok [entry]
  | .loadAll => .ok index.entries
  | .resourceNames => .ok []

/-- One entry after the other, up to the first that cannot be read. -/
def readAll (file : PakFile) : List PakEntry → Except Failure Resources
  | [] => .ok []
  | entry :: rest => do
      let bytes ← (pakEntryRead file entry).mapError .read
      let others ← readAll file rest
      return (entry.name, bytes) :: others

/-- What a call does next. -/
inductive Pc
  | start
  | opened (file : PakFile)
  /-- in `IndexFor`, with the mutex -/
  | locked (file : PakFile)
  | reading (file : PakFile) (rest : List PakEntry) (got : Resources)
  | adding (file : PakFile) (rest got : Resources)
  | done (file : PakFile) (got : Resources)
  | named (names : List String)
  | threw (file : Option PakFile) (failure : Failure)

structure Call where
  request : Request
  pc : Pc

/-- What the call gives its caller. -/
def Call.result (filename : String) (c : Call) : Option (Except LoadError Resources) :=
  match c.pc with
  | .done _ got => some (.ok got)
  | .threw _ failure => some (.error (failureThrow filename failure))
  | _ => none

/-- The version of the file that the call has or had open. -/
def Call.file (c : Call) : Option PakFile :=
  match c.pc with
  | .opened file | .locked file | .reading file _ _ | .adding file _ _ | .done file _ => some file
  | .threw file _ => file
  | .start | .named _ => none

/-- What the copies share, their calls, what each call has put in its container, and, for the proofs, all versions of
the file and the stamps that a description was validated for, the last one first. -/
structure State where
  disk : Option PakFile
  remembered : Option PakIndex
  mutex : Option CallId
  calls : CallId → Option Call
  added : CallId → Resources
  versions : List PakFile
  validated : List PakStamp

def State.goto (s : State) (i : CallId) (c : Call) (pc : Pc) : State :=
  { s with calls := update s.calls i (some { c with pc := pc }) }

@[simp] theorem State.goto_calls (s : State) (i : CallId) (c : Call) (pc : Pc) :
    (s.goto i c pc).calls = update s.calls i (some { c with pc := pc }) := rfl

def State.At (s : State) (i : CallId) (c : Call) (pc : Pc) : Prop :=
  s.calls i = some c ∧ c.pc = pc

/-- The remembered description of the version that is open. -/
def State.Hit (s : State) (file : PakFile) (index : PakIndex) : Prop :=
  s.remembered = some index ∧ index.stamp = file.stamp

/-- With the description: the name is looked up, or all entries are read. -/
def afterIndex (file : PakFile) (index : PakIndex) (request : Request) : Pc :=
  match entriesFor index request with
  | .error failure => .threw (some file) failure
  | .ok entries => .reading file entries []

inductive Step (parse : JsonParse) : State → State → Prop
  | replace (s disk) : Step parse s { s with disk := disk, versions := disk.toList ++ s.versions }
  | begin (s i request) (h : s.calls i = none) : Step parse s (s.goto i ⟨request, .start⟩ .start)
  | names (s i c index) (h : s.At i c .start) (hr : c.request = .resourceNames) (free : s.mutex = none)
      (remembered : s.remembered = some index) : Step parse s (s.goto i c (.named (index.entries.map PakEntry.name)))
  | openMissing (s i c what) (h : s.At i c .start) (hr : c.request ≠ .resourceNames) (gone : s.disk = none) :
      Step parse s (s.goto i c (.threw none (.openError true what)))
  | openFails (s i c what) (h : s.At i c .start) (hr : c.request ≠ .resourceNames) :
      Step parse s (s.goto i c (.threw none (.openError false what)))
  | opens (s i c file) (h : s.At i c .start) (hr : c.request ≠ .resourceNames) (found : s.disk = some file) :
      Step parse s (s.goto i c (.opened file))
  | stampFails (s i c file what) (h : s.At i c (.opened file)) :
      Step parse s (s.goto i c (.threw (some file) (.read (.readError what))))
  | lock (s i c file) (h : s.At i c (.opened file)) (free : s.mutex = none) :
      Step parse s { s.goto i c (.locked file) with mutex := some i }
  | hit (s i c file index) (h : s.At i c (.locked file)) (hit : s.Hit file index) :
      Step parse s { s.goto i c (afterIndex file index c.request) with mutex := none }
  | validates (s i c file index) (h : s.At i c (.locked file)) (miss : ∀ index, ¬ s.Hit file index)
      (read : pakIndexRead parse file = .ok index) :
      Step parse s { s.goto i c (afterIndex file index c.request) with
        mutex := none, remembered := some index, validated := index.stamp :: s.validated }
  | rejects (s i c file failure) (h : s.At i c (.locked file)) (miss : ∀ index, ¬ s.Hit file index)
      (read : pakIndexRead parse file = .error failure) :
      Step parse s { s.goto i c (.threw (some file) (.read failure)) with mutex := none }
  | validationBreaks (s i c file failure) (h : s.At i c (.locked file)) (miss : ∀ index, ¬ s.Hit file index)
      (refused : failure.Refused) : Step parse s { s.goto i c (.threw (some file) failure) with mutex := none }
  | reads (s i c file entry rest got bytes) (h : s.At i c (.reading file (entry :: rest) got))
      (read : pakEntryRead file entry = .ok bytes) :
      Step parse s (s.goto i c (.reading file rest (got ++ [(entry.name, bytes)])))
  | readFails (s i c file entry rest got failure) (h : s.At i c (.reading file (entry :: rest) got))
      (read : pakEntryRead file entry = .error failure) :
      Step parse s (s.goto i c (.threw (some file) (.read failure)))
  | readBreaks (s i c file entry rest got failure) (h : s.At i c (.reading file (entry :: rest) got))
      (refused : failure.Refused) : Step parse s (s.goto i c (.threw (some file) failure))
  | collected (s i c file got) (h : s.At i c (.reading file [] got)) :
      Step parse s (s.goto i c (if c.request.container then .adding file got got else .done file got))
  | adds (s i c file resource rest got) (h : s.At i c (.adding file (resource :: rest) got)) :
      Step parse s { s.goto i c (.adding file rest got) with added := update s.added i (s.added i ++ [resource]) }
  | returns (s i c file got) (h : s.At i c (.adding file [] got)) : Step parse s (s.goto i c (.done file got))

/-- The constructor read the description of the file. -/
structure State.Constructed (parse : JsonParse) (s : State) : Prop where
  described : ∃ file index, s.disk = some file ∧ pakIndexRead parse file = .ok index ∧ s.remembered = some index ∧
    s.versions = [file] ∧ s.validated = [index.stamp]
  mutex : s.mutex = none
  calls : ∀ i, s.calls i = none
  added : ∀ i, s.added i = []

def resourcePak (parse : JsonParse) : System State := ⟨State.Constructed parse, Step parse⟩

end TheSeed.ResourcePak
