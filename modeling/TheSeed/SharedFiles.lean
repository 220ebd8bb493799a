import TheSeed.BoundedBytes
import TheSeed.FileReplace

namespace TheSeed.SharedFiles

open TheSeed.Transition FileReplace Function
open BoundedBytes (Outcome)

/-! Calls that read files and replace them (the POSIX branch), of any number of processes at a time, as the steps
between two system calls. A path leads to a file; a descriptor stays with the file it was opened on. -/

abbrev CallId := Nat

/-- What a file is whatever paths lead to it. -/
abbrev Inode := Nat

structure Disk where
  names : Path → Option Inode
  files : Inode → Option Entry
  leads : ∀ {p file}, names p = some file → files file ≠ none

namespace Disk

/-- What the paths lead to. -/
def view (d : Disk) : FileSystem := fun p => (d.names p).bind d.files

def create (d : Disk) (p : Path) (file : Inode) (f : File) : Disk where
  names := update d.names p (some file)
  files := update d.files file (some (.regular f))
  leads := by
    intro q other h
    by_cases hfile : other = file
    · rw [hfile, update_self]
      exact Option.some_ne_none _
    · rw [update_of_ne hfile]
      by_cases hq : q = p
      · rw [hq, update_self] at h
        exact absurd (Option.some.inj h).symm hfile
      · rw [update_of_ne hq] at h
        exact d.leads h

def change (d : Disk) (file : Inode) (f : File) : Disk where
  names := d.names
  files := update d.files file (some (.regular f))
  leads := by
    intro q other h
    by_cases hfile : other = file
    · rw [hfile, update_self]
      exact Option.some_ne_none _
    · rw [update_of_ne hfile]
      exact d.leads h

def unlink (d : Disk) (p : Path) : Disk where
  names := update d.names p none
  files := d.files
  leads := by
    intro q other h
    by_cases hq : q = p
    · rw [hq, update_self] at h
      cases h
    · rw [update_of_ne hq] at h
      exact d.leads h

/-- `rename` takes effect as a whole. -/
def rename (d : Disk) (old new : Path) : Disk where
  names := update (update d.names new (d.names old)) old none
  files := d.files
  leads := by
    intro q other h
    by_cases hold : q = old
    · rw [hold, update_self] at h
      cases h
    · rw [update_of_ne hold] at h
      by_cases hnew : q = new
      · rw [hnew, update_self] at h
        exact d.leads h
      · rw [update_of_ne hnew] at h
        exact d.leads h

end Disk

/-! What a call is for -/

/-- What a call comes to when it has read enough: it returns, or it replaces the file and returns then. -/
inductive Verdict (α : Type)
  | finish (result : Outcome α)
  | replace (bytes : List UInt8) (value : α)

inductive Next (α : Type)
  | read (offset count : Nat)
  | decide (verdict : Verdict α)

/-- The parts of a file that have been read, each with its position. -/
abbrev Parts := List (Nat × List UInt8)

/-- A call on a file, with what its process supplies. `target` is the path that `canonical` gives for `filePath`. -/
structure Job (α : Type) where
  filePath : String
  target : Path
  processId : String
  strerror : Nat → String
  inGroup : Nat → Bool
  /-- the text that the call throws where the file layer throws one -/
  raise : String → String
  /-- from the size of the file and the parts read so far -/
  next : Nat → Parts → Next α
  /-- what is read lies within the size -/
  inside : ∀ {size parts offset count}, next size parts = .read offset count → offset + count ≤ size

/-- The call of `WriteFileBytes` that a job makes. -/
def Job.replacement {α : Type} (job : Job α) (bytes : List UInt8) : FileReplace.Call :=
  ⟨job.filePath, job.target, bytes, job.processId, job.strerror, job.inGroup⟩

/-- A job that begins with `ReadFileBytes`: one read of the whole file, and none of an empty one. -/
def readFileBytes {α : Type} (plan : List UInt8 → Verdict α) (size : Nat) : Parts → Next α
  | [] => if 0 < size then .read 0 size else .decide (plan [])
  | part :: _ => .decide (plan part.2)

/-! `RandomAccessFile` -/

/-- `std::numeric_limits<off_t>::max()` -/
def kOffsetLimit : Nat := 2 ^ 63 - 1

/-- `chunk_limit` -/
def kChunkLimit : Nat := 2 ^ 30

/-- A file that is open for reading, with its size when it was opened and what has been read of it. -/
structure Reader where
  file : Inode
  size : Nat
  parts : Parts

/-! `WriteFileBytes` -/

/-- A replacement on its way: the members of `WorkingFile`, and the next call the process makes. -/
structure Writer where
  path : Path
  fd : Option Inode
  created : Bool
  committed : Bool
  point : FileReplace.Point
  unlinkFailed : Bool

namespace Writer

def start : Writer := ⟨⟨"", ""⟩, none, false, false, .symlinkStatus, false⟩

/-- The replacement as a process sees it that is alone. There a descriptor is the path it was opened on. -/
def alone (w : Writer) (d : Disk) : FileReplace.State :=
  ⟨d.view, ⟨w.path, w.fd.map fun _ => w.path, w.created, w.committed⟩, w.point, w.unlinkFailed⟩

/-- The replacement after a step that such a process made, with the descriptor it had. -/
def after (w : Writer) (s : FileReplace.State) : Writer :=
  ⟨s.working.path, s.working.fd.bind fun _ => w.fd, s.working.created, s.working.committed, s.point, s.unlinkFailed⟩

end Writer

/-- The steps of a replacement on a disk that other processes use too. -/
inductive Write (c : FileReplace.Call) : Disk → Writer → Disk → Writer → Prop
  -- every call that fails, and every one that only asks, is as it is for a process alone
  | quiet (d w s) (h : FileReplace.Step c (w.alone d) s) (hfs : s.fs = d.view) : Write c d w d (w.after s)
  | opened (d w info attempt suffix uid gid file) (h : w.point = .openWorking info attempt)
      (hmax : attempt < kMaxNameAttempts) (hnew : d.names (workingName c suffix) = none) (hfree : d.files file = none) :
      Write c d w (d.create (workingName c suffix) file ⟨[], 0, uid, gid⟩)
        ⟨workingName c suffix, some file, true, false, .write info 0, w.unlinkFailed⟩
  | written (d w info offset n file f) (h : w.point = .write info offset) (hmore : offset < c.bytes.length)
      (hfd : w.fd = some file) (hf : d.files file = some (.regular f)) (hpos : 0 < n) (hle : n ≤ c.bytes.length - offset) :
      Write c d w (d.change file (f.append ((c.bytes.drop offset).take n))) { w with point := .write info (offset + n) }
  | fchown (d w info file f) (h : w.point = .fchown info) (hfd : w.fd = some file)
      (hf : d.files file = some (.regular f)) :
      Write c d w (d.change file (f.chown info.st_uid info.st_gid)) { w with point := .fchmod info }
  | fchmod (d w info file f) (h : w.point = .fchmod info) (hfd : w.fd = some file)
      (hf : d.files file = some (.regular f)) :
      Write c d w (d.change file (f.chmod (info.st_mode &&& kPermissionBits) c.inGroup)) { w with point := .fsync }
  | rename (d w) (h : w.point = .rename) (hfrom : d.names w.path ≠ none) :
      Write c d w (d.rename w.path c.target) { w with committed := true, point := .fsyncFolder }
  | destroyUnlink (d w result) (h : w.point = .destroyUnlink result) (hdrop : (w.created && !w.committed) = true) :
      Write c d w (d.unlink w.path) { w with point := .done result }

/-! Runs -/

/-- What a call does next. -/
inductive Point (α : Type)
  | openFile
  | sizing (file : Inode)
  | deciding (r : Reader)
  | reading (r : Reader) (offset count : Nat) (done : List UInt8)
  /-- a `FileShortRead` is on its way -/
  | shortRead (r : Reader) (offset expected got : Nat)
  | replacing (r : Reader) (bytes : List UInt8) (value : α) (w : Writer)
  | returned (ended : Nat) (result : Outcome α)
  | killed

/-- A call that has begun, when its target had had `began` contents. -/
structure Run (α : Type) where
  job : Job α
  began : Nat
  /-- `~WorkingFile` could not remove the working file -/
  unlinkFailed : Bool
  point : Point α

/-- A content that a path has had, and the call that replaced the one before it. -/
structure Version where
  writer : Option CallId
  file : Inode
  content : List UInt8

/-- The disk and the calls, and the history that no call reads: the call that created a file, the contents a path
has had. -/
structure State (α : Type) where
  disk : Disk
  calls : CallId → Option (Run α)
  owner : Inode → Option CallId
  versions : Path → List Version

def firstVersions (d : Disk) (p : Path) : List Version :=
  match d.names p, d.view p with
  | some file, some (.regular f) => [⟨none, file, f.content⟩]
  | _, _ => []

def start {α : Type} (d : Disk) : State α := ⟨d, fun _ => none, fun _ => none, firstVersions d⟩

section steps

variable {α : Type}

def State.goto (s : State α) (i : CallId) (c : Run α) (point : Point α) : State α :=
  { s with calls := update s.calls i (some { c with point }) }

def State.At (s : State α) (i : CallId) (c : Run α) (point : Point α) : Prop := s.calls i = some c ∧ c.point = point

def State.returns (s : State α) (i : CallId) (c : Run α) (result : Outcome α) : State α :=
  s.goto i c (.returned (s.versions c.job.target).length result)

/-- A `std::runtime_error` of the file layer. -/
def State.throws (s : State α) (i : CallId) (c : Run α) (text : String) : State α :=
  s.returns i c (.error (c.job.raise text))

def Live : Point α → Prop
  | .returned _ _ | .killed => False
  | _ => True

/-- The history after a step of a replacement. -/
def State.wrote (s : State α) (i : CallId) (c : Run α) (r : Reader) (bytes : List UInt8) (value : α) (w : Writer)
    (d : Disk) (w' : Writer) : State α :=
  { s.goto i c (.replacing r bytes value w') with
    disk := d
    -- a file that was created
    owner := fun file => if s.disk.files file = none ∧ d.files file ≠ none then some i else s.owner file
    -- a rename that took effect
    versions := if w.committed = false ∧ w'.committed = true then
        update s.versions c.job.target
          (s.versions c.job.target ++ ((d.names c.job.target).map fun file => ⟨some i, file, bytes⟩).toList)
      else s.versions }

inductive Step (allowed : Job α → Prop) : State α → State α → Prop
  | begin (s i job) (h : s.calls i = none) (hjob : allowed job) :
      Step allowed s (s.goto i ⟨job, (s.versions job.target).length, false, .openFile⟩ .openFile)
  | killed (s i c) (h : s.calls i = some c) (hlive : Live c.point) : Step allowed s (s.goto i c .killed)
  | opened (s i c file f) (h : s.At i c .openFile) (hname : s.disk.names c.job.target = some file)
      (hf : s.disk.files file = some (.regular f)) : Step allowed s (s.goto i c (.sizing file))
  | openInterrupted (s i c) (h : s.At i c .openFile) : Step allowed s s
  | openFails (s i c) (h : s.At i c .openFile) : Step allowed s (s.throws i c ("Unable to open file: " ++ c.job.filePath))
  | sized (s i c file f) (h : s.At i c (.sizing file)) (hf : s.disk.files file = some (.regular f))
      (hlimit : f.content.length ≤ kOffsetLimit) :
      Step allowed s (s.goto i c (.deciding ⟨file, f.content.length, []⟩))
  | sizeFails (s i c file) (h : s.At i c (.sizing file)) :
      Step allowed s (s.throws i c ("Unable to read file size: " ++ c.job.filePath))
  | reads (s i c r offset count) (h : s.At i c (.deciding r)) (hnext : c.job.next r.size r.parts = .read offset count) :
      Step allowed s (s.goto i c (.reading r offset count []))
  | finishes (s i c r result) (h : s.At i c (.deciding r))
      (hnext : c.job.next r.size r.parts = .decide (.finish result)) : Step allowed s (s.returns i c result)
  | replaces (s i c r bytes value) (h : s.At i c (.deciding r))
      (hnext : c.job.next r.size r.parts = .decide (.replace bytes value)) :
      Step allowed s (s.goto i c (.replacing r bytes value .start))
  | readDone (s i c r offset count done) (h : s.At i c (.reading r offset count done)) (hdone : count ≤ done.length) :
      Step allowed s (s.goto i c (.deciding { r with parts := r.parts ++ [(offset, done)] }))
  -- a position the system cannot express
  | readPast (s i c r offset count done) (h : s.At i c (.reading r offset count done)) (hmore : done.length < count)
      (hpast : kOffsetLimit < offset ∨ kOffsetLimit - offset < done.length) :
      Step allowed s (s.goto i c (.shortRead r offset count done.length))
  | readPart (s i c r offset count done got f) (h : s.At i c (.reading r offset count done)) (hmore : done.length < count)
      (hoffset : offset ≤ kOffsetLimit ∧ done.length ≤ kOffsetLimit - offset)
      (hf : s.disk.files r.file = some (.regular f)) (hpos : 0 < got) (hgot : got ≤ min (count - done.length) kChunkLimit)
      (hin : offset + done.length + got ≤ f.content.length) :
      Step allowed s (s.goto i c (.reading r offset count
        (done ++ (f.content.drop (offset + done.length)).take got)))
  | readEnd (s i c r offset count done f) (h : s.At i c (.reading r offset count done)) (hmore : done.length < count)
      (hoffset : offset ≤ kOffsetLimit ∧ done.length ≤ kOffsetLimit - offset)
      (hf : s.disk.files r.file = some (.regular f)) (hend : f.content.length ≤ offset + done.length) :
      Step allowed s (s.goto i c (.shortRead r offset count done.length))
  | readInterrupted (s i c r offset count done) (h : s.At i c (.reading r offset count done)) : Step allowed s s
  | readFails (s i c r offset count done) (h : s.At i c (.reading r offset count done)) (hmore : done.length < count) :
      Step allowed s (s.throws i c ("Unable to read file: " ++ c.job.filePath))
  | readThrown (s i c r offset expected got) (h : s.At i c (.shortRead r offset expected got)) :
      Step allowed s (s.throws i c ("Unable to read file: " ++ c.job.filePath))
  | writes (s i c r bytes value w d w') (h : s.At i c (.replacing r bytes value w))
      (hw : Write (c.job.replacement bytes) s.disk w d w') : Step allowed s (s.wrote i c r bytes value w d w')
  | replaced (s i c r bytes value w) (h : s.At i c (.replacing r bytes value w)) (hdone : w.point = .done (.ok ())) :
      Step allowed s (s.returns i { c with unlinkFailed := w.unlinkFailed } (.ok value))
  | replaceThrown (s i c r bytes value w text) (h : s.At i c (.replacing r bytes value w))
      (hdone : w.point = .done (.error text)) : Step allowed s (s.throws i { c with unlinkFailed := w.unlinkFailed } text)

end steps

def files {α : Type} (allowed : Job α → Prop) (d : Disk) : System (State α) := ⟨fun s => s = start d, Step allowed⟩

end TheSeed.SharedFiles
