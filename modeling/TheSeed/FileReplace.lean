import Mathlib.Data.List.Basic
import Mathlib.Logic.Function.Basic
import TheSeed.Library.Transition

namespace TheSeed.FileReplace

open TheSeed.Transition

/-! Replacing a file (the POSIX branch), as the steps between two system calls. -/

structure Path where
  folder : String
  name : String
deriving DecidableEq

/-- A regular file; the mode is the twelve permission bits. -/
structure File where
  content : List UInt8
  mode : BitVec 12
  uid : Nat
  gid : Nat
deriving DecidableEq

inductive Entry
  | regular (file : File)
  | directory
  | symlink (dest : String)
  | special
deriving DecidableEq

abbrev FileSystem := Path → Option Entry

inductive FileType
  | not_found
  | regular
  | directory
  | symlink
  | special
deriving DecidableEq

def typeOf : Option Entry → FileType
  | none => .not_found
  | some (.regular _) => .regular
  | some .directory => .directory
  | some (.symlink _) => .symlink
  | some .special => .special

structure Stat where
  st_mode : BitVec 32
  st_uid : Nat
  st_gid : Nat
deriving DecidableEq

def S_IFREG : BitVec 32 := 0o100000#32

def File.stat (f : File) : Stat := ⟨S_IFREG ||| f.mode.setWidth 32, f.uid, f.gid⟩

def EINTR : Nat := 4
def EEXIST : Nat := 17
def ENOSPC : Nat := 28

def kMaxNameAttempts : Nat := 100

/-- One call of `WriteFileBytes`, with what its process supplies. `target` is the path that
`canonical` gives for `filePath`. -/
structure Call where
  filePath : String
  target : Path
  bytes : List UInt8
  processId : String
  strerror : Nat → String
  /-- the groups that the process is in, all of them for a privileged one -/
  inGroup : Nat → Bool

def workingName (c : Call) (randomSuffix : String) : Path :=
  ⟨c.target.folder, "." ++ c.target.name ++ ".seedtmp." ++ c.processId ++ "." ++ randomSuffix⟩

def failText (c : Call) (what : String) (code : Nat) : String :=
  what ++ " " ++ c.filePath ++ ": " ++ c.strerror code

def canonicalText (c : Call) (linkStatus : FileType) (message : String) : String :=
  if linkStatus = .symlink then
    "Unable to replace " ++ c.filePath ++ ": dangling link, the file it points to does not exist"
  else
    "Unable to replace " ++ c.filePath ++ ": the file does not exist (" ++ message ++ ")"

/-- What the status of the resolved path is refused for. -/
def statusText (c : Call) : FileType → Option String
  | .not_found => some ("Unable to replace " ++ c.filePath ++ ": the file does not exist")
  | .directory =>
      some ("Unable to replace " ++ c.filePath ++ ": it is a folder (directory), not a regular file")
  | .regular => none
  | .symlink | .special =>
      some ("Unable to replace " ++ c.filePath ++
        ": not a regular file (special file such as a fifo, pipe or device)")

def readOnlyText (c : Call) : String :=
  "Unable to replace " ++ c.filePath ++
    ": the file is read-only (no write permission); make it writable with chmod and try again"

def readOnlyFolderText (c : Call) : String :=
  "Unable to replace " ++ c.filePath ++ ": the folder " ++ c.target.folder ++
    " is read-only (no write permission to the directory)"

/-- The owner of the working file. A descriptor is the path of the file it is open on. -/
structure WorkingFile where
  path : Path
  fd : Option Path
  created : Bool
  committed : Bool
deriving DecidableEq

def WorkingFile.empty : WorkingFile := ⟨⟨"", ""⟩, none, false, false⟩

def WorkingFile.opened (_ : WorkingFile) (name : Path) : WorkingFile := ⟨name, some name, true, false⟩

def WorkingFile.commit (w : WorkingFile) : WorkingFile := { w with committed := true }

def WorkingFile.close (w : WorkingFile) : WorkingFile := { w with fd := none }

abbrev Result := Except String Unit

/-- The next call the process makes. The two last calls before `done` are those of `~WorkingFile`,
which runs on the way out with the result of the body. -/
inductive Point
  | symlinkStatus
  | canonical (linkStatus : FileType)
  | status
  | stat
  | accessTarget (info : Stat)
  | accessFolder (info : Stat)
  | openWorking (info : Stat) (attempt : Nat)
  | write (info : Stat) (offset : Nat)
  | fchown (info : Stat)
  | fchmod (info : Stat)
  | fsync
  | close
  | rename
  | fsyncFolder
  | destroyClose (result : Result)
  | destroyUnlink (result : Result)
  | done (result : Result)

structure State where
  fs : FileSystem
  working : WorkingFile
  point : Point
  unlinkFailed : Bool

def State.goto (s : State) (p : Point) : State := { s with point := p }

/-- An exception before the working file is declared. -/
def State.throw (s : State) (e : String) : State := s.goto (.done (.error e))

/-- An exception that unwinds through `~WorkingFile`. -/
def State.unwind (s : State) (e : String) : State := s.goto (.destroyClose (.error e))

def put (fs : FileSystem) (p : Path) (f : File) : FileSystem :=
  Function.update fs p (some (.regular f))

def remove (fs : FileSystem) (p : Path) : FileSystem := Function.update fs p none

/-- `rename` takes effect as a whole. -/
def renamed (fs : FileSystem) (old new : Path) : FileSystem :=
  remove (Function.update fs new (fs old)) old

def kPermissionBits : BitVec 32 := 0o7777#32

/-- `fchown` takes the set-user and set-group bits away. -/
def File.chown (f : File) (uid gid : Nat) : File :=
  { f with mode := f.mode &&& 0o1777#12, uid := uid, gid := gid }

def S_ISGID : BitVec 12 := 0o2000#12

/-- `fchmod` takes the set-group bit away when the process is not in the group of the file. -/
def File.chmod (f : File) (mode : BitVec 32) (inGroup : Nat → Bool) : File :=
  { f with mode := if inGroup f.gid then mode.setWidth 12 else mode.setWidth 12 &&& ~~~S_ISGID }

def File.append (f : File) (data : List UInt8) : File := { f with content := f.content ++ data }

/-- Every behaviour of every system call between two states of the process. -/
inductive Step (c : Call) : State → State → Prop
  | symlinkStatus (s kind) (h : s.point = .symlinkStatus) : Step c s (s.goto (.canonical kind))
  | canonical (s kind) (h : s.point = .canonical kind) : Step c s (s.goto .status)
  | canonicalFails (s kind message) (h : s.point = .canonical kind) :
      Step c s (s.throw (canonicalText c kind message))
  | status (s) (h : s.point = .status) (hk : statusText c (typeOf (s.fs c.target)) = none) :
      Step c s (s.goto .stat)
  | statusRefused (s text) (h : s.point = .status)
      (hk : statusText c (typeOf (s.fs c.target)) = some text) : Step c s (s.throw text)
  | statusFails (s text) (h : s.point = .status) (hk : statusText c .not_found = some text) :
      Step c s (s.throw text)
  | stat (s f) (h : s.point = .stat) (hf : s.fs c.target = some (.regular f)) :
      Step c s (s.goto (.accessTarget f.stat))
  | statFails (s code) (h : s.point = .stat) :
      Step c s (s.throw (failText c "Unable to read the status of" code))
  | accessTarget (s info) (h : s.point = .accessTarget info) : Step c s (s.goto (.accessFolder info))
  | accessTargetFails (s info) (h : s.point = .accessTarget info) :
      Step c s (s.throw (readOnlyText c))
  | accessFolder (s info) (h : s.point = .accessFolder info) :
      Step c s (s.goto (.openWorking info 0))
  | accessFolderFails (s info) (h : s.point = .accessFolder info) :
      Step c s (s.throw (readOnlyFolderText c))
  | openExhausted (s info attempt) (h : s.point = .openWorking info attempt)
      (hmax : kMaxNameAttempts ≤ attempt) :
      Step c s (s.unwind (failText c "Unable to create a working file for" EEXIST))
  -- O_CREAT | O_EXCL: a name that is taken is never opened
  | opened (s info attempt suffix uid gid) (h : s.point = .openWorking info attempt)
      (hmax : attempt < kMaxNameAttempts) (hnew : s.fs (workingName c suffix) = none) :
      Step c s { s with
        fs := put s.fs (workingName c suffix) ⟨[], 0, uid, gid⟩
        working := s.working.opened (workingName c suffix)
        point := .write info 0 }
  | openExists (s info attempt) (h : s.point = .openWorking info attempt)
      (hmax : attempt < kMaxNameAttempts) : Step c s (s.goto (.openWorking info (attempt + 1)))
  | openFails (s info attempt code) (h : s.point = .openWorking info attempt)
      (hmax : attempt < kMaxNameAttempts) (hcode : code ≠ EEXIST) :
      Step c s (s.unwind (failText c "Unable to create a working file for" code))
  | writeDone (s info offset) (h : s.point = .write info offset) (hdone : c.bytes.length ≤ offset) :
      Step c s (s.goto (.fchown info))
  | written (s info offset n fd f) (h : s.point = .write info offset)
      (hmore : offset < c.bytes.length) (hfd : s.working.fd = some fd)
      (hf : s.fs fd = some (.regular f)) (hpos : 0 < n) (hle : n ≤ c.bytes.length - offset) :
      Step c s { s with
        fs := put s.fs fd (f.append ((c.bytes.drop offset).take n))
        point := .write info (offset + n) }
  | writeZero (s info offset) (h : s.point = .write info offset) (hmore : offset < c.bytes.length) :
      Step c s (s.unwind (failText c "Unable to write" ENOSPC))
  | writeInterrupted (s info offset) (h : s.point = .write info offset)
      (hmore : offset < c.bytes.length) : Step c s s
  | writeFails (s info offset code) (h : s.point = .write info offset)
      (hmore : offset < c.bytes.length) (hcode : code ≠ EINTR) :
      Step c s (s.unwind (failText c "Unable to write" code))
  | fchown (s info fd f) (h : s.point = .fchown info) (hfd : s.working.fd = some fd)
      (hf : s.fs fd = some (.regular f)) :
      Step c s { s with
        fs := put s.fs fd (f.chown info.st_uid info.st_gid)
        point := .fchmod info }
  | fchownFails (s info) (h : s.point = .fchown info) : Step c s (s.goto (.fchmod info))
  | fchmod (s info fd f) (h : s.point = .fchmod info) (hfd : s.working.fd = some fd)
      (hf : s.fs fd = some (.regular f)) :
      Step c s { s with
        fs := put s.fs fd (f.chmod (info.st_mode &&& kPermissionBits) c.inGroup)
        point := .fsync }
  | fchmodFails (s info code) (h : s.point = .fchmod info) :
      Step c s (s.unwind
        (failText c "Unable to set the permissions (chmod) of the working file for" code))
  | fsync (s) (h : s.point = .fsync) : Step c s (s.goto .close)
  | fsyncFails (s code) (h : s.point = .fsync) :
      Step c s (s.unwind (failText c "Unable to flush (sync)" code))
  | close (s) (h : s.point = .close) :
      Step c s { s with working := s.working.close, point := .rename }
  | closeFails (s code) (h : s.point = .close) :
      Step c s { s with
        working := s.working.close
        point := .destroyClose
          (.error (failText c "Unable to flush (close the working file for)" code)) }
  | rename (s) (h : s.point = .rename) (hfrom : s.fs s.working.path ≠ none) :
      Step c s { s with
        fs := renamed s.fs s.working.path c.target
        working := s.working.commit
        point := .fsyncFolder }
  | renameFails (s code) (h : s.point = .rename) :
      Step c s (s.unwind (failText c "Unable to rename the working file over (replace)" code))
  | fsyncFolder (s) (h : s.point = .fsyncFolder) : Step c s (s.goto (.destroyClose (.ok ())))
  | destroyClose (s result) (h : s.point = .destroyClose result) :
      Step c s { s with working := s.working.close, point := .destroyUnlink result }
  | destroyKeep (s result) (h : s.point = .destroyUnlink result)
      (hkeep : (s.working.created && !s.working.committed) = false) :
      Step c s (s.goto (.done result))
  | destroyUnlink (s result) (h : s.point = .destroyUnlink result)
      (hdrop : (s.working.created && !s.working.committed) = true) :
      Step c s { s with fs := remove s.fs s.working.path, point := .done result }
  | destroyUnlinkFails (s result) (h : s.point = .destroyUnlink result)
      (hdrop : (s.working.created && !s.working.committed) = true) :
      Step c s { s with unlinkFailed := true, point := .done result }

def start (fs : FileSystem) : State := ⟨fs, .empty, .symlinkStatus, false⟩

def writeFileBytes (c : Call) (fs : FileSystem) : System State := ⟨fun s => s = start fs, Step c⟩

end TheSeed.FileReplace
