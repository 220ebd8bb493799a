import Mathlib.Logic.Function.Basic
import TheSeed.MachOLayout

namespace TheSeed.DependencyLister

open Bytes BoundedBytes MachOLayout Function

/-! Which programs need which libraries, directly or through other libraries. -/

/-- A path or a name, as its bytes. -/
abbrev Text := List UInt8

abbrev NodeId := Nat

inductive NodeStatus
  | unresolved
  | parsed
  | unreadable
  deriving DecidableEq, Repr

inductive NodeFormat
  | none
  | elf
  | pe
  | machO
  deriving DecidableEq, Repr

/-- One file, or one name that was not found. -/
structure DependencyNode where
  status : NodeStatus := .unresolved
  key : Text
  reason : String := ""
  format : NodeFormat := .none
  refs : List Text := []
  successors : List NodeId := []
  expanded : Bool := false
  deriving DecidableEq

structure DependencyGraph where
  nodes : List DependencyNode := []
  byKey : Text → Option NodeId := fun _ => none
  byUnresolvedName : Text → Option NodeId := fun _ => none
  folderListings : Text → Option (Text → Option (List Text)) := fun _ => none
  resolvedExact : Text → Option NodeId := fun _ => none
  resolvedIgnoringCase : Text → Option NodeId := fun _ => none

/-- What the file system answers during one request, and what the parsers say of the bytes. -/
structure World where
  canonical : Text → Option Text
  regularFiles : List Text
  entryExists : Text → Bool
  isDirectory : Text → Bool
  entryNames : Text → List Text
  readFileBytes : Text → Outcome (List UInt8)
  elfNames : List UInt8 → Outcome (List Text)
  peNames : List UInt8 → Outcome (List Text)
  /-- reads the file itself -/
  machONames : Text → Outcome (List Text)

def lowerAscii (text : Text) : Text :=
  text.map fun c => if 0x41 ≤ c ∧ c ≤ 0x5A then c - 0x41 + 0x61 else c

/-- A universal file has its magic in common with Java class files, so that its slice count decides. -/
def isMachO (bytes : List UInt8) : Bool :=
  let magic := beValue (slice bytes 0 4)
  if bytes.length < 4 then false
  else if magic = 0xFEEDFACE ∨ magic = 0xCEFAEDFE ∨ magic = 0xFEEDFACF ∨ magic = 0xCFFAEDFE then true
  else if magic = 0xCAFEBABE ∨ magic = 0xBEBAFECA then
    let count := if magic = 0xCAFEBABE then beValue (slice bytes 4 4) else leValue (slice bytes 4 4)
    decide (8 ≤ bytes.length) && decide (count ≤ 30)
  else false

def elfMagic : List UInt8 := [0x7F, 0x45, 0x4C, 0x46]

/-- The format, and the names that the file records. -/
def parseBytes (world : World) (bytes : List UInt8) : Outcome (NodeFormat × List Text) :=
  if bytes.length < 2 then .error "File is too small to determine binary format"
  else if slice bytes 0 4 = elfMagic then (world.elfNames bytes).map fun refs => (.elf, refs)
  else if slice bytes 0 2 = bytesOf "MZ" then (world.peNames bytes).map fun refs => (.pe, refs)
  else .error "Unsupported binary format"

/-- A recorded name that could lead outside the search folders. -/
def escapesSearchFolders (name : Text) : Bool :=
  name = [] ∨ name = bytesOf "." ∨ name = bytesOf ".." ∨ 0x2F ∈ name ∨ 0x5C ∈ name ∨ 0 ∈ name ∨
    name[1]? = some 0x3A

namespace DependencyGraph

/-- The graph with one more node, which has the number `graph.nodes.length`. -/
def push (graph : DependencyGraph) (node : DependencyNode) : DependencyGraph :=
  { graph with nodes := graph.nodes ++ [node] }

end DependencyGraph

def unresolvedNode (graph : DependencyGraph) (name : Text) : DependencyGraph × NodeId :=
  match graph.byUnresolvedName name with
  | some id => (graph, id)
  | none =>
      let id := graph.nodes.length
      ({ graph.push { key := name } with byUnresolvedName := update graph.byUnresolvedName name (some id) }, id)

/-- The node of a file that is a regular one. -/
def readNode (world : World) (key : Text) : DependencyNode :=
  match world.readFileBytes key with
  | .error what => { key, status := .unreadable, reason := what }
  | .ok bytes =>
      if isMachO bytes then
        match world.machONames key with
        | .error what => { key, status := .unreadable, format := .machO, reason := what }
        | .ok refs => { key, status := .parsed, format := .machO, refs }
      else
        match parseBytes world bytes with
        | .error what => { key, status := .unreadable, reason := what }
        | .ok (format, refs) => { key, status := .parsed, format, refs }

/-- The node of the file at `path`, whose canonical path is `key` when there is one. -/
def newFileNode (world : World) (path key : Text) (canonical : Bool) : DependencyNode :=
  if canonical && world.regularFiles.contains key then readNode world key
  else
    let reason :=
      if world.entryExists path then shownName key ++ ": not a readable regular file"
      else "Unable to open file: " ++ shownName path
    { key, status := .unreadable, reason }

/-- The node of a file, created, read and parsed on first use. -/
def fileNode (world : World) (graph : DependencyGraph) (path : Text) (knownCanonical : Option Text) :
    DependencyGraph × NodeId :=
  let canonical := if knownCanonical.isSome then knownCanonical else world.canonical path
  let key := canonical.getD path
  match graph.byKey key with
  | some id => (graph, id)
  | none =>
      let id := graph.nodes.length
      ({ graph.push (newFileNode world path key canonical.isSome) with byKey := update graph.byKey key (some id) }, id)

/-- The lists of the entries of a folder that are the same but for the case of letters. -/
def listingOf (entries : List Text) (lower : Text) : Option (List Text) :=
  let found := entries.filter fun real => lowerAscii real = lower
  if found = [] then none else some (found.mergeSort fun a b => a ≤ b)

def folderMatches (world : World) (graph : DependencyGraph) (folder name : Text) :
    DependencyGraph × Option (List Text) :=
  match graph.folderListings folder with
  | some listing => (graph, listing (lowerAscii name))
  | none =>
      let listing := listingOf (world.entryNames folder)
      ({ graph with folderListings := update graph.folderListings folder (some listing) }, listing (lowerAscii name))

/-- `folder / name` of a folder that is not empty and a name without separators. -/
def join (folder name : Text) : Text :=
  if folder.getLast? = some 0x2F then folder ++ name else folder ++ [0x2F] ++ name

/-- The path of the first folder that holds the name. -/
def findCandidate (world : World) (name : Text) (ignoreCase : Bool) :
    DependencyGraph → List Text → DependencyGraph × Option Text
  | graph, [] => (graph, none)
  | graph, folder :: rest =>
      let candidate := join folder name
      if folder = [] ∨ world.isDirectory folder = false then findCandidate world name ignoreCase graph rest
      else if ignoreCase then
        -- the spelling that the folder holds
        match folderMatches world graph folder name with
        | (graph, some found) => (graph, some (join folder (if found.contains name then name else found.headD [])))
        | (graph, none) =>
            if world.entryExists candidate then (graph, some candidate)
            else findCandidate world name ignoreCase graph rest
      else if world.entryExists candidate then (graph, some candidate)
      else findCandidate world name ignoreCase graph rest

def DependencyGraph.resolved (graph : DependencyGraph) (ignoreCase : Bool) : Text → Option NodeId :=
  if ignoreCase then graph.resolvedIgnoringCase else graph.resolvedExact

def DependencyGraph.remember (graph : DependencyGraph) (ignoreCase : Bool) (name : Text) (id : NodeId) :
    DependencyGraph :=
  if ignoreCase then { graph with resolvedIgnoringCase := update graph.resolvedIgnoringCase name (some id) }
  else { graph with resolvedExact := update graph.resolvedExact name (some id) }

/-- The node that a recorded name stands for. -/
def resolveName (world : World) (searchPaths : List Text) (graph : DependencyGraph) (name : Text) (ignoreCase : Bool) :
    DependencyGraph × NodeId :=
  match graph.resolved ignoreCase name with
  | some id => (graph, id)
  | none =>
      let (graph, found) :=
        if escapesSearchFolders name then (graph, none) else findCandidate world name ignoreCase graph searchPaths
      let (graph, id) :=
        match found with
        | some candidate => fileNode world graph candidate none
        | none => unresolvedNode graph name
      (graph.remember ignoreCase name id, id)

/-- The nodes of several names, one after the other. -/
def resolveNames (world : World) (searchPaths : List Text) (ignoreCase : Bool) :
    DependencyGraph → List Text → DependencyGraph × List NodeId
  | graph, [] => (graph, [])
  | graph, name :: rest =>
      let (graph, id) := resolveName world searchPaths graph name ignoreCase
      let (graph, ids) := resolveNames world searchPaths ignoreCase graph rest
      (graph, id :: ids)

def DependencyGraph.modifyNode (graph : DependencyGraph) (id : NodeId) (f : DependencyNode → DependencyNode) :
    DependencyGraph :=
  { graph with nodes := graph.nodes.modify id f }

def expand (world : World) (searchPaths : List Text) (graph : DependencyGraph) (id : NodeId) : DependencyGraph :=
  match graph.nodes[id]? with
  | none => graph
  | some node =>
      let graph := graph.modifyNode id fun node => { node with refs := [] }
      let (graph, successors) := resolveNames world searchPaths (node.format = .pe) graph node.refs
      graph.modifyNode id fun node => { node with successors, expanded := true }

end TheSeed.DependencyLister
