import TheSeed.DependencyLister
import TheSeed.Library.ByteOrder

namespace TheSeed.DependencyRequest

open DependencyLister MachOLayout ByteOrder Function

/-! One request: the inputs, the walk over the files, and the inputs that need each file. -/

/-- A program that the request names. -/
structure Input where
  spelling : Text
  /-- empty when the path cannot be resolved -/
  canonical : Text := []
  node : NodeId := 0
  deriving DecidableEq

def identity (world : World) (path : Text) : Text :=
  match world.canonical path with
  | none => bytesOf "raw:" ++ path
  | some canonical => bytesOf "file:" ++ canonical

/-- The inputs by identity. The map's own order is not kept, since a sort by spelling follows. -/
def noteInput (world : World) (byIdentity : List (Text × Input)) (path : Text) : List (Text × Input) :=
  match byIdentity.find? fun entry => entry.1 = identity world path with
  | none => byIdentity ++ [(identity world path, { spelling := path, canonical := (world.canonical path).getD [] })]
  | some _ =>
      byIdentity.map fun entry =>
        if entry.1 = identity world path ∧ path < entry.2.spelling then (entry.1, { entry.2 with spelling := path })
        else entry

def normaliseInputs (world : World) (binaryPaths : List Text) : List Input :=
  SortedBy.sortBy Input.spelling ((binaryPaths.foldl (noteInput world) []).map Prod.snd)

structure LibraryError where
  reason : String := ""
  inputs : List Text := []
  deriving DecidableEq

structure DependencyResult where
  dependencies : Text → Option (List Text) := fun _ => none
  errors : Text → Option String := fun _ => none
  libraryErrors : Text → Option LibraryError := fun _ => none

/-- The node of an input, whose canonical path is known when it has one. -/
def inputNode (world : World) (graph : DependencyGraph) (input : Input) : DependencyGraph × NodeId :=
  fileNode world graph input.spelling (if input.canonical = [] then none else some input.canonical)

/-- An input whose file cannot be read is an error. -/
def noteError (graph : DependencyGraph) (errors : Text → Option String) (spelling : Text) (id : NodeId) :
    Text → Option String :=
  match graph.nodes[id]? with
  | some node => if node.status = .unreadable then update errors spelling (some node.reason) else errors
  | none => errors

/-- The nodes of the inputs, and the reasons of those that cannot be read. -/
def inputNodes (world : World) : DependencyGraph → (Text → Option String) → List Input →
    DependencyGraph × (Text → Option String) × List Input
  | graph, errors, [] => (graph, errors, [])
  | graph, errors, input :: rest =>
      let (graph, id) := inputNode world graph input
      let (graph, errors, inputs) := inputNodes world graph (noteError graph errors input.spelling id) rest
      (graph, errors, { input with node := id } :: inputs)

/-- The walk over the nodes by index. Nodes are appended while it runs. -/
def expandAll (world : World) (searchPaths : List Text) : Nat → DependencyGraph → NodeId → Option DependencyGraph
  | 0, _, _ => none
  | fuel + 1, graph, id =>
      match graph.nodes[id]? with
      | none => some graph
      | some node =>
          if node.status = .parsed ∧ node.expanded = false then
            expandAll world searchPaths fuel (expand world searchPaths graph id) (id + 1)
          else expandAll world searchPaths fuel graph (id + 1)

/-- The marks and the credits, which the searches from all the inputs share. -/
structure Credits where
  seen : NodeId → Nat := fun _ => 0
  credits : NodeId → List Nat := fun _ => []

/-- The nodes without the stamp get it and join the queue. -/
def enqueue (stamp : Nat) : (NodeId → Nat) → List NodeId → List NodeId → (NodeId → Nat) × List NodeId
  | seen, queue, [] => (seen, queue)
  | seen, queue, next :: rest =>
      if seen next ≠ stamp then enqueue stamp (update seen next stamp) (queue ++ [next]) rest
      else enqueue stamp seen queue rest

def successorsOf (graph : DependencyGraph) (id : NodeId) : List NodeId :=
  ((graph.nodes[id]?).map DependencyNode.successors).getD []

def creditLoop (graph : DependencyGraph) (index stamp : Nat) : Nat → Credits → List NodeId → Nat → Option Credits
  | 0, _, _, _ => none
  | fuel + 1, state, queue, head =>
      match queue[head]? with
      | none => some state
      | some current =>
          let credits := update state.credits current (state.credits current ++ [index])
          let (seen, queue) := enqueue stamp state.seen queue (successorsOf graph current)
          creditLoop graph index stamp fuel ⟨seen, credits⟩ queue (head + 1)

/-- The search from one input. The index and the stamp have 32 bits. -/
def creditInput (graph : DependencyGraph) (state : Credits) (input : Input) (index : Nat) : Option Credits :=
  let stamp := (index + 1) % 2 ^ 32
  let (seen, queue) := enqueue stamp state.seen [] (successorsOf graph input.node)
  creditLoop graph (index % 2 ^ 32) stamp (graph.nodes.length + 1) { state with seen } queue 0

def creditAll (graph : DependencyGraph) : Credits → List Input → Nat → Option Credits
  | state, [], _ => some state
  | state, input :: rest, index => do
      let state ← creditInput graph state input index
      creditAll graph state rest (index + 1)

/-- The spellings that the credits stand for. -/
def spellings (inputs : List Input) (credits : List Nat) : List Text :=
  credits.filterMap fun index => inputs[index]?.map Input.spelling

/-- The reason of a library, which begins with its path. -/
def libraryReason (node : DependencyNode) : String :=
  let leading := shownName node.key ++ ": "
  if leading.toList <+: node.reason.toList then node.reason else leading ++ node.reason

/-- The result with one node more. Only a key that two nodes share needs a second sort. -/
def mergeNode (inputs : List Input) (result : DependencyResult) (node : DependencyNode) (credits : List Nat) :
    DependencyResult :=
  if credits = [] then result
  else
    let before := (result.dependencies node.key).getD []
    let listed := before ++ spellings inputs credits
    let report := (result.libraryErrors node.key).getD {}
    let libraryErrors :=
      if node.status = .unreadable then
        update result.libraryErrors node.key (some
          { reason := if report.reason = "" then libraryReason node else report.reason
            inputs := report.inputs ++ spellings inputs credits })
      else result.libraryErrors
    { result with
      dependencies := update result.dependencies node.key (some (if before ≠ [] then sortUnique listed else listed))
      libraryErrors }

def mergeNodes (inputs : List Input) (credits : NodeId → List Nat) :
    DependencyResult → List DependencyNode → NodeId → DependencyResult
  | result, [], _ => result
  | result, node :: rest, id => mergeNodes inputs credits (mergeNode inputs result node (credits id)) rest (id + 1)

/-- No more steps than the walk can take: a node for each input and for each name in a file. -/
def walkFuel (world : World) (inputs : List Input) : Nat :=
  inputs.length + (world.regularFiles.map fun key => (readNode world key).refs.length).sum + 1

def listDependencies (world : World) (searchPaths binaryPaths : List Text) : Option DependencyResult := do
  let inputs := normaliseInputs world binaryPaths
  let (graph, errors, inputs) := inputNodes world {} (fun _ => none) inputs
  let graph ← expandAll world searchPaths (walkFuel world inputs) graph 0
  let state ← creditAll graph {} inputs 0
  let result := mergeNodes inputs state.credits { errors } graph.nodes 0
  return { result with
    libraryErrors := fun key => (result.libraryErrors key).map fun report =>
      { report with inputs := sortUnique report.inputs } }

end TheSeed.DependencyRequest
