import TheSeed.DependencyCredits

namespace TheSeed.DependencyReads

open DependencyLister DependencyRequest DependencyNeeds DependencyBounds DependencyOrder DependencyCredits MachOLayout
  Function Relation

/-! The files that one request reads, in order: what each function of the request reads, beside what it returns. -/

/-- The parser of Mach-O files reads the file again. -/
def readNodeReads (world : World) (key : Text) : List Text :=
  match world.readFileBytes key with
  | .error _ => [key]
  | .ok bytes => if isMachO bytes then [key, key] else [key]

def newFileNodeReads (world : World) (key : Text) (canonical : Bool) : List Text :=
  if canonical && world.regularFiles.contains key then readNodeReads world key else []

def fileNodeReads (world : World) (graph : DependencyGraph) (path : Text) (knownCanonical : Option Text) : List Text :=
  let canonical := if knownCanonical.isSome then knownCanonical else world.canonical path
  let key := canonical.getD path
  match graph.byKey key with
  | some _ => []
  | none => newFileNodeReads world key canonical.isSome

def resolveNameReads (world : World) (searchPaths : List Text) (graph : DependencyGraph) (name : Text)
    (ignoreCase : Bool) : List Text :=
  match graph.resolved ignoreCase name with
  | some _ => []
  | none =>
      let (graph, found) :=
        if escapesSearchFolders name then (graph, none) else findCandidate world name ignoreCase graph searchPaths
      match found with
      | some candidate => fileNodeReads world graph candidate none
      | none => []

def resolveNamesReads (world : World) (searchPaths : List Text) (ignoreCase : Bool) :
    DependencyGraph → List Text → List Text
  | _, [] => []
  | graph, name :: rest =>
      resolveNameReads world searchPaths graph name ignoreCase ++
        resolveNamesReads world searchPaths ignoreCase (resolveName world searchPaths graph name ignoreCase).1 rest

def expandReads (world : World) (searchPaths : List Text) (graph : DependencyGraph) (id : NodeId) : List Text :=
  match graph.nodes[id]? with
  | none => []
  | some node =>
      resolveNamesReads world searchPaths (node.format = .pe) (graph.modifyNode id fun node => { node with refs := [] })
        node.refs

def inputNodeReads (world : World) (graph : DependencyGraph) (input : Input) : List Text :=
  fileNodeReads world graph input.spelling (if input.canonical = [] then none else some input.canonical)

def inputNodesReads (world : World) : DependencyGraph → List Input → List Text
  | _, [] => []
  | graph, input :: rest => inputNodeReads world graph input ++ inputNodesReads world (inputNode world graph input).1 rest

def expandAllReads (world : World) (searchPaths : List Text) : Nat → DependencyGraph → NodeId → List Text
  | 0, _, _ => []
  | fuel + 1, graph, id =>
      match graph.nodes[id]? with
      | none => []
      | some node =>
          if node.status = .parsed ∧ node.expanded = false then
            expandReads world searchPaths graph id ++
              expandAllReads world searchPaths fuel (expand world searchPaths graph id) (id + 1)
          else expandAllReads world searchPaths fuel graph (id + 1)

/-- The searches from the inputs and the merge of the nodes read nothing. -/
def requestReads (world : World) (searchPaths binaryPaths : List Text) : List Text :=
  let inputs := normaliseInputs world binaryPaths
  let (graph, _, placed) := inputNodes world {} (fun _ => none) inputs
  inputNodesReads world {} inputs ++ expandAllReads world searchPaths (walkFuel world placed) graph 0

/-- The target is an input's file, or one that the input reaches. -/
def Comes (world : World) (searchPaths xs : List Text) (t : Target) : Prop :=
  ∃ s ∈ xs, ReflTransGen (Needs world searchPaths) (.file (fileKey world s)) t

/-- A regular file whose first bytes are those of a Mach-O file. -/
def IsMachOFile (world : World) (key : Text) : Prop :=
  (world.canonical key).isSome ∧ key ∈ world.regularFiles ∧
    ∃ bytes, world.readFileBytes key = .ok bytes ∧ isMachO bytes = true

/-- What was read for a node. -/
def nodeReads (world : World) (node : DependencyNode) : List Text :=
  match targetOf node with
  | .file key => newFileNodeReads world key (world.canonical key).isSome
  | .missing _ => []

def allReads (world : World) (graph : DependencyGraph) : List Text := graph.nodes.flatMap (nodeReads world)

section reads

variable {world : World} {searchPaths : List Text} {graph : DependencyGraph} {path key name : Text} {ignoreCase : Bool}
  {node : DependencyNode} {id : NodeId} {busy : Option NodeId}

theorem nodeReads_of_newNode (hs : Settled world) (path : Text) :
    nodeReads world (newFileNode world path (fileKey world path) (world.canonical path).isSome) =
      newFileNodeReads world (fileKey world path) (world.canonical path).isSome := by
  have hnew : NewNode world (.file (fileKey world path))
      (newFileNode world path (fileKey world path) (world.canonical path).isSome) := ⟨path, rfl, rfl⟩
  rw [nodeReads, hnew.targetOf]
  cases hcanonical : world.canonical path with
  | none => simp only [fileKey, hcanonical, Option.getD_none]
  | some other => simp only [fileKey, hcanonical, Option.getD_some, hs path other hcanonical, Option.isSome_some]

theorem allReads_insertNode (t : Target) :
    allReads world (insertNode graph t node) = allReads world graph ++ nodeReads world node := by
  rw [allReads, insertNode_nodes, List.flatMap_append, List.flatMap_singleton]
  rfl

theorem fileNode_reads (hs : Settled world) {known : Option Text}
    (hknown : ∀ key, known = some key → world.canonical path = some key) :
    allReads world (fileNode world graph path known).1 = allReads world graph ++ fileNodeReads world graph path known := by
  have hcanonical : (if known.isSome then known else world.canonical path) = world.canonical path := by
    cases known with
    | none => rfl
    | some key => rw [hknown key rfl]; rfl
  unfold fileNode fileNodeReads
  rw [hcanonical]
  cases hkey : graph.byKey (fileKey world path) with
  | some id =>
    have hindex : graph.byKey ((world.canonical path).getD path) = some id := hkey
    simp only [hindex, List.append_nil]
  | none =>
    have hindex : graph.byKey ((world.canonical path).getD path) = none := hkey
    simp only [hindex]
    have hinsert := @allReads_insertNode world graph
      (newFileNode world path (fileKey world path) (world.canonical path).isSome) (.file (fileKey world path))
    rw [nodeReads_of_newNode hs] at hinsert
    exact hinsert

theorem unresolvedNode_reads : allReads world (unresolvedNode graph name).1 = allReads world graph := by
  unfold unresolvedNode
  cases graph.byUnresolvedName name with
  | some id => rfl
  | none =>
    have hinsert := @allReads_insertNode world graph { key := name } (.missing name)
    rw [show nodeReads world { key := name } = [] from rfl, List.append_nil] at hinsert
    exact hinsert

theorem resolveName_reads (hs : Settled world) (hlisted : Listed world graph) :
    allReads world (resolveName world searchPaths graph name ignoreCase).1 =
      allReads world graph ++ resolveNameReads world searchPaths graph name ignoreCase := by
  unfold resolveName resolveNameReads
  cases graph.resolved ignoreCase name with
  | some id => simp only [List.append_nil]
  | none =>
    have hsearch : ∃ found listings, (if escapesSearchFolders name = true then (graph, none)
          else findCandidate world name ignoreCase graph searchPaths) =
        ({ graph with folderListings := listings }, found) := by
      split
      · exact ⟨none, graph.folderListings, rfl⟩
      · obtain ⟨-, listings, hgraph, -⟩ := @findCandidate_spec world name ignoreCase searchPaths graph hlisted
        exact ⟨_, listings, Prod.ext hgraph rfl⟩
    obtain ⟨found, listings, hstate⟩ := hsearch
    simp only [hstate]
    have hremember (after : DependencyGraph) (id : NodeId) :
        allReads world (after.remember ignoreCase name id) = allReads world after := by
      rw [allReads, remember_nodes]
      rfl
    rw [hremember]
    cases found with
    | some candidate =>
      exact @fileNode_reads world { graph with folderListings := listings } candidate hs none (by simp)
    | none =>
      simp only [List.append_nil]
      exact @unresolvedNode_reads world { graph with folderListings := listings } name

theorem resolveNames_reads (hs : Settled world) (names : List Text) : ∀ {graph : DependencyGraph},
    Represents world searchPaths busy graph →
    allReads world (resolveNames world searchPaths ignoreCase graph names).1 =
      allReads world graph ++ resolveNamesReads world searchPaths ignoreCase graph names := by
  induction names with
  | nil => exact fun _ => (List.append_nil _).symm
  | cons name rest ih =>
    intro graph h
    have hone := @resolveName_reads world searchPaths graph name ignoreCase hs h.listed
    have hrest := ih (resolveName_represents h name ignoreCase).1
    rw [resolveNamesReads, ← List.append_assoc, ← hone]
    exact hrest

theorem allReads_modifyNode {f : DependencyNode → DependencyNode} (hf : ∀ node, targetOf (f node) = targetOf node) :
    allReads world (graph.modifyNode id f) = allReads world graph := by
  have hsame (node : DependencyNode) : nodeReads world (f node) = nodeReads world node := by rw [nodeReads, hf, nodeReads]
  rw [allReads, allReads, List.flatMap_def, List.flatMap_def]
  congr 1
  refine List.ext_getElem? fun i => ?_
  rw [List.getElem?_map, List.getElem?_map, getElem?_modifyNode]
  split
  · cases graph.nodes[i]? <;> simp [hsame]
  · rfl

theorem expand_reads (hs : Settled world) (h : Represents world searchPaths none graph)
    (hnode : graph.nodes[id]? = some node) (hparsed : node.status = .parsed) (hfresh : node.expanded = false) :
    allReads world (expand world searchPaths graph id) =
      allReads world graph ++ expandReads world searchPaths graph id := by
  obtain ⟨-, after, ids, hexpands⟩ := expand_spec h hnode hparsed hfresh
  have hnames := @resolveNames_reads world searchPaths (node.format = .pe) (some id) hs node.refs _ hexpands.cleared
  rw [hexpands.resolve, allReads_modifyNode targetOf_clearRefs] at hnames
  rw [hexpands.expand, allReads_modifyNode (targetOf_setSuccessors ids), hnames, expandReads, hnode]
  rfl

theorem expandAll_reads (hs : Settled world) (fuel : Nat) : ∀ {graph last : DependencyGraph} {id : NodeId},
    Represents world searchPaths none graph → expandAll world searchPaths fuel graph id = some last →
    allReads world last = allReads world graph ++ expandAllReads world searchPaths fuel graph id := by
  induction fuel with
  | zero => exact fun _ hlast => nomatch hlast
  | succ fuel ih =>
    intro graph last id h hlast
    unfold expandAll at hlast
    unfold expandAllReads
    cases hnode : graph.nodes[id]? with
    | none =>
      rw [hnode] at hlast
      cases hlast
      exact (List.append_nil _).symm
    | some node =>
      rw [hnode] at hlast
      simp only at hlast ⊢
      split at hlast
      · next hopen =>
        have hone := expand_reads hs h hnode hopen.1 hopen.2
        have hrest := ih (expand_spec h hnode hopen.1 hopen.2).1 hlast
        rw [if_pos hopen, hrest, hone, List.append_assoc]
      · next hskip =>
        rw [if_neg hskip]
        exact ih h hlast

theorem inputNodes_reads (hs : Settled world) (spelled : List Text) : ∀ {graph : DependencyGraph}
    (errors : Text → Option String),
    allReads world (inputNodes world graph errors (spelled.map (inputOf world))).1 =
      allReads world graph ++ inputNodesReads world graph (spelled.map (inputOf world)) := by
  induction spelled with
  | nil => exact fun _ => (List.append_nil _).symm
  | cons spelling rest ih =>
    intro graph errors
    have hone : allReads world (inputNode world graph (inputOf world spelling)).1 =
        allReads world graph ++ inputNodeReads world graph (inputOf world spelling) :=
      fileNode_reads hs inputOf_known
    rw [List.map_cons, inputNodes_cons, inputNodesReads, ← List.append_assoc, ← hone]
    exact ih _

section distinct

variable {xs spelled : List Text} {start : DependencyGraph} {errors : Text → Option String} {inputs : List Input}

/-- What a request reads is what it reads for the nodes. -/
theorem requestReads_eq (hs : Settled world) (h : Collected world searchPaths xs spelled start graph errors inputs) :
    requestReads world searchPaths xs = allReads world graph := by
  have hinputs := @inputNodes_reads world hs spelled {} fun _ => none
  have hwalk := expandAll_reads hs (walkFuel world inputs) h.started h.walk
  have hempty : allReads world {} = [] := rfl
  rw [h.run, hempty, List.nil_append] at hinputs
  rw [requestReads, h.normal, h.run, hwalk, hinputs]

/-- The nodes stand for what comes with the inputs. -/
theorem comes_of_node (hs : Settled world) (h : Collected world searchPaths xs spelled start graph errors inputs) :
    Within (Comes world searchPaths xs) graph := by
  apply h.within
  · exact fun s hspelled => ⟨s, ((h.least s).mp hspelled).1, .refl⟩
  · rintro key node hnew ⟨s, hin, hsteps⟩ hparsed name hname
    obtain ⟨hstatus, hrefs, hformat, -⟩ := filed_of_newNode hs hnew
    refine ⟨s, hin, hsteps.tail ⟨hstatus.symm.trans hparsed, name, hrefs ▸ hname, ?_⟩⟩
    rw [hformat]

/-- What comes with the inputs has a node. -/
theorem node_of_comes (hs : Settled world) (h : Collected world searchPaths xs spelled start graph errors inputs)
    {t : Target} (ht : Comes world searchPaths xs t) : ∃ id, IsNode graph t id := by
  obtain ⟨path, hpath, hsteps⟩ := ht
  obtain ⟨s, hleast, hsame⟩ := @exists_least world xs path hpath
  obtain ⟨j, hj⟩ := List.mem_iff_getElem?.mp ((h.least s).mpr hleast)
  obtain ⟨input, -, hplaced⟩ := Checked.forall₂_getElem? h.placed hj
  have hnode := hplaced.node
  rw [(identity_canonical hsame).2] at hnode
  obtain ⟨id, -, hid⟩ := @reflTransGen_transfer _ _ _ (Succ graph) (fun a t => IsNode graph t a) _ _ _
    (fun a t u ht hstep => (node_edges hs h.represents h.done ht).2 u hstep) hnode hsteps
  exact ⟨id, hid⟩

theorem mem_nodeReads {x : Text} (h : x ∈ nodeReads world node) : targetOf node = .file x := by
  unfold nodeReads at h
  split at h
  · next key hkey =>
    rw [hkey]
    unfold newFileNodeReads readNodeReads at h
    split at h
    · split at h
      · rw [List.mem_singleton.mp h]
      · split at h
        · simp only [List.mem_cons, List.not_mem_nil, or_false, or_self] at h
          rw [h]
        · rw [List.mem_singleton.mp h]
    · cases h
  · cases h

/-- One node is read twice only for a Mach-O file. -/
theorem nodup_nodeReads : (nodeReads world node).Nodup ↔ ∀ key, targetOf node = .file key → ¬ IsMachOFile world key := by
  unfold nodeReads
  cases htarget : targetOf node with
  | missing name => simp
  | file key =>
    simp only [Target.file.injEq, forall_eq']
    unfold newFileNodeReads readNodeReads IsMachOFile
    by_cases hread : ((world.canonical key).isSome && world.regularFiles.contains key) = true
    · rw [if_pos hread]
      rw [Bool.and_eq_true, List.contains_iff_mem] at hread
      cases hbytes : world.readFileBytes key with
      | error what => simp
      | ok bytes =>
        by_cases hmacho : isMachO bytes = true
        · simp [hmacho, hread]
        · simp [hmacho]
    · rw [if_neg hread]
      simp only [Bool.and_eq_true, List.contains_iff_mem] at hread
      simp only [List.nodup_nil, true_iff]
      exact fun h => hread ⟨h.1, h.2.1⟩

/-- Two nodes do not stand for one file. -/
theorem nodup_allReads (h : Represents world searchPaths none graph) :
    (allReads world graph).Nodup ↔ ∀ node ∈ graph.nodes, (nodeReads world node).Nodup := by
  rw [allReads, List.nodup_flatMap, and_iff_left_iff_imp]
  intro _
  rw [List.pairwise_iff_getElem]
  intro i j hi hj hlt x hx hx'
  have hfirst : IsNode graph (.file x) i := by rw [IsNode, List.getElem?_eq_getElem hi, Option.map_some, mem_nodeReads hx]
  have hsecond : IsNode graph (.file x) j := by rw [IsNode, List.getElem?_eq_getElem hj, Option.map_some, mem_nodeReads hx']
  exact hlt.ne (IsNode.unique h hfirst hsecond)

end distinct

end reads

/-- No file is read twice if and only if no Mach-O file comes with the inputs. -/
theorem each_file_read_once_iff {world : World} (hs : Settled world) (searchPaths xs : List Text) :
    (requestReads world searchPaths xs).Nodup ↔
      ∀ key, Comes world searchPaths xs (.file key) → ¬ IsMachOFile world key := by
  obtain ⟨spelled, start, graph, errors, inputs, h⟩ := exists_collected world searchPaths xs
  rw [requestReads_eq hs h, nodup_allReads h.represents]
  simp only [nodup_nodeReads]
  constructor
  · intro hnodes key hcomes
    obtain ⟨id, hid⟩ := node_of_comes hs h hcomes
    obtain ⟨node, hnode, htarget⟩ := Option.map_eq_some_iff.mp hid
    exact hnodes node (List.mem_of_getElem? hnode) key htarget
  · intro hcomes node hnode key htarget
    apply hcomes key
    obtain ⟨id, hid⟩ := List.mem_iff_getElem?.mp hnode
    apply comes_of_node hs h (.file key) id
    rw [IsNode, hid, Option.map_some, htarget]

theorem each_file_read_once_spellings :
    (requestReads twoSpellings [] [bytesOf "x/../a", bytesOf "/a"]).Nodup := by
  have hsettled : Settled twoSpellings := fun path key hkey => by
    cases hkey
    rfl
  apply (each_file_read_once_iff hsettled [] _).mpr
  rintro key - ⟨-, -, bytes, hbytes, hmacho⟩
  cases hbytes
  exact absurd hmacho (by decide)

/-- One Mach-O program. -/
def oneMachO : World where
  canonical path := some path
  regularFiles := [bytesOf "/a"]
  entryExists _ := true
  isDirectory _ := false
  entryNames _ := []
  readFileBytes _ := .ok [0xCF, 0xFA, 0xED, 0xFE]
  elfNames _ := .ok []
  peNames _ := .ok []
  machONames _ := .ok []

theorem oneMachO_read_twice : Settled oneMachO ∧ requestReads oneMachO [] [bytesOf "/a"] = [bytesOf "/a", bytesOf "/a"] ∧
    ¬ (requestReads oneMachO [] [bytesOf "/a"]).Nodup := by
  have hreads : requestReads oneMachO [] [bytesOf "/a"] = [bytesOf "/a", bytesOf "/a"] := by decide +kernel
  refine ⟨fun path key hkey => by cases hkey; rfl, hreads, ?_⟩
  rw [hreads]
  simp

end TheSeed.DependencyReads
