import TheSeed.DependencySearch

namespace TheSeed.DependencyOrder

open Bytes BoundedBytes DependencyLister DependencyRequest DependencyNeeds DependencyBounds DependencySearch MachOLayout
  Function ByteOrder

/-! The order and the repetition of the inputs do not matter: each file has its least spelling, and these are sorted. -/

section normal

variable {world : World} {xs ys seen : List Text} {entries : List (Text × Input)} {path other s : Text}

/-- The least of the spellings of its file. -/
def Least (world : World) (xs : List Text) (s : Text) : Prop :=
  s ∈ xs ∧ ∀ other ∈ xs, identity world other = identity world s → s ≤ other

/-- An identity says whether the path was resolved, and to what. -/
theorem identity_canonical (h : identity world path = identity world other) :
    world.canonical path = world.canonical other ∧ fileKey world path = fileKey world other := by
  have hraw : bytesOf "raw:" = [0x72, 0x61, 0x77, 0x3A] := by decide
  have hfile : bytesOf "file:" = [0x66, 0x69, 0x6C, 0x65, 0x3A] := by decide
  unfold identity at h
  unfold fileKey
  cases hp : world.canonical path with
  | none =>
    cases ho : world.canonical other with
    | none =>
      rw [hp, ho] at h
      exact ⟨rfl, List.append_cancel_left h⟩
    | some canonical =>
      rw [hp, ho, hraw, hfile] at h
      cases h
  | some canonical =>
    cases ho : world.canonical other with
    | none =>
      rw [hp, ho, hraw, hfile] at h
      cases h
    | some canonical' =>
      rw [hp, ho] at h
      rw [List.append_cancel_left h]
      exact ⟨rfl, rfl⟩

/-- The entries have one identity each, with the least spelling so far. -/
structure Noted (world : World) (seen : List Text) (entries : List (Text × Input)) : Prop where
  apart : (entries.map Prod.fst).Nodup
  entry : ∀ entry ∈ entries, entry = (identity world entry.2.spelling, inputOf world entry.2.spelling)
  least : ∀ entry ∈ entries, Least world seen entry.2.spelling
  all : ∀ path ∈ seen, identity world path ∈ entries.map Prod.fst

theorem Noted.new (h : Noted world seen entries) (hnew : identity world path ∉ entries.map Prod.fst) :
    Noted world (seen ++ [path]) (entries ++ [(identity world path, inputOf world path)]) := by
  have hother (s : Text) (hs : s ∈ seen) : identity world s ≠ identity world path := fun heq => hnew (heq ▸ h.all s hs)
  refine ⟨?_, fun entry hentry => ?_, fun entry hentry => ?_, fun s hs => ?_⟩
  · rw [List.map_append]
    exact h.apart.append (List.nodup_singleton _) (by simpa using hnew)
  · rcases List.mem_append.mp hentry with hentry | hentry
    · exact h.entry entry hentry
    · rw [List.mem_singleton.mp hentry]
      rfl
  · rcases List.mem_append.mp hentry with hentry | hentry
    · obtain ⟨hmem, hle⟩ := h.least entry hentry
      refine ⟨List.mem_append_left _ hmem, fun s hs hsame => ?_⟩
      rcases List.mem_append.mp hs with hs | hs
      · exact hle s hs hsame
      · rw [List.mem_singleton.mp hs] at hsame
        exact absurd hsame.symm (hother _ hmem)
    · rw [List.mem_singleton.mp hentry]
      refine ⟨List.mem_append_right _ (List.mem_singleton_self path), fun s hs hsame => ?_⟩
      rcases List.mem_append.mp hs with hs | hs
      · exact absurd hsame (hother s hs)
      · rw [List.mem_singleton.mp hs]
        exact le_refl _
  · rw [List.map_append, List.mem_append]
    rcases List.mem_append.mp hs with hs | hs
    · exact .inl (h.all s hs)
    · rw [List.mem_singleton.mp hs]
      exact .inr (List.mem_singleton_self _)

/-- The entry after one more spelling of its file. -/
def respelled (world : World) (path : Text) (entry : Text × Input) : Text × Input :=
  if entry.1 = identity world path ∧ path < entry.2.spelling then (entry.1, { entry.2 with spelling := path }) else entry

theorem respelled_fst (entry : Text × Input) : (respelled world path entry).1 = entry.1 := by
  unfold respelled
  split <;> rfl

theorem Noted.again (h : Noted world seen entries) (hold : identity world path ∈ entries.map Prod.fst) :
    Noted world (seen ++ [path]) (entries.map (respelled world path)) := by
  have hfst : (entries.map (respelled world path)).map Prod.fst = entries.map Prod.fst := by
    rw [List.map_map]
    exact List.map_congr_left fun entry _ => respelled_fst entry
  have hentries (entry : Text × Input) (hentry : entry ∈ entries) :
      respelled world path entry = (identity world (respelled world path entry).2.spelling,
        inputOf world (respelled world path entry).2.spelling) ∧
      Least world (seen ++ [path]) (respelled world path entry).2.spelling := by
    have hentryEq := h.entry entry hentry
    obtain ⟨hmem, hle⟩ := h.least entry hentry
    have hfirst : entry.1 = identity world entry.2.spelling := congrArg Prod.fst hentryEq
    have hsecond : entry.2 = inputOf world entry.2.spelling := congrArg Prod.snd hentryEq
    by_cases hless : entry.1 = identity world path ∧ path < entry.2.spelling
    · obtain ⟨hsame, hlt⟩ := hless
      have hidentity : identity world entry.2.spelling = identity world path := hfirst.symm.trans hsame
      have hnow : respelled world path entry = (entry.1, { entry.2 with spelling := path }) := if_pos ⟨hsame, hlt⟩
      rw [hnow]
      refine ⟨Prod.ext hsame ?_, List.mem_append_right _ (List.mem_singleton_self path), fun s hs hother => ?_⟩
      · have hcanonical := (identity_canonical hidentity).1
        rw [hsecond]
        simp only [inputOf]
        rw [hcanonical]
      · rcases List.mem_append.mp hs with hs | hs
        · exact hlt.le.trans (hle s hs (hother.trans hidentity.symm))
        · exact (List.mem_singleton.mp hs).ge
    · have hnow : respelled world path entry = entry := if_neg hless
      rw [hnow]
      refine ⟨hentryEq, List.mem_append_left _ hmem, fun s hs hother => ?_⟩
      rcases List.mem_append.mp hs with hs | hs
      · exact hle s hs hother
      · rw [List.mem_singleton.mp hs] at hother ⊢
        exact not_lt.mp fun hlt => hless ⟨hfirst.trans hother.symm, hlt⟩
  refine ⟨hfst ▸ h.apart, fun entry hentry => ?_, fun entry hentry => ?_, fun s hs => ?_⟩
  · obtain ⟨old, hold, rfl⟩ := List.mem_map.mp hentry
    exact (hentries old hold).1
  · obtain ⟨old, hold, rfl⟩ := List.mem_map.mp hentry
    exact (hentries old hold).2
  · rw [hfst]
    rcases List.mem_append.mp hs with hs | hs
    · exact h.all s hs
    · rwa [List.mem_singleton.mp hs]

theorem Noted.note (h : Noted world seen entries) (path : Text) :
    Noted world (seen ++ [path]) (noteInput world entries path) := by
  unfold noteInput
  cases hfind : entries.find? fun entry => entry.1 = identity world path with
  | none =>
    refine h.new fun hmem => ?_
    obtain ⟨entry, hentry, hsame⟩ := List.mem_map.mp hmem
    have hnot := List.find?_eq_none.mp hfind entry hentry
    exact hnot (by simpa using hsame)
  | some entry =>
    have hmem := List.mem_of_find?_eq_some hfind
    have hsame := List.find?_some hfind
    refine h.again (List.mem_map.mpr ⟨entry, hmem, by simpa using hsame⟩)

theorem noted_foldl (xs : List Text) : ∀ {seen : List Text} {entries : List (Text × Input)}, Noted world seen entries →
    Noted world (seen ++ xs) (xs.foldl (noteInput world) entries) := by
  induction xs with
  | nil => exact fun h => by rwa [List.append_nil]
  | cons path rest ih =>
    intro seen entries h
    have hrest := ih (h.note path)
    rwa [List.append_assoc] at hrest

theorem noted_inputs (world : World) (xs : List Text) : Noted world xs (xs.foldl (noteInput world) []) := by
  have hstart : Noted world [] [] := ⟨List.nodup_nil, by simp, by simp, by simp⟩
  exact noted_foldl xs hstart

/-- Each path of a request has a least spelling. -/
theorem exists_least (h : path ∈ xs) : ∃ s, Least world xs s ∧ identity world s = identity world path := by
  have hnoted := noted_inputs world xs
  obtain ⟨entry, hentry, hsame⟩ := List.mem_map.mp (hnoted.all path h)
  have hfirst : entry.1 = identity world entry.2.spelling := congrArg Prod.fst (hnoted.entry entry hentry)
  exact ⟨_, hnoted.least entry hentry, hfirst.symm.trans hsame⟩

/-- The inputs are the least spellings, in their order. -/
theorem normaliseInputs_spec (world : World) (xs : List Text) : ∃ spelled : List Text,
    normaliseInputs world xs = spelled.map (inputOf world) ∧
    spelled.Pairwise (· < ·) ∧ ∀ s, s ∈ spelled ↔ Least world xs s := by
  have hnoted := noted_inputs world xs
  generalize hentries : xs.foldl (noteInput world) [] = entries at hnoted
  have hinput (input : Input) (hmem : input ∈ normaliseInputs world xs) :
      ∃ entry ∈ entries, input = entry.2 := by
    rw [normaliseInputs, hentries, (SortedBy.sortBy_perm _ _).mem_iff] at hmem
    obtain ⟨entry, hentry, rfl⟩ := List.mem_map.mp hmem
    exact ⟨entry, hentry, rfl⟩
  have hdistinct : SortedBy.Distinct Input.spelling (entries.map Prod.snd) := by
    rw [SortedBy.distinct_map]
    refine (List.pairwise_map.mp hnoted.apart).imp_of_mem fun {first second} hfirst hsecond hne heq => hne ?_
    rw [hnoted.entry first hfirst, hnoted.entry second hsecond]
    simp only [heq]
  have hstrict := SortedBy.sortBy_strict hdistinct
  refine ⟨(normaliseInputs world xs).map Input.spelling, ?_, ?_, fun s => ?_⟩
  · rw [List.map_map]
    symm
    refine (List.map_congr_left fun input hmem => ?_).trans (List.map_id _)
    obtain ⟨entry, hentry, rfl⟩ := hinput input hmem
    exact (congrArg Prod.snd (hnoted.entry entry hentry)).symm
  · rw [normaliseInputs, hentries, List.pairwise_map]
    exact hstrict
  · constructor
    · intro hs
      obtain ⟨input, hmem, rfl⟩ := List.mem_map.mp hs
      obtain ⟨entry, hentry, rfl⟩ := hinput input hmem
      exact hnoted.least entry hentry
    · rintro ⟨hmem, hle⟩
      obtain ⟨entry, hentry, hsame⟩ := List.mem_map.mp (hnoted.all s hmem)
      have hfirst : entry.1 = identity world entry.2.spelling := congrArg Prod.fst (hnoted.entry entry hentry)
      have hidentity : identity world entry.2.spelling = identity world s := hfirst.symm.trans hsame
      obtain ⟨hin, hleast⟩ := hnoted.least entry hentry
      have heq : entry.2.spelling = s := le_antisymm (hleast s hmem hidentity.symm) (hle _ hin hidentity)
      refine List.mem_map.mpr ⟨entry.2, ?_, heq⟩
      rw [normaliseInputs, hentries, (SortedBy.sortBy_perm _ _).mem_iff]
      exact List.mem_map.mpr ⟨entry, hentry, rfl⟩

/-- Two requests for the same paths have the same inputs. -/
theorem normaliseInputs_congr (h : ∀ path, path ∈ xs ↔ path ∈ ys) : normaliseInputs world xs = normaliseInputs world ys := by
  obtain ⟨first, hfirst, hstrict, hmem⟩ := normaliseInputs_spec world xs
  obtain ⟨second, hsecond, hstrict', hmem'⟩ := normaliseInputs_spec world ys
  have hleast (s : Text) : Least world xs s ↔ Least world ys s := by simp only [Least, h]
  have hsame (s : Text) : s ∈ first ↔ s ∈ second := by rw [hmem, hmem', hleast]
  have hperm : first.Perm second :=
    (List.perm_ext_iff_of_nodup (hstrict.imp ne_of_lt) (hstrict'.imp ne_of_lt)).mpr hsame
  have heq : first = second := @SortedBy.eq_of_strict _ _ id _ _ _ hstrict hstrict' hperm
  rw [hfirst, hsecond, heq]

end normal

section answer

variable {world : World} {searchPaths xs ys spelled : List Text} {graph : DependencyGraph} {inputs : List Input}
  {P : Text → Prop}

theorem represents_empty (world : World) (searchPaths : List Text) : Represents world searchPaths none {} := by
  refine ⟨fun t id => ?_, ?_, fun ignoreCase name id h => ?_, fun id node h _ => ?_⟩
  · cases t <;> exact ⟨fun h => (nomatch h), fun h => (nomatch h)⟩
  · exact fun folder listing h => nomatch h
  · cases ignoreCase <;> cases h
  · exact nomatch h

/-- A request up to its searches: the inputs have nodes, and the names in every file are looked up. -/
structure Collected (world : World) (searchPaths xs spelled : List Text) (start graph : DependencyGraph)
    (errors : Text → Option String) (inputs : List Input) : Prop where
  normal : normaliseInputs world xs = spelled.map (inputOf world)
  sorted : spelled.Pairwise (· < ·)
  least : ∀ s, s ∈ spelled ↔ Least world xs s
  run : inputNodes world {} (fun _ => none) (spelled.map (inputOf world)) = (start, errors, inputs)
  started : Represents world searchPaths none start
  walk : expandAll world searchPaths (walkFuel world inputs) start 0 = some graph
  represents : Represents world searchPaths none graph
  done : Done graph graph.nodes.length
  placed : List.Forall₂ (Placed world graph) spelled inputs
  failed : ∀ s reason, errors s = some reason → s ∈ spelled
  within : ∀ P : Target → Prop, (∀ s ∈ spelled, P (.file (fileKey world s))) →
    (∀ key node, NewNode world (.file key) node → P (.file key) → node.status = .parsed →
      ∀ name ∈ node.refs, P (target world searchPaths (node.format = .pe) name)) → Within P graph

theorem placed_grows {after : DependencyGraph} (hgrows : ∀ t id, IsNode graph t id → IsNode after t id) {s : Text}
    {input : Input} (h : Placed world graph s input) : Placed world after s input :=
  ⟨h.same, hgrows _ _ h.node⟩

/-- Every request collects its nodes. -/
theorem exists_collected (world : World) (searchPaths xs : List Text) :
    ∃ spelled start graph errors inputs, Collected world searchPaths xs spelled start graph errors inputs := by
  obtain ⟨spelled, hnormal, hsorted, hleast⟩ := normaliseInputs_spec world xs
  have hplacing := inputNodes_run spelled (fun _ => none) (represents_empty world searchPaths)
  rcases hplaced : inputNodes world {} (fun _ => none) (spelled.map (inputOf world)) with ⟨start, errors, inputs⟩
  rw [hplaced] at hplacing
  have hweight : weight world start + 1 ≤ walkFuel world inputs + 0 := by
    have hle := hplacing.weight
    have hlength := hplacing.inputs.length_eq
    have hempty : weight world {} = (world.regularFiles.map fun key => (readNode world key).refs.length).sum := by
      have hunread : unreadRefs world {} = fun key => (readNode world key).refs.length := by
        funext key
        rw [unreadRefs, if_pos rfl]
      simp [weight, hunread]
    simp only [walkFuel]
    simp only at hle hlength
    omega
  have hrun {I : DependencyGraph → Prop} (hI : I start) := fun hstep => @expandAll_run world searchPaths I hstep
    (walkFuel world inputs) start 0 hplacing.represents hI (Nat.zero_le _) (fun i _ hi => absurd hi (Nat.not_lt_zero i))
    hweight
  obtain ⟨graph, hgraph, hrepresents, hkept, hdone⟩ := @hrun (fun after => ∀ t id, IsNode start t id → IsNode after t id)
    (fun _ _ h => h) fun before id node h hkept hnode hparsed hfresh t i hi => by
      obtain ⟨-, after, ids, hexpands⟩ := expand_spec h hnode hparsed hfresh
      exact hexpands.isNode (hkept t i hi)
  refine ⟨spelled, start, graph, errors, inputs, hnormal, hsorted, hleast, hplaced, hplacing.represents, hgraph,
    hrepresents, hdone, ?_, fun s reason hs => ?_, fun P hinputs hnames => ?_⟩
  · exact hplacing.inputs.imp fun s input hinput => placed_grows hkept hinput
  · rcases hplacing.errors s reason hs with hs | hs
    · cases hs
    · exact hs
  · have hempty : Within P {} := by
      intro t id hid
      cases hid
    obtain ⟨last, hlast, -, hwithin, -⟩ := @hrun (Within P) (hplacing.within P hempty hinputs)
      fun before id node h hP hnode hparsed hfresh => by
        apply expand_within h hnode hparsed hfresh hP
        cases h.nodes id node hnode (by simp) with
        | missing name => cases hparsed
        | @file key _ hnew =>
          apply hnames key node hnew ?_ hparsed
          apply hP (.file key) id
          rw [IsNode, hnode, Option.map_some, hnew.targetOf]
        | expanded _ _ _ => cases hfresh
    obtain rfl := Option.some.inj (hgraph.symm.trans hlast)
    exact hwithin

/-- What a request puts together when its searches are over. -/
def answer (graph : DependencyGraph) (errors : Text → Option String) (inputs : List Input) (state : Credits) :
    DependencyResult :=
  let result := mergeNodes inputs state.credits { errors } graph.nodes 0
  { result with
    libraryErrors := fun key => (result.libraryErrors key).map fun report =>
      { report with inputs := ByteOrder.sortUnique report.inputs } }

/-- A request, from its inputs to its answer. -/
structure Answers (world : World) (searchPaths xs spelled : List Text) (graph : DependencyGraph)
    (errors : Text → Option String) (inputs : List Input) (state : Credits) : Prop where
  sorted : spelled.Pairwise (· < ·)
  least : ∀ s, s ∈ spelled ↔ Least world xs s
  represents : Represents world searchPaths none graph
  done : Done graph graph.nodes.length
  placed : List.Forall₂ (Placed world graph) spelled inputs
  failed : ∀ s reason, errors s = some reason → s ∈ spelled
  credits : creditAll graph {} inputs 0 = some state
  result : listDependencies world searchPaths xs = some (answer graph errors inputs state)

/-- Every request is answered. -/
theorem listDependencies_answers (world : World) (searchPaths xs : List Text) :
    ∃ spelled graph errors inputs state, Answers world searchPaths xs spelled graph errors inputs state := by
  obtain ⟨spelled, start, graph, errors, inputs, h⟩ := exists_collected world searchPaths xs
  obtain ⟨state, hstate⟩ := creditAll_isSome (closed_of_represents h.represents) inputs {} 0
  refine ⟨spelled, graph, errors, inputs, state, h.sorted, h.least, h.represents, h.done, h.placed, h.failed, hstate, ?_⟩
  rw [listDependencies, h.normal, h.run]
  simp only [h.walk, hstate, Option.bind_eq_bind, Option.bind_some, Option.pure_def]
  rfl

/-- The names of inputs in a result. -/
structure Named (P : Text → Prop) (result : DependencyResult) : Prop where
  dependencies : ∀ key names, result.dependencies key = some names → ∀ s ∈ names, P s
  errors : ∀ s reason, result.errors s = some reason → P s
  libraryErrors : ∀ key report, result.libraryErrors key = some report → ∀ s ∈ report.inputs, P s

theorem mem_spellings {credits : List Nat} {s : Text} (h : s ∈ spellings inputs credits) :
    ∃ input ∈ inputs, input.spelling = s := by
  obtain ⟨index, -, hindex⟩ := List.mem_filterMap.mp h
  obtain ⟨input, hinput, heq⟩ := Option.map_eq_some_iff.mp hindex
  exact ⟨input, List.mem_of_getElem? hinput, heq⟩

/-- The list of a key with the inputs of one node more. -/
def listedWith (before added : List Text) : List Text :=
  if before ≠ [] then sortUnique (before ++ added) else before ++ added

theorem mem_listedWith {before added : List Text} {s : Text} :
    s ∈ listedWith before added ↔ s ∈ before ∨ s ∈ added := by
  rw [listedWith]
  split
  · rw [mem_sortUnique, List.mem_append]
  · rw [List.mem_append]

section merge

variable {result : DependencyResult} {node : DependencyNode} {credits : List Nat}

theorem mergeNode_nil : mergeNode inputs result node [] = result := if_pos rfl

theorem mergeNode_dependencies (hsome : credits ≠ []) (key : Text) :
    (mergeNode inputs result node credits).dependencies key = if key = node.key then
      some (listedWith ((result.dependencies node.key).getD []) (spellings inputs credits))
    else result.dependencies key := by
  rw [mergeNode, if_neg hsome]
  exact update_apply ..

theorem mergeNode_errors : (mergeNode inputs result node credits).errors = result.errors := by
  rw [mergeNode]
  split <;> rfl

/-- The report of a key with the inputs of one node more. -/
def reportWith (report : LibraryError) (node : DependencyNode) (added : List Text) : LibraryError :=
  { reason := if report.reason = "" then libraryReason node else report.reason, inputs := report.inputs ++ added }

theorem mergeNode_libraryErrors (hsome : credits ≠ []) (key : Text) :
    (mergeNode inputs result node credits).libraryErrors key = if node.status = .unreadable ∧ key = node.key then
      some (reportWith ((result.libraryErrors node.key).getD {}) node (spellings inputs credits))
    else result.libraryErrors key := by
  rw [mergeNode, if_neg hsome]
  by_cases hunreadable : node.status = .unreadable
  · simp only [hunreadable, if_true, true_and]
    exact update_apply ..
  · simp only [hunreadable, if_false, false_and]

end merge

theorem mem_getD {key : Text} {f : Text → Option (List Text)} {s : Text} (h : s ∈ (f key).getD []) :
    ∃ names, f key = some names ∧ s ∈ names := by
  cases hkey : f key with
  | none =>
    rw [hkey] at h
    cases h
  | some names =>
    rw [hkey] at h
    exact ⟨names, rfl, h⟩

theorem Named.mergeNode {result : DependencyResult} (h : Named P result) (hinputs : ∀ input ∈ inputs, P input.spelling)
    (node : DependencyNode) (credits : List Nat) : Named P (mergeNode inputs result node credits) := by
  have hspelled (s : Text) (hs : s ∈ spellings inputs credits) : P s := by
    obtain ⟨input, hinput, rfl⟩ := mem_spellings hs
    exact hinputs input hinput
  by_cases hnone : credits = []
  · rwa [hnone, mergeNode_nil]
  · refine ⟨fun key names hkey s hs => ?_, ?_, fun key report hkey s hs => ?_⟩
    · rw [mergeNode_dependencies hnone] at hkey
      by_cases heq : key = node.key
      · rw [if_pos heq] at hkey
        obtain rfl := Option.some.inj hkey
        rcases mem_listedWith.mp hs with hs | hs
        · obtain ⟨names, hnames, hs⟩ := mem_getD hs
          exact h.dependencies _ names hnames s hs
        · exact hspelled s hs
      · rw [if_neg heq] at hkey
        exact h.dependencies key names hkey s hs
    · rw [mergeNode_errors]
      exact h.errors
    · rw [mergeNode_libraryErrors hnone] at hkey
      by_cases heq : node.status = .unreadable ∧ key = node.key
      · rw [if_pos heq] at hkey
        obtain rfl := Option.some.inj hkey
        rcases List.mem_append.mp hs with hs | hs
        · cases hreport : result.libraryErrors node.key with
          | none =>
            rw [hreport] at hs
            cases hs
          | some before =>
            rw [hreport] at hs
            exact h.libraryErrors _ before hreport s hs
        · exact hspelled s hs
      · rw [if_neg heq] at hkey
        exact h.libraryErrors key report hkey s hs

theorem Named.mergeNodes (hinputs : ∀ input ∈ inputs, P input.spelling) (credits : NodeId → List Nat)
    (nodes : List DependencyNode) : ∀ {result : DependencyResult} {id : NodeId}, Named P result →
    Named P (mergeNodes inputs credits result nodes id) := by
  induction nodes with
  | nil => exact fun h => h
  | cons node rest ih => exact fun {result id} h => ih (h.mergeNode hinputs node (credits id))

theorem Answers.named {errors : Text → Option String} {state : Credits}
    (h : Answers world searchPaths xs spelled graph errors inputs state) :
    Named (Least world xs) (answer graph errors inputs state) := by
  have hinputs : ∀ input ∈ inputs, Least world xs input.spelling := by
    intro input hinput
    obtain ⟨i, hi⟩ := List.mem_iff_getElem?.mp hinput
    obtain ⟨s, hs, hplaced⟩ := Checked.forall₂_getElem? h.placed.flip hi
    rw [hplaced.same]
    exact (h.least s).mp (List.mem_of_getElem? hs)
  have hstart : Named (Least world xs) { errors } :=
    ⟨fun _ _ hkey => (nomatch hkey), fun s reason hs => (h.least s).mp (h.failed s reason hs),
      fun _ _ hkey => (nomatch hkey)⟩
  have hmerged := @Named.mergeNodes inputs _ hinputs state.credits graph.nodes { errors } 0 hstart
  refine ⟨hmerged.dependencies, hmerged.errors, fun key report hkey s hs => ?_⟩
  obtain ⟨before, hbefore, rfl⟩ := Option.map_eq_some_iff.mp hkey
  exact hmerged.libraryErrors key before hbefore s (ByteOrder.mem_sortUnique.mp hs)

end answer

/-- Two requests for the same paths have the same answer. Each file is named with the least of its spellings. -/
theorem request_order_irrelevant (world : World) (searchPaths : List Text) {xs ys : List Text}
    (h : ∀ path, path ∈ xs ↔ path ∈ ys) : ∃ result, listDependencies world searchPaths xs = some result ∧
      listDependencies world searchPaths ys = some result ∧ Named (Least world xs) result := by
  obtain ⟨spelled, graph, errors, inputs, state, hanswers⟩ := listDependencies_answers world searchPaths xs
  refine ⟨answer graph errors inputs state, hanswers.result, ?_, hanswers.named⟩
  rw [← hanswers.result, listDependencies, listDependencies, normaliseInputs_congr h]

/-- One program with two spellings, which needs a library that no folder holds. -/
def twoSpellings : World where
  canonical _ := some (bytesOf "/a")
  regularFiles := [bytesOf "/a"]
  entryExists _ := true
  isDirectory _ := false
  entryNames _ := []
  readFileBytes _ := .ok elfMagic
  elfNames _ := .ok [bytesOf "b"]
  peNames _ := .ok []
  machONames _ := .ok []

theorem request_order_irrelevant_spellings : ∃ result,
    listDependencies twoSpellings [] [bytesOf "x/../a", bytesOf "/a"] = some result ∧
      listDependencies twoSpellings [] [bytesOf "/a", bytesOf "x/../a", bytesOf "/a"] = some result ∧
      Named (Least twoSpellings [bytesOf "x/../a", bytesOf "/a"]) result :=
  request_order_irrelevant twoSpellings [] fun path => by simp; tauto

end TheSeed.DependencyOrder
