import Mathlib.Data.List.Infix
import TheSeed.DependencyLister
import TheSeed.Library.Checked
import TheSeed.PluginCache

namespace TheSeed.PluginName

open Checked MachOLayout
open DependencyLister (Text)

/-! Which names a plugin or a pak can have, and the paths that are built from them. -/

def slash : UInt8 := 0x2F
def backslash : UInt8 := 0x5C
def colon : UInt8 := 0x3A

/-- A `LoadError` whose reason is `InvalidName`: it has no file and no locations. -/
structure InvalidName where
  name : Text
  detail : String
  kind : String
  deriving DecidableEq

structure NameParser where
  org : Text
  library : Text
  deriving DecidableEq

def reject {α : Type} (name : Text) (kind rule : String) : Except InvalidName α := .error ⟨name, rule, kind⟩

def partCheck (part name : Text) (kind : String) : Except InvalidName Unit :=
  if part = [] then reject name kind "empty part"
  else if part = bytesOf "." ∨ part = bytesOf ".." then reject name kind "\".\" or \"..\" as a part"
  else .ok ()

def control (u : UInt8) : Bool := u < 0x20 || u = 0x7F

/-- The parts of a name that has no control character, backslash or colon. -/
def parts (name : Text) (kind : String) : Except InvalidName NameParser :=
  -- a lone slash or doubled slashes are empty parts
  if 1 < name.length ∧ name.head? = some slash ∧ name[1]? ≠ some slash then reject name kind "leading \"/\""
  else
    match name.findIdx? (· = slash) with
    | none => do
        partCheck name name kind
        return ⟨[], name⟩
    | some i =>
        if slash ∈ name.drop (i + 1) then
          if [slash, slash] <:+: name then reject name kind "empty part"
          else reject name kind "more than one \"/\""
        else do
          partCheck (name.take i) name kind
          partCheck (name.drop (i + 1)) name kind
          return ⟨name.take i, name.drop (i + 1)⟩

def nameParser (name : Text) (kind : String) : Except InvalidName NameParser :=
  if name.any control then reject name kind "control character"
  else if backslash ∈ name then reject name kind "backslash"
  else if colon ∈ name then reject name kind "\":\""
  else parts name kind

/-- What the file name of a plugin ends in, on each system. -/
inductive Platform
  | windows
  | apple
  | other
  deriving DecidableEq

def pluginFileName (platform : Platform) (library : Text) : Text :=
  match platform with
  | .windows => bytesOf "lib" ++ library ++ bytesOf "-0.dll"
  | .apple => bytesOf "lib" ++ library ++ bytesOf ".dylib"
  | .other => bytesOf "lib" ++ library ++ bytesOf ".so"

def pakFileName (library : Text) : Text := library ++ bytesOf ".pak"

def developmentLocations (org library : Text) (pak : Bool) : List Text :=
  let suffix := if pak then [] else bytesOf "/src/.libs"
  [bytesOf "../../" ++ library ++ suffix] ++
    if org ≠ [] then [bytesOf "../node_modules/" ++ org ++ [slash] ++ library ++ suffix] else []

/-- The search list and the number of configured locations it begins with. -/
def searchListBuild (configured : List Text) (org library : Text) (pak : Bool) : List Text × Nat :=
  (configured ++ developmentLocations org library pak, configured.length)

/-- The steps of a path, on a system that takes a backslash for a separator too. -/
def pathSteps (path : Text) : List Text := path.splitOnP fun u => u = slash || u = backslash

/-- The steps of the development locations, of which the code itself inserts all but the parts. -/
def developmentSteps (org library : Text) (pak : Bool) : List (List Text) :=
  let inside := if pak then [] else [bytesOf "src", bytesOf ".libs"]
  [[bytesOf "..", bytesOf "..", library] ++ inside] ++
    if org ≠ [] then [[bytesOf "..", bytesOf "node_modules", org, library] ++ inside] else []

/-- A byte that a part cannot hold. -/
def refused (u : UInt8) : Bool := control u || u = backslash || u = colon || u = slash

/-- A name that stands for itself below a folder. -/
structure IsPart (part : Text) : Prop where
  nonempty : part ≠ []
  plain : ∀ u ∈ part, refused u = false
  not_here : part ≠ bytesOf "."
  not_above : part ≠ bytesOf ".."

/-- The names `library` and `org/library`. -/
inductive Spells : Text → Text → Text → Prop
  | alone {library : Text} : IsPart library → Spells library [] library
  | below {org library : Text} : IsPart org → IsPart library → Spells (org ++ slash :: library) org library

section checks

variable {name part : Text} {kind : String}

theorem partCheck_ok : partCheck part name kind = .ok () ↔
    part ≠ [] ∧ part ≠ bytesOf "." ∧ part ≠ bytesOf ".." := by
  unfold partCheck reject
  split
  · simp_all
  · split <;> simp_all [not_or]
    tauto

theorem isPart_iff : IsPart part ↔ partCheck part name kind = .ok () ∧ ∀ u ∈ part, refused u = false := by
  rw [partCheck_ok]
  constructor
  · rintro ⟨h, hu, hd, hdd⟩
    exact ⟨⟨h, hd, hdd⟩, hu⟩
  · rintro ⟨⟨h, hd, hdd⟩, hu⟩
    exact ⟨h, hu, hd, hdd⟩

theorem IsPart.no_slash (h : IsPart part) : slash ∉ part := fun hmem => by
  simpa [refused] using h.plain _ hmem

theorem findIdx?_slash_eq_none : name.findIdx? (· = slash) = none ↔ slash ∉ name := by
  rw [List.findIdx?_eq_none_iff]
  constructor
  · intro h hs
    simpa using h slash hs
  · intro h u hu
    simp only [decide_eq_false_iff_not]
    rintro rfl
    exact h hu

theorem findIdx?_slash_append {org library : Text} (ho : slash ∉ org) :
    (org ++ slash :: library).findIdx? (· = slash) = some org.length := by
  rw [List.findIdx?_append, findIdx?_slash_eq_none.mpr ho, List.findIdx?_cons]
  simp

theorem parts_alone (h : IsPart name) : parts name kind = .ok ⟨[], name⟩ := by
  have hhead : name.head? ≠ some slash := fun hs => h.no_slash (List.mem_of_head? hs)
  have hcheck : partCheck name name kind = .ok () := (isPart_iff.mp h).1
  unfold parts
  rw [if_neg (fun hlead => hhead hlead.2.1), findIdx?_slash_eq_none.mpr h.no_slash]
  simp [hcheck, bind, Except.bind, pure, Except.pure]

theorem parts_below {org library : Text} (ho : IsPart org) (hl : IsPart library) :
    parts (org ++ slash :: library) kind = .ok ⟨org, library⟩ := by
  have hhead : (org ++ slash :: library).head? ≠ some slash := by
    rw [List.head?_append_of_ne_nil _ ho.nonempty]
    exact fun hs => ho.no_slash (List.mem_of_head? hs)
  have horg : partCheck org (org ++ slash :: library) kind = .ok () := (isPart_iff.mp ho).1
  have hlib : partCheck library (org ++ slash :: library) kind = .ok () := (isPart_iff.mp hl).1
  unfold parts
  rw [if_neg (fun hlead => hhead hlead.2.1), findIdx?_slash_append ho.no_slash]
  simp [hl.no_slash, horg, hlib, bind, Except.bind, pure, Except.pure]

/-- A name without control characters, backslashes and colons. -/
theorem parts_spells {parsed : NameParser} (hname : ∀ u ∈ name, u ≠ slash → refused u = false)
    (hparts : parts name kind = .ok parsed) : Spells name parsed.org parsed.library := by
  unfold parts at hparts
  split at hparts
  · cases hparts
  · split at hparts
    · next hnone =>
      obtain ⟨_, hcheck, hok⟩ := bind_eq_ok.mp hparts
      cases hok
      have hslash := findIdx?_slash_eq_none.mp hnone
      exact .alone (isPart_iff.mpr ⟨hcheck, fun u hu => hname u hu fun hs => hslash (hs ▸ hu)⟩)
    · next i hi =>
      obtain ⟨hi, hat, hbefore⟩ := List.findIdx?_eq_some_iff_getElem.mp hi
      split at hparts
      · split at hparts <;> cases hparts
      · next hafter =>
        obtain ⟨_, horg, hparts⟩ := bind_eq_ok.mp hparts
        obtain ⟨_, hlib, hok⟩ := bind_eq_ok.mp hparts
        cases hok
        have hsplit : name.take i ++ slash :: name.drop (i + 1) = name := by
          rw [← of_decide_eq_true hat, List.getElem_cons_drop, List.take_append_drop]
        have hspells : Spells (name.take i ++ slash :: name.drop (i + 1)) (name.take i) (name.drop (i + 1)) := by
          refine .below (isPart_iff.mpr ⟨horg, fun u hu => ?_⟩) (isPart_iff.mpr ⟨hlib, fun u hu => ?_⟩)
          · refine hname u (List.mem_of_mem_take hu) ?_
            obtain ⟨j, hj, rfl⟩ := List.getElem_of_mem hu
            have hji : j < i := by simp at hj; omega
            simpa using hbefore j hji
          · exact hname u (List.mem_of_mem_drop hu) fun hs => hafter (hs ▸ hu)
        rwa [hsplit] at hspells

theorem Spells.bytes {org library : Text} (h : Spells name org library) :
    ∀ u ∈ name, u ≠ slash → refused u = false := by
  cases h with
  | alone hl => exact fun u hu _ => hl.plain u hu
  | below ho hl =>
    intro u hu hs
    simp only [List.mem_append, List.mem_cons, hs, false_or] at hu
    exact hu.elim (ho.plain u) (hl.plain u)

theorem Spells.parts {org library : Text} (h : Spells name org library) : parts name kind = .ok ⟨org, library⟩ := by
  cases h with
  | alone hl => exact parts_alone hl
  | below ho hl => exact parts_below ho hl

theorem Spells.library {org library : Text} (h : Spells name org library) : IsPart library := by
  cases h with
  | alone hl => exact hl
  | below ho hl => exact hl

theorem Spells.org {org library : Text} (h : Spells name org library) (hne : org ≠ []) : IsPart org := by
  cases h with
  | alone hl => exact absurd rfl hne
  | below ho hl => exact ho

theorem refused_cases {u : UInt8} (h : control u = true ∨ u = backslash ∨ u = colon) :
    refused u = true ∧ u ≠ slash := by
  rcases h with h | rfl | rfl
  · refine ⟨by simp [refused, h], ?_⟩
    rintro rfl
    exact absurd h (by decide)
  · decide
  · decide

/-- A name is taken when it has no byte that is refused everywhere, and its parts are. -/
theorem nameParser_ok {parsed : NameParser} : nameParser name kind = .ok parsed ↔
    parts name kind = .ok parsed ∧ ∀ u ∈ name, u ≠ slash → refused u = false := by
  unfold nameParser
  constructor
  · intro h
    split at h
    · cases h
    · next hc =>
      split at h
      · cases h
      · next hb =>
        split at h
        · cases h
        · next hcolon =>
          refine ⟨h, fun u hu hs => ?_⟩
          have hcontrol : control u = false := by simpa using fun hcu => hc (List.any_eq_true.mpr ⟨u, hu, hcu⟩)
          simp [refused, hcontrol, hs]
          exact ⟨fun hub => hb (hub ▸ hu), fun huc => hcolon (huc ▸ hu)⟩
  · rintro ⟨hparts, hname⟩
    have hno (u : UInt8) (hu : u ∈ name) : ¬(control u = true ∨ u = backslash ∨ u = colon) := fun hbad => by
      have hr := refused_cases hbad
      simp [hname u hu hr.2] at hr
    rw [if_neg, if_neg fun hb => hno _ hb (.inr (.inl rfl)), if_neg fun hc => hno _ hc (.inr (.inr rfl)), hparts]
    intro hany
    obtain ⟨u, hu, hcu⟩ := List.any_eq_true.mp hany
    exact hno u hu (.inl hcu)

theorem nameParser_ok_iff {org library : Text} :
    nameParser name kind = .ok ⟨org, library⟩ ↔ Spells name org library := by
  rw [nameParser_ok]
  exact ⟨fun h => parts_spells h.2 h.1, fun h => ⟨h.parts, h.bytes⟩⟩

end checks

section paths

variable {part org library : Text}

theorem not_separator {u : UInt8} (h : refused u = false) : (u = slash || u = backslash) = false := by
  simp only [refused, Bool.or_eq_false_iff] at h ⊢
  exact ⟨h.2, h.1.1.2⟩

theorem pathSteps_cons (h : ∀ u ∈ part, refused u = false) (rest : Text) :
    pathSteps (part ++ slash :: rest) = part :: pathSteps rest :=
  List.splitOnP_append_cons_of_forall_mem (fun u hu => not_separator (h u hu)) slash (by decide) rest

theorem pathSteps_plain (h : ∀ u ∈ part, refused u = false) : pathSteps part = [part] :=
  List.splitOnP_eq_singleton fun u hu => not_separator (h u hu)

theorem plain_of_all {bytes : Text} (h : (bytes.all fun u => !refused u) = true) : ∀ u ∈ bytes, refused u = false := by
  simpa using h

theorem plain_append {a b : Text} (ha : ∀ u ∈ a, refused u = false) (hb : ∀ u ∈ b, refused u = false) :
    ∀ u ∈ a ++ b, refused u = false := by
  intro u hu
  rcases List.mem_append.mp hu with hu | hu
  · exact ha u hu
  · exact hb u hu

theorem isPart_of_long (h : ∀ u ∈ part, refused u = false) (hlong : 2 < part.length) : IsPart part := by
  refine ⟨?_, h, ?_, ?_⟩ <;> rintro rfl <;> revert hlong <;> decide

theorem pluginFileName_isPart (platform : Platform) (h : IsPart library) : IsPart (pluginFileName platform library) := by
  cases platform with
  | windows | apple | other =>
    refine isPart_of_long (plain_append (plain_append (plain_of_all (by decide)) h.plain) (plain_of_all (by decide))) ?_
    rw [pluginFileName, List.length_append, List.length_append]
    exact Nat.lt_of_lt_of_le (by decide : 2 < (bytesOf "lib").length) (by omega)

theorem pakFileName_isPart (h : IsPart library) : IsPart (pakFileName library) := by
  refine isPart_of_long (plain_append h.plain (plain_of_all (by decide))) ?_
  rw [pakFileName, List.length_append]
  exact Nat.lt_of_lt_of_le (by decide : 2 < (bytesOf ".pak").length) (by omega)

/-- The steps of a location that ends in a part and what a plugin's folder adds to it. -/
theorem pathSteps_suffix (h : IsPart library) (pak : Bool) :
    pathSteps (library ++ if pak then [] else bytesOf "/src/.libs") =
      library :: if pak then [] else [bytesOf "src", bytesOf ".libs"] := by
  cases pak with
  | true => simpa using pathSteps_plain h.plain
  | false =>
    have hrest : pathSteps (bytesOf "src/.libs") = [bytesOf "src", bytesOf ".libs"] := by decide
    have hcons := pathSteps_cons h.plain (bytesOf "src/.libs")
    rwa [hrest] at hcons

theorem pathSteps_sibling (rest : Text) :
    pathSteps (bytesOf "../../" ++ rest) = bytesOf ".." :: bytesOf ".." :: pathSteps rest := by
  have hinner := pathSteps_cons (plain_of_all (by decide) : ∀ u ∈ bytesOf "..", refused u = false) rest
  have houter := pathSteps_cons (plain_of_all (by decide) : ∀ u ∈ bytesOf "..", refused u = false) (bytesOf ".." ++ slash :: rest)
  rwa [hinner] at houter

theorem pathSteps_modules (rest : Text) :
    pathSteps (bytesOf "../node_modules/" ++ rest) = bytesOf ".." :: bytesOf "node_modules" :: pathSteps rest := by
  have hinner := pathSteps_cons (plain_of_all (by decide) : ∀ u ∈ bytesOf "node_modules", refused u = false) rest
  have houter := pathSteps_cons (plain_of_all (by decide) : ∀ u ∈ bytesOf "..", refused u = false)
    (bytesOf "node_modules" ++ slash :: rest)
  rwa [hinner] at houter

theorem developmentLocations_steps (ho : org ≠ [] → IsPart org) (h : IsPart library) (pak : Bool) :
    (developmentLocations org library pak).map pathSteps = developmentSteps org library pak := by
  simp only [developmentLocations, developmentSteps, List.map_cons, List.append_assoc, pathSteps_sibling,
    pathSteps_suffix h, List.cons_append, List.nil_append]
  by_cases horg : org = []
  · simp [horg]
  · rw [if_pos horg, if_pos horg, List.map_cons, List.map_nil, pathSteps_modules, pathSteps_cons (ho horg).plain,
      pathSteps_suffix h]

end paths

/-- The names that are taken are those of one part or of two; each file name of one is a part, and
the locations of one have no steps but its parts and the code's own. -/
theorem name_grammar (name : Text) (kind : String) :
    ((∃ parsed, nameParser name kind = .ok parsed) ↔
      IsPart name ∨ ∃ org library, name = org ++ slash :: library ∧ IsPart org ∧ IsPart library) ∧
    ∀ org library, (nameParser name kind = .ok ⟨org, library⟩ ↔ Spells name org library) ∧
      (Spells name org library →
        (∀ platform, pathSteps (pluginFileName platform library) = [pluginFileName platform library] ∧
          IsPart (pluginFileName platform library)) ∧
        pathSteps (pakFileName library) = [pakFileName library] ∧ IsPart (pakFileName library) ∧
        ∀ configured pak, ∃ built,
          searchListBuild configured org library pak = (configured ++ built, configured.length) ∧
          built.map pathSteps = developmentSteps org library pak) := by
  constructor
  · constructor
    · rintro ⟨⟨org, library⟩, hok⟩
      cases nameParser_ok_iff.mp hok with
      | alone hl => exact .inl hl
      | below ho hl => exact .inr ⟨org, library, rfl, ho, hl⟩
    · rintro (hl | ⟨org, library, rfl, ho, hl⟩)
      · exact ⟨_, nameParser_ok_iff.mpr (.alone hl)⟩
      · exact ⟨_, nameParser_ok_iff.mpr (.below ho hl)⟩
  · intro org library
    refine ⟨nameParser_ok_iff, fun h => ?_⟩
    have hl := h.library
    refine ⟨fun platform => ?_, ?_, pakFileName_isPart hl, fun configured pak => ?_⟩
    · have hfile := pluginFileName_isPart platform hl
      exact ⟨pathSteps_plain hfile.plain, hfile⟩
    · exact pathSteps_plain (pakFileName_isPart hl).plain
    · exact ⟨_, rfl, developmentLocations_steps h.org hl pak⟩

theorem name_grammar_below : IsPart (pakFileName (bytesOf "lib.v2")) ∧
    ∃ built, searchListBuild [] (bytesOf "@scope") (bytesOf "lib.v2") true = ([] ++ built, 0) ∧
      built.map pathSteps = developmentSteps (bytesOf "@scope") (bytesOf "lib.v2") true := by
  have h := (name_grammar (bytesOf "@scope/lib.v2") "resource pak").2 (bytesOf "@scope") (bytesOf "lib.v2")
  have hspells := h.1.mp (by decide)
  obtain ⟨-, -, hpart, hbuilt⟩ := h.2 hspells
  exact ⟨hpart, hbuilt [] true⟩

section text

theorem bytesOf_append (a b : String) : bytesOf (a ++ b) = bytesOf a ++ bytesOf b := by
  simp [bytesOf]

/-- The file name that the plugin cache uses is this one. -/
theorem pluginFileName_bytesOf (library : String) :
    pluginFileName .other (bytesOf library) = bytesOf (PluginCache.pluginFileName library) := by
  simp [pluginFileName, PluginCache.pluginFileName, bytesOf_append]

theorem developmentLocations_bytesOf (org library : String) (pak : Bool) :
    developmentLocations (bytesOf org) (bytesOf library) pak =
      (PluginCache.developmentLocations org library pak).map bytesOf := by
  have hslash : bytesOf "/" = [slash] := by decide
  have hempty : bytesOf "" = [] := by decide
  by_cases h : org = ""
  · cases pak <;> simp [developmentLocations, PluginCache.developmentLocations, bytesOf_append, hempty, h]
  · have hne : bytesOf org ≠ [] := by simpa [bytesOf] using h
    cases pak <;> simp [developmentLocations, PluginCache.developmentLocations, bytesOf_append, hne, hslash, h]

/-- The locations that the plugin cache searches are these. -/
theorem searchListBuild_bytesOf (configured : List String) (org library : String) (pak : Bool) :
    searchListBuild (configured.map bytesOf) (bytesOf org) (bytesOf library) pak =
      (PluginCache.searchListBuild configured org library pak).map (List.map bytesOf) id := by
  rw [searchListBuild, PluginCache.searchListBuild, developmentLocations_bytesOf, Prod.map, List.map_append,
    List.length_map, id]

end text

end TheSeed.PluginName
