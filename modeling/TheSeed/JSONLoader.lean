import TheSeed.PakDescription

namespace TheSeed.JSONLoader

open PakDescription (Json)

/-! `JSONLoader`: a scene is read, checked and made as a whole before the container is touched. -/

inductive Reason
  | sceneUnopenable
  | sceneNotUnderstood
  | sceneComponentFailed
  deriving DecidableEq

/-- The locations, the kind and the missing names of these errors are empty. -/
structure LoadError where
  reason : Reason
  name : String
  file : String
  detail : String
  deriving DecidableEq

/-- What leaves a call: an exception that is not a `std::exception` passes through. -/
inductive Failure
  | load (error : LoadError)
  | other
  deriving DecidableEq

structure Component (β : Type) where
  type : String
  body : β

/-- What `ComponentLoader::Create` gives. -/
inductive Created (β : Type)
  | made (component : Component β)
  | null
  | threw (what : String)
  | threwOther

/-- One component made from the scene, waiting to be attached. -/
structure Staged (β : Type) where
  handle : String
  component : Component β

/-- What the loader calls: the JSON library, `ComponentLoader::Create` with its own state, and the container, where
`entity` finds the entity of a handle or makes it. -/
structure World (σ κ β : Type) where
  parse : List UInt8 → Except String Json
  create : String → Json → σ → Created β × σ
  entity : String → κ → κ
  attach : String → Component β → κ → κ

structure State (σ κ : Type) where
  loader : σ
  container : κ

variable {σ κ β : Type}

def textName : String := "scene text"

def quoted (text : String) : String := "\"" ++ text ++ "\""

def entityLabel (index : Nat) : String := "entity " ++ toString index

def unopenable {α : Type} (file reason : String) : Except Failure α := .error (.load ⟨.sceneUnopenable, file, file, reason⟩)

def notUnderstood {α : Type} (file reason : String) : Except Failure α :=
  .error (.load ⟨.sceneNotUnderstood, file, file, reason⟩)

/-! Phase 2: the structure of the whole document -/

def checkNames (source label : String) : List (String × Json) → Except Failure Unit
  | [] => .ok ()
  | (key, _) :: rest =>
      if key = "" then notUnderstood source (label ++ ": a component name is empty")
      else checkNames source label rest

def checkComponents (source label : String) (members : List (String × Json)) : Except Failure Unit :=
  match members.lookup "Components" with
  | none => notUnderstood source (label ++ ": \"Components\" is missing")
  | some (.object components) => checkNames source label components
  | some _ => notUnderstood source (label ++ ": \"Components\" must be an object")

def checkEntity (source : String) (index : Nat) : Json → Except Failure Unit
  | .object members =>
      match members.lookup "Handle" with
      | some (.string handle) =>
          if handle = "" then notUnderstood source (entityLabel index ++ ": \"Handle\" must be a non-empty string")
          else checkComponents source (entityLabel index ++ " (" ++ quoted handle ++ ")") members
      | _ => notUnderstood source (entityLabel index ++ ": \"Handle\" must be a non-empty string")
  | _ => notUnderstood source (entityLabel index ++ " must be an object")

def checkEntities (source : String) : Nat → List Json → Except Failure Unit
  | _, [] => .ok ()
  | index, entity :: rest => do
      checkEntity source index entity
      checkEntities source (index + 1) rest

/-- The entities of a document that is a scene. -/
def checkDocument (source : String) (document : Json) : Except Failure (List Json) :=
  match document with
  | .object members =>
      match members.lookup "entities" with
      | none => notUnderstood source "\"entities\" is missing"
      | some (.array entities) => do
          checkEntities source 0 entities
          return entities
      | some _ => notUnderstood source "\"entities\" must be an array"
  | _ => notUnderstood source "\"entities\" is missing"

/-! Phase 3: every component is made -/

/-- `entity["Handle"]` of an entity that was checked -/
def handleOf : Json → String
  | .object members =>
      match members.lookup "Handle" with
      | some (.string handle) => handle
      | _ => ""
  | _ => ""

/-- `entity["Components"].items()` of an entity that was checked -/
def componentsOf : Json → List (String × Json)
  | .object members =>
      match members.lookup "Components" with
      | some (.object components) => components
      | _ => []
  | _ => []

/-- What is wrong with what the plugin gave; nothing is said to be wrong with an object or an empty text. -/
def problemOf : Created β → String
  | .made component => if component.type = "" then "component type is empty" else ""
  | .threw what => what
  | .null | .threwOther => ""

def componentFailed {α : Type} (source handle type problem : String) : Except Failure α :=
  .error (.load ⟨.sceneComponentFailed, source, source,
    "entity " ++ quoted handle ++ ", component " ++ quoted type ++ ": " ++ problem⟩)

/-- The object, or the error of the first problem. -/
def accept (source handle type : String) (created : Created β) : Except Failure (Component β) :=
  match created with
  | .threwOther => .error .other
  | .made component =>
      if problemOf created = "" then .ok component
      else componentFailed source handle type (problemOf created)
  | .null | .threw _ =>
      if problemOf created = "" then componentFailed source handle type "the plugin produced no object"
      else componentFailed source handle type (problemOf created)

def stageComponents (world : World σ κ β) (source handle : String) :
    List (String × Json) → σ → List (Staged β) → Except Failure (List (Staged β)) × σ
  | [], loader, staged => (.ok staged, loader)
  | (type, config) :: rest, loader, staged =>
      let (created, loader) := world.create type config loader
      match accept source handle type created with
      | .error failure => (.error failure, loader)
      | .ok component => stageComponents world source handle rest loader (staged ++ [⟨handle, component⟩])

def stageEntities (world : World σ κ β) (source : String) :
    List Json → σ → List (Staged β) → Except Failure (List (Staged β)) × σ
  | [], loader, staged => (.ok staged, loader)
  | entity :: rest, loader, staged =>
      match stageComponents world source (handleOf entity) (componentsOf entity) loader staged with
      | (.error failure, loader) => (.error failure, loader)
      | (.ok staged, loader) => stageEntities world source rest loader staged

/-! Phase 4: the entities are made, and the components attached -/

def createEntities (world : World σ κ β) (entities : List Json) (container : κ) : κ :=
  entities.foldl (fun container entity => world.entity (handleOf entity) container) container

def attachAll (world : World σ κ β) (staged : List (Staged β)) (container : κ) : κ :=
  staged.foldl (fun container item => world.attach item.handle item.component (world.entity item.handle container)) container

def load (world : World σ κ β) (data : List UInt8) (source : String) (s : State σ κ) : Except Failure Unit × State σ κ :=
  match world.parse data with
  | .error what => (notUnderstood source what, s)
  | .ok document =>
      match checkDocument source document with
      | .error failure => (.error failure, s)
      | .ok entities =>
          match stageEntities world source entities s.loader [] with
          | (.error failure, loader) => (.error failure, { s with loader })
          | (.ok staged, loader) =>
              (.ok (), { loader, container := attachAll world staged (createEntities world entities s.container) })

/-! The calls -/

inductive FileType
  | none
  | notFound
  | regular
  | directory
  | other
  deriving DecidableEq

/-- The file system for one call: the type of a file with the text of the error, if any, the text of `ENOENT`, and
what opening and reading the file gives: the parts, and the text of the error that ended them, if any. -/
structure FileSystem where
  status : String → FileType × Option String
  noEntry : String
  open_ : String → Except String (List (List UInt8) × Option String)

/-- Part after part until one is empty. -/
def readParts : List (List UInt8) → List UInt8 → List UInt8
  | [], data => data
  | part :: rest, data => if part = [] then data else readParts rest (data ++ part)

def fileRead (files : FileSystem) (filename : String) : Except Failure (List UInt8) :=
  let (type, ec) := files.status filename
  if type = .directory then unopenable filename "it is a directory"
  else if type = .notFound ∨ (ec.isSome ∧ type = .none) then unopenable filename (ec.getD files.noEntry)
  else if ec.isNone ∧ type ≠ .regular then unopenable filename "it is not a regular file"
  else
    match files.open_ filename with
    | .error reason => unopenable filename reason
    | .ok (_, some reason) => unopenable filename reason
    | .ok (parts, none) => .ok (readParts parts [])

inductive Call
  | stringParse (data : List UInt8)
  | fileParse (filename : String) (files : FileSystem)

/-- The text of the scene. -/
def Call.text : Call → Except Failure (List UInt8)
  | .stringParse data => .ok data
  | .fileParse filename files => fileRead files filename

def Call.source : Call → String
  | .stringParse _ => textName
  | .fileParse filename _ => filename

def Call.run (world : World σ κ β) (call : Call) (s : State σ κ) : Except Failure Unit × State σ κ :=
  match call.text with
  | .error failure => (.error failure, s)
  | .ok data => load world data call.source s

end TheSeed.JSONLoader
