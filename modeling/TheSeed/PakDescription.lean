import TheSeed.Library.Bytes
import TheSeed.Library.Checked
import TheSeed.PakLoader

namespace TheSeed.PakDescription

open Bytes Checked
open PakLoader (PakStamp PakEntry ReadFailure)

/-! The description of a resource pak: `PakIndexRead` on a file that does not change while it is read. -/

def kDescriptionLimit : Nat := 64 * 1024 * 1024
def kChunkSize : Nat := 64 * 1024
def kNestingLimit : Nat := 64
def kUint64Max : Nat := 2 ^ 64 - 1
def kSizeMax : Nat := kUint64Max
def kNewline : UInt8 := 10

/-- A value of the JSON library. -/
inductive Json
  | null
  | boolean (value : Bool)
  | string (value : String)
  | numberInteger (value : Int64)
  | numberUnsigned (value : UInt64)
  | numberFloat
  | array (values : List Json)
  | object (members : List (String × Json))

/-- The JSON library on a line: a value with the depth of its nesting, or the text of an exception. -/
abbrev JsonParse := List UInt8 → Except String (Json × Nat)

structure PakFile where
  bytes : List UInt8
  stamp : PakStamp
  size_eq : stamp.size = bytes.length
  size_le : bytes.length ≤ kUint64Max

structure PakIndex extends PakLoader.PakIndex where
  byName : List (String × Nat)

abbrev Outcome := Except ReadFailure

def damaged {α : Type} (what : String) : Outcome α := .error (.damaged what)

def damagedIf (c : Prop) [Decidable c] (what : String) : Outcome Unit := if c then damaged what else .ok ()

def shortReadText (offset expected got : Nat) : String :=
  "file is shorter than its description: expected " ++ toString expected ++ " bytes at offset " ++ toString offset ++
    ", got " ++ toString got

def PakFile.readAt (file : PakFile) (offset count : Nat) : Outcome (List UInt8) :=
  if offset + count ≤ file.bytes.length then .ok (slice file.bytes offset count)
  else .error (.shortRead (shortReadText offset count (file.bytes.length - offset)))

/-- A short read while the description is looked for. -/
def catchShortRead {α : Type} : Outcome α → Outcome α
  | .error (.shortRead what) => damaged what
  | outcome => outcome

/-- Chunk after chunk up to the first newline before `scan`: the line and the offset just past that newline. The
first argument bounds the number of chunks. -/
def descriptionScan (file : PakFile) (scan : Nat) : Nat → Nat → List UInt8 → Outcome (Option (List UInt8 × Nat))
  | 0, _, _ => .ok none
  | chunks + 1, position, line =>
      if position < scan then do
        let count := min kChunkSize (scan - position)
        let chunk ← catchShortRead (file.readAt position count)
        match chunk.findIdx? (· == kNewline) with
        | some length => return some (line ++ chunk.take length, position + length + 1)
        | none => descriptionScan file scan chunks (position + count) (line ++ chunk)
      else .ok none

def descriptionRead (file : PakFile) (fileSize : Nat) : Outcome (List UInt8 × Nat) := do
  let scan := min fileSize kDescriptionLimit
  match ← descriptionScan file scan scan 0 [] with
  | some found => return found
  | none =>
      damagedIf (kDescriptionLimit < fileSize)
        ("description line is longer than " ++ toString kDescriptionLimit ++ " bytes")
      damaged ("no description line (no newline in the first " ++ toString fileSize ++ " bytes)")

def descriptionParse (parse : JsonParse) (line : List UInt8) : Outcome Json :=
  match parse line with
  | .error what => damaged ("description is not valid JSON: " ++ what)
  | .ok (description, depth) => do
      damagedIf (kNestingLimit < depth)
        ("description is nested deeper than " ++ toString kNestingLimit ++ " levels")
      return description

def digitOf (c : Char) : Nat := c.toNat - '0'.toNat

def isDigit (c : Char) : Bool := '0' ≤ c && c ≤ '9'

def digitsRead : List Char → Nat → Outcome Nat
  | [], value => .ok value
  | c :: rest, value =>
      if (kUint64Max - digitOf c) / 10 < value then damaged "\"headerSize\" is out of range"
      else digitsRead rest (value * 10 + digitOf c)

def headerSizeRead (description : List (String × Json)) : Outcome Nat :=
  match description.lookup "headerSize" with
  | none => damaged "\"headerSize\" is missing"
  | some (.string text) => do
      damagedIf (text = "" ∨ 20 < text.utf8ByteSize ∨ text.toList.all isDigit = false)
        "\"headerSize\" is not a string of decimal digits"
      digitsRead text.toList 0
  | some _ => damaged "\"headerSize\" is not a string of decimal digits"

def sizeRead (resource : List (String × Json)) (name : String) : Outcome Nat :=
  let refused := "resource \"" ++ name ++ "\" \"size\" is not a non-negative integer"
  match resource.lookup "size" with
  | none => damaged ("resource \"" ++ name ++ "\" has no \"size\"")
  | some (.numberUnsigned value) => .ok value.toNat
  | some (.numberInteger value) => do
      damagedIf (value.toInt < 0) refused
      return value.toInt.toNat
  | some _ => damaged refused

/-- What the loop over the resources has made so far. -/
structure Reading where
  entries : List PakEntry := []
  byName : List (String × Nat) := []
  running : Nat

def resourceRead (resource : Json) (position : Nat) (s : Reading) : Outcome Reading :=
  match resource with
  | .object members =>
      match members.lookup "name" with
      | none => damaged ("resource " ++ toString position ++ " has no \"name\"")
      | some (.string name) => do
          let size ← sizeRead members name
          damagedIf (s.byName.lookup name).isSome ("resource \"" ++ name ++ "\" appears more than once")
          damagedIf (kSizeMax < size ∨ kUint64Max - size < s.running)
            ("size of resource \"" ++ name ++ "\" is out of range")
          return { entries := s.entries ++ [⟨name, s.running, size⟩]
                   byName := s.byName ++ [(name, s.entries.length)]
                   running := s.running + size }
      | some _ => damaged ("resource " ++ toString position ++ " \"name\" is not a string")
  | _ => damaged ("resource " ++ toString position ++ " is not an object")

def resourcesRead : List Json → Nat → Reading → Outcome Reading
  | [], _, s => .ok s
  | resource :: rest, position, s => do
      let s ← resourceRead resource position s
      resourcesRead rest (position + 1) s

/-- `PakIndexRead` from the point where the description is an object. -/
def descriptionCheck (description : List (String × Json)) (descriptionEnd : Nat) (stamp : PakStamp) :
    Outcome PakIndex := do
  let fileSize := stamp.size
  let headerSize ← headerSizeRead description
  damagedIf (headerSize ≠ descriptionEnd)
    ("stated description length " ++ toString headerSize ++ " does not match the description's end at byte " ++
      toString descriptionEnd)
  match description.lookup "resources" with
  | none => damaged "\"resources\" is missing"
  | some (.array resources) => do
      let s ← resourcesRead resources 0 { running := headerSize }
      damagedIf (fileSize < s.running)
        ("the description claims " ++ toString s.running ++ " bytes but the file holds " ++ toString fileSize)
      damagedIf (s.running < fileSize)
        (toString (fileSize - s.running) ++ " bytes of unexplained data after the last resource")
      return { stamp, entries := s.entries, descriptionSize := headerSize, byName := s.byName }
  | some _ => damaged "\"resources\" is not an array"

def pakIndexRead (parse : JsonParse) (file : PakFile) : Outcome PakIndex := do
  let found ← descriptionRead file file.stamp.size
  let description ← descriptionParse parse found.1
  match description with
  | .object members => descriptionCheck members found.2 file.stamp
  | _ => damaged "description is not a JSON object"

end TheSeed.PakDescription
