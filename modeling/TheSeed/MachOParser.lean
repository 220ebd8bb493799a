import TheSeed.MachOLayout

namespace TheSeed.MachOParser

open Bytes BoundedBytes MachOLayout

def requireFourBytes (bytes : List UInt8) : Outcome Unit :=
  rejectIf (bytes.length < 4) kFormat "File too small to be a Mach-O binary"

/-- The list with the names that are not yet in it, each once. -/
def addOnce (deps names : List (List UInt8)) : List (List UInt8) :=
  names.foldl (fun deps library => if deps.contains library then deps else deps ++ [library]) deps

/-- The names of the slices from the one with the number `i` on. -/
def namesOf (filePath : List UInt8) (form : ContainerForm) :
    Nat → List ContainerEntry → List (List UInt8) → Outcome (List (List UInt8))
  | _, [], deps => return deps
  | i, entry :: rest, deps =>
      if entry.slice.support ≠ .supported then
        let place := if form = .thin then "" else "slice " ++ toString i ++ " (" ++ archName entry.cputype ++ "): "
        .error (shownName filePath ++ ": " ++ place ++ declineText entry.slice.support)
      else
        namesOf filePath form (i + 1) rest (addOnce deps entry.slice.dylibs)

/-- `MachOParser::ListDependencies` on a file with these bytes. -/
def listDependencies (filePath bytes : List UInt8) : Outcome (List (List UInt8)) := do
  requireFourBytes bytes
  let container ← parseMachOContainer ⟨bytes, kFormat, "the file"⟩
  namesOf filePath container.form 0 container.entries []

end TheSeed.MachOParser
