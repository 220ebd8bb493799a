import TheSeed.CfbReader

namespace TheSeed.MsiAuthenticode

open Bytes BoundedBytes CfbReader

/-! The fingerprint of a package: the bytes of its streams in raw name order, each storage followed by
its class identifier. The two signature streams of the root do not count. -/

def hexDigit (n : Nat) : Char := "0123456789ABCDEF".toList.getD n '0'

/-- `\u%04X` -/
def escaped (unit : Nat) : String :=
  String.ofList ['\\', 'u', hexDigit (unit / 4096), hexDigit (unit / 256 % 16), hexDigit (unit / 16 % 16),
    hexDigit (unit % 16)]

def printableName (name : CfbName) : String :=
  String.join (name.1.map fun unit =>
    if 0x20 ≤ unit ∧ unit < 0x7F then String.singleton (Char.ofNat unit.toNat) else escaped unit.toNat)

/-- `\005DigitalSignature` -/
def msiSignatureName : CfbName :=
  ⟨[0x05, 0x44, 0x69, 0x67, 0x69, 0x74, 0x61, 0x6C, 0x53, 0x69, 0x67, 0x6E, 0x61, 0x74, 0x75, 0x72, 0x65], by
    decide⟩

/-- `\005MsiDigitalSignatureEx` -/
def msiSignatureExName : CfbName :=
  ⟨[0x05, 0x4D, 0x73, 0x69, 0x44, 0x69, 0x67, 0x69, 0x74, 0x61, 0x6C, 0x53, 0x69, 0x67, 0x6E, 0x61, 0x74, 0x75,
    0x72, 0x65, 0x45, 0x78], by decide⟩

def isMsiSignatureName (name : CfbName) : Bool := name = msiSignatureName ∨ name = msiSignatureExName

/-- The bytes of the UTF-16LE form in turn, the low byte of a unit first; on a common prefix the shorter. -/
def rawUnitsLess : List UInt16 → List UInt16 → Bool
  | a :: as, b :: bs =>
      if a = b then rawUnitsLess as bs
      else if a.toNat % 256 ≠ b.toNat % 256 then a.toNat % 256 < b.toNat % 256
      else a.toNat / 256 < b.toNat / 256
  | as, bs => as.length < bs.length

def rawNameLess (a b : CfbName) : Bool := rawUnitsLess a.1 b.1

/-- Two neighbours in the order of names must not be one name to it. -/
def rejectEqualNames (reason : String) (names : List CfbName) : Outcome Unit :=
  let sorted := names.insertionSort fun a b => compareNames a b ≠ .gt
  match (sorted.zip sorted.tail).find? fun pair => compareNames pair.1 pair.2 = .eq with
  | some pair =>
      throwMalformed kFormat
        ("the package holds two entries named \"" ++ printableName pair.2 ++ "\" in one storage; " ++ reason)
  | none => .ok ()

def rejectDuplicateNames (storage : CfbNode) : Outcome Unit :=
  rejectEqualNames "no fingerprint is defined" (storage.children.map CfbNode.name)

/-- A call to `Resolve` whose failure ends the caller too. -/
def resolveOrThrow (m : PackageModel) (stream : CfbNode) (u : Usage) : Outcome (ByteExtents × Usage) :=
  match m.resolve stream u with
  | (.ok extents, u) => .ok (extents, u)
  | (.error e, _) => .error e

/-- What a step feeds to the hash. -/
abbrev Feeding := Usage → Outcome (List UInt8 × Usage)

/-- A child, and what the walk of its own children feeds. -/
structure HashedChild where
  node : CfbNode
  inner : Feeding

def hashChildren (m : PackageModel) : List HashedChild → Feeding
  | [], u => .ok ([], u)
  | child :: rest, u =>
      if child.node.isStorage then do
        let fed ← child.inner u
        let more ← hashChildren m rest fed.2
        return (fed.1 ++ more.1, more.2)
      else do
        let resolved ← resolveOrThrow m child.node u
        let more ← hashChildren m rest resolved.2
        return (extentBytes m.source.bytes resolved.1 ++ more.1, more.2)

def hashSequence (m : PackageModel) (isRoot : Bool) (storage : CfbNode) (children : List HashedChild) :
    Feeding := fun u => do
  rejectDuplicateNames storage
  let kept := children.filter fun child => ¬(isRoot = true ∧ isMsiSignatureName child.node.name = true)
  let sorted := kept.insertionSort fun a b => rawNameLess b.node.name a.node.name = false
  let fed ← hashChildren m sorted u
  return (fed.1 ++ storage.classId.1, fed.2)

mutual

def hashStorage (m : PackageModel) (isRoot : Bool) : CfbNode → Feeding
  | ⟨name, isStorage, classId, stateBits, creationTime, modificationTime, startSector, size, children, treeRoot,
      left, right⟩ =>
      hashSequence m isRoot
        ⟨name, isStorage, classId, stateBits, creationTime, modificationTime, startSector, size, children, treeRoot,
          left, right⟩
        (hashedChildren m children)

def hashedChildren (m : PackageModel) : List CfbNode → List HashedChild
  | [] => []
  | child :: rest => ⟨child, hashStorage m false child⟩ :: hashedChildren m rest

end

/-- The bytes that the fingerprint of a package is the hash of. -/
def fingerprintInput (m : PackageModel) : Outcome (List UInt8) := do
  let fed ← hashStorage m true m.root {}
  return fed.1

def computeMsiFingerprint (hash : List UInt8 → List UInt8) (m : PackageModel) : Outcome (List UInt8) := do
  let fed ← fingerprintInput m
  return hash fed

end TheSeed.MsiAuthenticode
