import Mathlib.Data.List.Sort
import TheSeed.BoundedBytes
import TheSeed.Library.LinkedChain

namespace TheSeed.CfbReader

open Bytes BoundedBytes LinkedChain

/-! The reader of compound files. A model keeps where a stream starts and how long it is, and resolves
it to byte ranges of the source; which stream used which sector is state that each call passes on. -/

def kFormat : String := "MSI"

def kMagic : List UInt8 := [0xD0, 0xCF, 0x11, 0xE0, 0xA1, 0xB1, 0x1A, 0xE1]

def kCfbEndOfChain : Nat := 0xFFFFFFFE
def kCfbFreeSector : Nat := 0xFFFFFFFF
def kCfbNoStream : Nat := 0xFFFFFFFF
def kCfbMaxStorageDepth : Nat := 32

def kTypeUnknown : Nat := 0
def kTypeStorage : Nat := 1
def kTypeStream : Nat := 2
def kTypeRoot : Nat := 5

def kSectorExponentV3 : Nat := 9
def kSectorExponentV4 : Nat := 12
def kMiniSectorExponent : Nat := 6
def kMiniStreamCutoff : Nat := 4096
def kHeaderDifatEntries : Nat := 109
def kDirEntrySize : Nat := 128

/-- `CfbNode::kNone` -/
def kNone : Nat := 0xFFFFFFFF

def unitsFor (size unit : Nat) : Nat := size / unit + if size % unit ≠ 0 then 1 else 0

/-- The name of an entry: a directory entry has room for 31 units. -/
abbrev CfbName := { units : List UInt16 // units.length ≤ 31 }

def CfbName.empty : CfbName := ⟨[], Nat.zero_le _⟩

def CfbName.ofUnits (units : List UInt16) : CfbName :=
  ⟨units.take 31, by rw [List.length_take]; exact Nat.min_le_left _ _⟩

abbrev CfbClassId := { bytes : List UInt8 // bytes.length = 16 }

/-- An array of zeros with its first bytes set. -/
def CfbClassId.ofBytes (bytes : List UInt8) : CfbClassId :=
  ⟨(bytes ++ List.replicate 16 0).take 16, by simp⟩

structure CfbHeader where
  majorVersion : Nat := 0
  minorVersion : Nat := 0
  sectorSize : Nat := 0
  miniSectorSize : Nat := 0
  miniStreamCutoff : Nat := 0
deriving DecidableEq

structure ByteExtent where
  offset : Nat
  length : Nat
deriving DecidableEq

abbrev ByteExtents := List ByteExtent

/-- A storage or a stream. -/
structure CfbNode where
  name : CfbName
  isStorage : Bool := false
  classId : CfbClassId := CfbClassId.ofBytes []
  stateBits : UInt32 := 0
  creationTime : UInt64 := 0
  modificationTime : UInt64 := 0
  startSector : Nat := kCfbEndOfChain
  size : Nat := 0
  children : List CfbNode := []
  treeRoot : Nat := kNone
  left : Nat := kNone
  right : Nat := kNone

def upperCase (unit : UInt16) : UInt16 := if 0x61 ≤ unit ∧ unit ≤ 0x7A then unit - 32 else unit

def compareUnits : List UInt16 → List UInt16 → Ordering
  | a :: as, b :: bs =>
      if upperCase a ≠ upperCase b then
        if upperCase a < upperCase b then .lt else .gt
      else compareUnits as bs
  | _, _ => .eq

/-- Shorter names first, then by the units in upper case. -/
def compareNames (a b : CfbName) : Ordering :=
  if a.1.length ≠ b.1.length then
    if a.1.length < b.1.length then .lt else .gt
  else compareUnits a.1 b.1

def findByEnumeration (storage : CfbNode) (name : CfbName) : Option CfbNode :=
  storage.children.find? fun child => child.name = name

/-- The position that a search comes to in at most so many steps. -/
def searchFrom (children : List CfbNode) (name : CfbName) : Nat → Nat → Option Nat
  | 0, _ => none
  | steps + 1, position =>
      if position = kNone then none
      else
        match children[position]? with
        | none => none
        | some node =>
            match compareNames name node.name with
            | .eq => some position
            | .lt => searchFrom children name steps node.left
            | .gt => searchFrom children name steps node.right

/-- The position of the child that the search of the tree finds. -/
def findBySearch (storage : CfbNode) (name : CfbName) : Option Nat :=
  searchFrom storage.children name (storage.children.length + 1) storage.treeRoot

/-- What parsing a package gives. -/
structure PackageModel where
  source : ByteSpan
  header : CfbHeader := {}
  root : CfbNode := { name := CfbName.empty }
  firstDirSector : Nat := 0
  firstMiniFatSector : Nat := 0
  totalMiniFatSectors : Nat := 0
  firstDifatSector : Nat := 0
  totalDifatSectors : Nat := 0
  fatSectors : List Nat := []
  miniFat : List Nat := []
  miniContainerStart : Nat := kCfbEndOfChain
  miniContainerSize : Nat := 0

namespace PackageModel

def headerSize (m : PackageModel) : Nat := if m.header.majorVersion = 4 then 4096 else 512

/-- A partial last sector counts. -/
def sectorCount (m : PackageModel) : Nat :=
  if m.source.size ≤ m.headerSize then 0
  else (m.source.size - m.headerSize + m.header.sectorSize - 1) / m.header.sectorSize

def sectorStart (m : PackageModel) (sectorId : Nat) : Nat :=
  m.headerSize + sectorId * m.header.sectorSize

def sector (m : PackageModel) (sectorId length : Nat) (what : String) : Outcome ByteSpan := do
  rejectIf (m.sectorCount ≤ sectorId) kFormat
    (what ++ " " ++ toString sectorId ++ " is past the end of the file (" ++ toString m.sectorCount ++
      " sectors)")
  m.source.sub (m.sectorStart sectorId) length what

def fatSize (m : PackageModel) : Nat := m.fatSectors.length * (m.header.sectorSize / 4)

def fatEntry (m : PackageModel) (sectorId : Nat) : Outcome Nat :=
  let perSector := m.header.sectorSize / 4
  let fatSector := m.fatSectors.getD (sectorId / perSector) 0
  m.source.read 4 (m.sectorStart fatSector + sectorId % perSector * 4) .little "FAT entry"

/-- The FAT as a walk sees it. -/
def fatTable (m : PackageModel) (what : String) : Table String where
  stop := kCfbEndOfChain
  check current := do
    rejectIf (m.fatSize ≤ current) kFormat
      (what ++ " chain sector " ++ toString current ++ " is past the end of the FAT (" ++
        toString m.fatSize ++ " entries)")
    rejectIf (m.sectorCount ≤ current) kFormat
      (what ++ " chain sector " ++ toString current ++ " is past the end of the file (" ++
        toString m.sectorCount ++ " sectors)")
  next := m.fatEntry
  loop current := kFormat ++ ": " ++ what ++ " chain has a loop at sector " ++ toString current
  shared current := kFormat ++ ": sector " ++ toString current ++ " is used by more than one stream"
  unending := kFormat ++ ": " ++ what ++ " chain does not end"

/-- A walk visits each sector once at most, so it comes to an end within this many steps. -/
def walkChain (m : PackageModel) (startSector : Nat) (owner : Owners) (id : Nat) (what : String) :
    Outcome (List Nat) × Owners :=
  walk (m.fatTable what) id (m.sectorCount + 1) startSector owner

def followChain (m : PackageModel) (startSector : Nat) (what : String) : Outcome (List Nat) :=
  (m.walkChain startSector (fun _ => 0) 1 what).1

/-- The mini FAT as a walk sees it. -/
def miniFatTable (m : PackageModel) : Table String where
  stop := kCfbEndOfChain
  check current :=
    rejectIf (m.miniFat.length ≤ current) kFormat
      ("stream mini sector " ++ toString current ++ " is past the end of the mini-FAT (" ++
        toString m.miniFat.length ++ " entries)")
  next current := .ok (m.miniFat.getD current 0)
  loop current :=
    kFormat ++ ": stream mini-FAT chain has a loop at mini sector " ++ toString current
  shared current :=
    kFormat ++ ": mini sector " ++ toString current ++ " is used by more than one stream"
  unending := kFormat ++ ": stream mini-FAT chain does not end"

def walkMiniChain (m : PackageModel) (startSector : Nat) (owner : Owners) (id : Nat) :
    Outcome (List Nat) × Owners :=
  walk m.miniFatTable id (m.miniFat.length + 1) startSector owner

def checkChainLength (size chainLength unit : Nat) (unitName : String) : Outcome Unit := do
  rejectIf (chainLength < unitsFor size unit) kFormat
    ("stream size " ++ toString size ++ " exceeds its chain of " ++ toString chainLength ++ " " ++ unitName)
  rejectIf (unitsFor size unit < chainLength) kFormat
    ("stream size " ++ toString size ++ " disagrees with its chain of " ++ toString chainLength ++ " " ++
      unitName ++ " (it needs " ++ toString (unitsFor size unit) ++ ")")

end PackageModel

/-- Appends a range, joining it to the previous one when they touch. -/
def appendExtent (extents : ByteExtents) (offset length : Nat) : ByteExtents :=
  match extents.getLast? with
  | some last =>
      if last.offset + last.length = offset then
        extents.dropLast ++ [⟨last.offset, last.length + length⟩]
      else extents ++ [⟨offset, length⟩]
  | none => extents ++ [⟨offset, length⟩]

/-- The units of a chain one after the other, each placed by `place`, until `remaining` is used up. -/
def collectExtents (place : Nat → Nat → Outcome Nat) (unit : Nat) :
    List Nat → ByteExtents → Nat → Outcome ByteExtents
  | [], extents, _ => .ok extents
  | sector :: rest, extents, remaining => do
      let chunk := min unit remaining
      let offset ← place sector chunk
      collectExtents place unit rest (appendExtent extents offset chunk) (remaining - chunk)

/-- What the calls on a model have used so far. -/
structure Usage where
  sectorOwner : Owners := fun _ => 0
  miniOwner : Owners := fun _ => 0
  lastOwner : Nat := 0
  miniContainerChain : List Nat := []
  miniContainerReady : Bool := false

/-- `++last_owner` -/
def Usage.nextOwner (u : Usage) : Nat := (u.lastOwner + 1) % 2 ^ 32

namespace PackageModel

/-- A partial last sector is fine when the bytes that are needed are present. -/
def placeSector (m : PackageModel) (sector chunk : Nat) : Outcome Nat := do
  rejectIf (rangeFits (m.sectorStart sector) chunk m.source.size = false) kFormat
    ("stream sector " ++ toString sector ++ " extends past the end of the file (" ++
      toString m.source.size ++ " bytes)")
  return m.sectorStart sector

def resolveOrdinary (m : PackageModel) (stream : CfbNode) (u : Usage) : Outcome ByteExtents × Usage :=
  let id := u.nextOwner
  let walked := m.walkChain stream.startSector u.sectorOwner id "stream"
  (do
    let chain ← walked.1
    checkChainLength stream.size chain.length m.header.sectorSize "sectors"
    collectExtents m.placeSector m.header.sectorSize chain [] stream.size,
   { u with sectorOwner := walked.2, lastOwner := id })

/-- The sectors of the mini stream hold what is recorded as its size. -/
def checkContainer (m : PackageModel) : List Nat → Nat → Outcome Unit
  | [], _ => .ok ()
  | sector :: rest, remaining => do
      let chunk := min m.header.sectorSize remaining
      let _ ← m.placeSector sector chunk
      checkContainer m rest (remaining - chunk)

def containerChain (m : PackageModel) (walked : Outcome (List Nat)) : Outcome (List Nat) := do
  let chain ← walked
  let needed := unitsFor m.miniContainerSize m.header.sectorSize
  rejectIf (chain.length < needed) kFormat
    ("stream size " ++ toString m.miniContainerSize ++ " exceeds its chain of " ++ toString chain.length ++
      " sectors")
  m.checkContainer (chain.take needed) m.miniContainerSize
  return chain

def ensureMiniStream (m : PackageModel) (u : Usage) : Outcome Unit × Usage :=
  if u.miniContainerReady then (.ok (), u)
  else if m.miniContainerSize ≠ 0 then
    let id := u.nextOwner
    let walked := m.walkChain m.miniContainerStart u.sectorOwner id "stream"
    let u := { u with sectorOwner := walked.2, lastOwner := id }
    match m.containerChain walked.1 with
    | .error e => (.error e, u)
    | .ok chain => (.ok (), { u with miniContainerChain := chain, miniContainerReady := true })
  else (.ok (), { u with miniContainerReady := true })

def placeMiniSector (m : PackageModel) (container : List Nat) (miniSector chunk : Nat) : Outcome Nat := do
  let position := miniSector * m.header.miniSectorSize
  rejectIf (rangeFits position chunk m.miniContainerSize = false) kFormat
    ("stream mini sector " ++ toString miniSector ++ " extends past the end of the mini stream (" ++
      toString m.miniContainerSize ++ " bytes)")
  let sector := container.getD (position / m.header.sectorSize) 0
  return m.sectorStart sector + position % m.header.sectorSize

def resolveMini (m : PackageModel) (stream : CfbNode) (u : Usage) : Outcome ByteExtents × Usage :=
  match m.ensureMiniStream u with
  | (.error e, u) => (.error e, u)
  | (.ok _, u) =>
      let id := u.nextOwner
      let walked := m.walkMiniChain stream.startSector u.miniOwner id
      (do
        let chain ← walked.1
        checkChainLength stream.size chain.length m.header.miniSectorSize "mini sectors"
        collectExtents (m.placeMiniSector u.miniContainerChain) m.header.miniSectorSize chain [] stream.size,
       { u with miniOwner := walked.2, lastOwner := id })

def resolve (m : PackageModel) (stream : CfbNode) (u : Usage) : Outcome ByteExtents × Usage :=
  if stream.isStorage ∨ stream.size = 0 then (.ok [], u)
  else if stream.size < m.header.miniStreamCutoff then m.resolveMini stream u
  else m.resolveOrdinary stream u

end PackageModel

/-- The bytes of ranges of the source. -/
def extentBytes (source : List UInt8) (extents : ByteExtents) : List UInt8 :=
  extents.flatMap fun extent => slice source extent.offset extent.length

def PackageModel.readStream (m : PackageModel) (stream : CfbNode) (u : Usage) :
    Outcome (List UInt8) × Usage :=
  let resolved := m.resolve stream u
  (do
    let extents ← resolved.1
    let parts ← extents.mapM fun extent => m.source.sub extent.offset extent.length "stream data"
    return parts.flatMap ByteSpan.bytes,
   resolved.2)

/-! Parsing -/

structure DirEntry where
  name : CfbName := CfbName.empty
  type : Nat := kTypeUnknown
  left : Nat := kCfbNoStream
  right : Nat := kCfbNoStream
  child : Nat := kCfbNoStream
  startSector : Nat := 0
  size : Nat := 0
  classId : CfbClassId := CfbClassId.ofBytes []
  stateBits : UInt32 := 0
  creationTime : UInt64 := 0
  modificationTime : UInt64 := 0

def checkMagic (file : ByteSpan) : Outcome Unit :=
  (List.range 8).forM fun i => do
    let byte ← file.read 1 i .little "signature"
    rejectIf (byte ≠ (kMagic.getD i 0).toNat) kFormat "signature is not the compound file magic"

def parseHeader (m : PackageModel) : Outcome PackageModel := do
  let file := m.source
  rejectIf (file.size < 512) kFormat
    ("file is too small for the header (" ++ toString file.size ++ " bytes)")
  checkMagic file
  let minorVersion ← file.read 2 24 .little "minor version"
  let majorVersion ← file.read 2 26 .little "major version"
  let byteOrder ← file.read 2 28 .little "byte order"
  rejectIf (byteOrder ≠ 0xFFFE) kFormat ("byte order mark " ++ toString byteOrder ++ " is not 65534")
  let sectorPower ← file.read 2 30 .little "sector size exponent"
  let miniPower ← file.read 2 32 .little "mini-sector exponent"
  rejectIf (sectorPower ≠ kSectorExponentV3 ∧ sectorPower ≠ kSectorExponentV4) kFormat
    ("sector size exponent " ++ toString sectorPower ++ " is not 9 or 12")
  rejectIf (majorVersion ≠ 3 ∧ majorVersion ≠ 4) kFormat
    ("major version " ++ toString majorVersion ++ " is not 3 or 4")
  rejectIf (decide (majorVersion = 3) ≠ decide (sectorPower = kSectorExponentV3)) kFormat
    ("sector size exponent " ++ toString sectorPower ++ " does not match major version " ++
      toString majorVersion)
  rejectIf (miniPower ≠ kMiniSectorExponent) kFormat
    ("mini-sector exponent " ++ toString miniPower ++ " is not 6")
  rejectIf (file.size < if majorVersion = 4 then 4096 else 512) kFormat
    ("file is too small for the version 4 header (" ++ toString file.size ++ " bytes)")
  let firstDirSector ← file.read 4 48 .little "first directory sector"
  let miniStreamCutoff ← file.read 4 56 .little "mini-stream cutoff"
  let firstMiniFatSector ← file.read 4 60 .little "first mini-FAT sector"
  let totalMiniFatSectors ← file.read 4 64 .little "mini-FAT sector count"
  let firstDifatSector ← file.read 4 68 .little "first DIFAT sector"
  let totalDifatSectors ← file.read 4 72 .little "DIFAT sector count"
  rejectIf (miniStreamCutoff ≠ kMiniStreamCutoff) kFormat
    ("mini-stream cutoff " ++ toString miniStreamCutoff ++ " is not 4096")
  return { m with
    header := ⟨majorVersion, minorVersion, 2 ^ sectorPower, 2 ^ miniPower, miniStreamCutoff⟩
    firstDirSector, firstMiniFatSector, totalMiniFatSectors, firstDifatSector, totalDifatSectors }

/-- The table entries from `base` on, up to the first that is free or ends a chain, `count` at most. -/
def readListed (span : ByteSpan) : Nat → Nat → Outcome (List Nat)
  | 0, _ => .ok []
  | count + 1, base => do
      let entry ← span.read 4 base .little "DIFAT entry"
      if entry = kCfbFreeSector ∨ entry = kCfbEndOfChain then return []
      let rest ← readListed span count (base + 4)
      return entry :: rest

/-- The entries listed by the chain of extra index sectors, `count` sectors at most. -/
def readDifat (m : PackageModel) : Nat → Nat → List Nat → Outcome (List Nat)
  | 0, _, _ => .ok []
  | count + 1, difatSector, seen => do
      if difatSector = kCfbEndOfChain ∨ difatSector = kCfbFreeSector then return []
      let sector ← m.sector difatSector m.header.sectorSize "DIFAT sector"
      rejectIf (difatSector ∈ seen) kFormat
        ("DIFAT chain has a loop at sector " ++ toString difatSector)
      let listed ← readListed sector (m.header.sectorSize / 4 - 1) 0
      let next ← sector.read 4 (m.header.sectorSize - 4) .little "next DIFAT sector"
      let rest ← readDifat m count next (difatSector :: seen)
      return listed ++ rest

/-- Each FAT sector lies inside the file and is listed once. -/
def checkFatSectors (m : PackageModel) : List Nat → List Nat → Outcome Unit
  | [], _ => .ok ()
  | fatSector :: rest, used => do
      let _ ← m.sector fatSector m.header.sectorSize "FAT sector"
      rejectIf (fatSector ∈ used) kFormat ("FAT sector " ++ toString fatSector ++ " is listed twice")
      checkFatSectors m rest (fatSector :: used)

def readExtended (m : PackageModel) : Outcome (List Nat) :=
  if 0 < m.totalDifatSectors ∧ m.firstDifatSector ≠ kCfbEndOfChain then
    readDifat m m.totalDifatSectors m.firstDifatSector []
  else .ok []

def buildFat (m : PackageModel) : Outcome PackageModel := do
  let listed ← readListed m.source kHeaderDifatEntries 76
  let extended ← readExtended m
  checkFatSectors m (listed ++ extended) []
  return { m with fatSectors := listed ++ extended }

def readMiniFatSector (m : PackageModel) (sectorId : Nat) : Outcome (List Nat) := do
  let sector ← m.sector sectorId m.header.sectorSize "mini-FAT sector"
  (List.range (m.header.sectorSize / 4)).mapM fun i => sector.read 4 (i * 4) .little "mini-FAT entry"

def buildMiniFat (m : PackageModel) : Outcome PackageModel := do
  if m.firstMiniFatSector = kCfbEndOfChain ∨ m.totalMiniFatSectors = 0 then
    return { m with miniFat := [] }
  let chain ← m.followChain m.firstMiniFatSector "mini-FAT"
  let parts ← chain.mapM (readMiniFatSector m)
  return { m with miniFat := parts.flatten }

/-- The name is UTF-16LE in 64 bytes; its size counts the terminator. -/
def readEntryName (sector : ByteSpan) (base : Nat) : Outcome CfbName := do
  let nameSize ← sector.read 2 (base + 64) .little "directory entry name size"
  if 2 ≤ nameSize ∧ nameSize ≤ 64 then
    let units ← (List.range (nameSize / 2 - 1)).mapM fun c =>
      sector.read 2 (base + c * 2) .little "directory entry name"
    return CfbName.ofUnits (units.map UInt16.ofNat)
  else return CfbName.ofUnits []

def parseDirEntry (m : PackageModel) (sector : ByteSpan) (base : Nat) : Outcome DirEntry := do
  let name ← readEntryName sector base
  let type ← sector.read 1 (base + 66) .little "directory entry type"
  let left ← sector.read 4 (base + 68) .little "left sibling"
  let right ← sector.read 4 (base + 72) .little "right sibling"
  let child ← sector.read 4 (base + 76) .little "child"
  let classId ← (List.range 16).mapM fun b => sector.read 1 (base + 80 + b) .little "class identifier"
  let stateBits ← sector.read 4 (base + 96) .little "state bits"
  let creationTime ← sector.read 8 (base + 100) .little "creation time"
  let modificationTime ← sector.read 8 (base + 108) .little "modification time"
  let startSector ← sector.read 4 (base + 116) .little "start sector"
  let size ← sector.read (if m.header.majorVersion = 4 then 8 else 4) (base + 120) .little "stream size"
  return {
    name, type, left, right, child, startSector, size
    classId := CfbClassId.ofBytes (classId.map UInt8.ofNat)
    stateBits := UInt32.ofNat stateBits
    creationTime := UInt64.ofNat creationTime
    modificationTime := UInt64.ofNat modificationTime }

def parseDirectorySector (m : PackageModel) (sectorId : Nat) : Outcome (List DirEntry) := do
  let sector ← m.sector sectorId m.header.sectorSize "directory sector"
  (List.range (m.header.sectorSize / kDirEntrySize)).mapM fun i => parseDirEntry m sector (i * kDirEntrySize)

def parseDirectory (m : PackageModel) : Outcome (List DirEntry) := do
  let chain ← m.followChain m.firstDirSector "directory"
  let parts ← chain.mapM (parseDirectorySector m)
  return parts.flatten

structure Frame where
  id : Nat
  stage : Nat

/-- The entries the tree has reached so far. -/
abbrev Visited := Nat → Bool

def pushEntry (directory : List DirEntry) (visited : Visited) (stack : List Frame) (id : Nat) :
    Outcome (Visited × List Frame) := do
  if id = kCfbNoStream then return (visited, stack)
  rejectIf (directory.length ≤ id) kFormat
    ("directory entry link " ++ toString id ++ " is past the end of the directory (" ++
      toString directory.length ++ " entries)")
  rejectIf (visited id = true) kFormat
    ("directory entry " ++ toString id ++ " is reached twice from the root")
  rejectIf ((directory.getD id {}).type = kTypeUnknown) kFormat
    ("directory entry " ++ toString id ++ " is unused but the tree reaches it")
  return (Function.update visited id true, ⟨id, 0⟩ :: stack)

/-- The walk of a search tree with an explicit stack, its top first. Each entry is on top three times. -/
def readOrder (directory : List DirEntry) : Nat → Visited → List Frame → List Nat →
    Outcome (List Nat × Visited)
  | 0, _, _, _ => throwMalformed kFormat "the directory tree does not end"
  | _ + 1, visited, [], order => .ok (order, visited)
  | steps + 1, visited, ⟨id, stage⟩ :: rest, order =>
      let entry := directory.getD id {}
      if stage = 0 then do
        let pushed ← pushEntry directory visited (⟨id, 1⟩ :: rest) entry.left
        readOrder directory steps pushed.1 pushed.2 order
      else if stage = 1 then readOrder directory steps visited (⟨id, 2⟩ :: rest) (order ++ [id])
      else do
        let pushed ← pushEntry directory visited rest entry.right
        readOrder directory steps pushed.1 pushed.2 order

/-- The children of a storage, the root of their tree, and what the walk has reached. -/
abbrev StorageRead := List CfbNode × Nat × Visited

/-- The entries that become nodes, each with its position in the directory. -/
def readNodes (inner : Nat → Visited → Outcome StorageRead) (directory : List DirEntry) :
    List Nat → Visited → Outcome (List (Nat × CfbNode) × Visited)
  | [], visited => .ok ([], visited)
  | id :: rest, visited =>
      let entry := directory.getD id {}
      let node : CfbNode := {
        name := entry.name
        classId := entry.classId
        stateBits := entry.stateBits
        creationTime := entry.creationTime
        modificationTime := entry.modificationTime }
      if entry.type = kTypeStorage then do
        let read ← inner id visited
        let nodes ← readNodes inner directory rest read.2.2
        return ((id, { node with isStorage := true, children := read.1, treeRoot := read.2.1 }) :: nodes.1, nodes.2)
      else if entry.type = kTypeStream then do
        let nodes ← readNodes inner directory rest visited
        return ((id, { node with startSector := entry.startSector, size := entry.size }) :: nodes.1, nodes.2)
      else readNodes inner directory rest visited

/-- The position of a directory entry among the nodes. -/
def lookup (source : List Nat) (id : Nat) : Nat :=
  match source.idxOf? id with
  | some position => position % 2 ^ 32
  | none => kNone

def linkNode (directory : List DirEntry) (source : List Nat) (node : Nat × CfbNode) : CfbNode :=
  { node.2 with
    left := lookup source (directory.getD node.1 {}).left
    right := lookup source (directory.getD node.1 {}).right }

/-- `levels` counts down what `depth` counts up in the source. -/
def readStorage (directory : List DirEntry) : Nat → Nat → Visited → Outcome StorageRead
  | 0, _, _ =>
      throwMalformed kFormat
        ("storages are nested too deep (more than " ++ toString kCfbMaxStorageDepth ++ " levels)")
  | levels + 1, storageIndex, visited => do
      let child := (directory.getD storageIndex {}).child
      if child = kCfbNoStream then return ([], kNone, visited)
      let pushed ← pushEntry directory visited [] child
      let walked ← readOrder directory (3 * directory.length + 1) pushed.1 pushed.2 []
      let nodes ← readNodes (readStorage directory levels) directory walked.1 walked.2
      let source := nodes.1.map Prod.fst
      return (nodes.1.map (linkNode directory source), lookup source child, nodes.2)

def buildTree (m : PackageModel) (directory : List DirEntry) : Outcome PackageModel := do
  let root := directory.getD 0 {}
  rejectIf (directory = [] ∨ root.type ≠ kTypeRoot) kFormat "directory entry 0 is not the root storage"
  let read ← readStorage directory kCfbMaxStorageDepth 0 (Function.update (fun _ => false) 0 true)
  return { m with
    root := {
      name := root.name
      isStorage := true
      classId := root.classId
      stateBits := root.stateBits
      creationTime := root.creationTime
      modificationTime := root.modificationTime
      children := read.1
      treeRoot := read.2.1 }
    miniContainerStart := root.startSector
    miniContainerSize := root.size }

def parse (bytes : List UInt8) : Outcome PackageModel := do
  let m ← parseHeader { source := ⟨bytes, kFormat, "the file"⟩ }
  let m ← buildFat m
  let m ← buildMiniFat m
  let directory ← parseDirectory m
  buildTree m directory

end TheSeed.CfbReader
