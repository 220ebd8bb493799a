import TheSeed.MsiAuthenticode

namespace TheSeed.CfbWriter

open Bytes BoundedBytes CfbReader MsiAuthenticode

/-! The writer of compound files: a package is written whole from a model, region after region, then
parsed again and compared with what was meant. -/

def kColourBlack : Nat := 1
def kFatSector : Nat := 0xFFFFFFFD
def kDifatSector : Nat := 0xFFFFFFFC
def kMiniSectorSize : Nat := 64
def kCfbMaxSectors : Nat := 0xFFFFFFFA

/-- Part of the bytes of a stream. -/
abbrev Piece := List UInt8

/-- A directory entry of the output. -/
structure Entry where
  node : CfbNode
  pieces : List Piece := []
  children : List Nat := []
  size : Nat := 0
  inMiniStream : Bool := false
  start : Nat := kCfbEndOfChain
  left : Nat := kCfbNoStream
  right : Nat := kCfbNoStream
  child : Nat := kCfbNoStream

structure Layout where
  sectorSize : Nat := 0
  headerSize : Nat := 0
  entriesPerIndexSector : Nat := 0
  streamSectors : Nat := 0
  miniSectors : Nat := 0
  miniStreamStart : Nat := 0
  miniStreamSectors : Nat := 0
  miniIndexStart : Nat := 0
  miniIndexSectors : Nat := 0
  directoryStart : Nat := 0
  directorySectors : Nat := 0
  difatStart : Nat := 0
  difatSectors : Nat := 0
  fatStart : Nat := 0
  fatSectors : Nat := 0
  totalSectors : Nat := 0

/-! The tree of entries -/

/-- The entries so far, and what the resolved streams have used. -/
abbrev Flattened := List Entry × Usage

/-- The expansion of a storage whose entry has the given position. -/
abbrev Expansion := Nat → Flattened → Outcome Flattened

/-- An element of a sequence: a node of the model, or the new signature with its blob. -/
structure Item where
  node : CfbNode
  blob : Option (List UInt8) := none
  inner : Expansion := fun _ s => .ok s

def checkUniqueNames (sequence : List Item) : Outcome Unit :=
  rejectEqualNames "refusing to rebuild" (sequence.map fun item => item.node.name)

def makeEntry (m : PackageModel) (item : Item) (u : Usage) : Outcome (Entry × Usage) :=
  if item.node.isStorage then .ok ({ node := item.node }, u)
  else
    match item.blob with
    | some blob => .ok ({ node := item.node, size := blob.length, pieces := [blob] }, u)
    | none => do
        let resolved ← resolveOrThrow m item.node u
        let pieces := resolved.1.map fun extent => slice m.source.bytes extent.offset extent.length
        return ({ node := item.node, size := item.node.size, pieces }, resolved.2)

def pushEntries (m : PackageModel) : List Item → Flattened → Outcome Flattened
  | [], s => .ok s
  | item :: rest, s => do
      let made ← makeEntry m item s.2
      pushEntries m rest (s.1 ++ [made.1], made.2)

def expandItems : List (Nat × Item) → Flattened → Outcome Flattened
  | [], s => .ok s
  | (position, item) :: rest, s =>
      if item.node.isStorage then do
        let s ← item.inner position s
        expandItems rest s
      else expandItems rest s

/-- The entries of one storage get positions next to each other, in the order of names; then the same
for each of its storages. -/
def expandSequence (m : PackageModel) (parent : Nat) (sequence : List Item) : Flattened → Outcome Flattened :=
  fun s => do
    checkUniqueNames sequence
    let sorted := sequence.insertionSort fun a b => compareNames a.node.name b.node.name ≠ .gt
    let positions := (List.range' s.1.length sorted.length).map (· % 2 ^ 32)
    let s ← pushEntries m sorted s
    let entries := s.1.modify parent fun entry => { entry with children := positions }
    expandItems (positions.zip sorted) (entries, s.2)

mutual

def expand (m : PackageModel) : CfbNode → Expansion
  | ⟨_, _, _, _, _, _, _, _, children, _, _, _⟩ => fun parent => expandSequence m parent (items m children)

def items (m : PackageModel) : List CfbNode → List Item
  | [] => []
  | child :: rest => { node := child, inner := expand m child } :: items m rest

end

def signatureItem (blob : List UInt8) : Item where
  node := { name := msiSignatureName, size := blob.length }
  blob := some blob

/-- The root's signature streams are replaced, never copied. -/
def rootSequence (m : PackageModel) (signature : Option (List UInt8)) : List Item :=
  let sequence := (items m m.root.children).filter fun item => isMsiSignatureName item.node.name = false
  match signature with
  | none => sequence
  | some blob =>
      let before := sequence.takeWhile fun item => compareNames msiSignatureName item.node.name ≠ .lt
      before ++ signatureItem blob :: sequence.drop before.length

/-- `Flattener::Run` -/
def flatten (m : PackageModel) (signature : Option (List UInt8)) : Outcome (List Entry) := do
  let s ← expandSequence m 0 (rootSequence m signature) ([{ node := m.root }], {})
  return s.1

/-- The middle entry is the root of the tree, the halves are its subtrees. The first argument bounds the
length of the part. -/
def buildTree (sequence : List Nat) : Nat → Nat → Nat → List Entry → Nat × List Entry
  | 0, _, _, entries => (kCfbNoStream, entries)
  | bound + 1, low, high, entries =>
      if high ≤ low then (kCfbNoStream, entries)
      else
        let middle := (low + high) / 2
        let position := sequence.getD middle 0
        let left := buildTree sequence bound low middle entries
        let right := buildTree sequence bound (middle + 1) high left.2
        (position, right.2.modify position fun entry => { entry with left := left.1, right := right.1 })

/-! Layout -/

def Entry.isOrdinary (header : CfbHeader) (entry : Entry) : Bool :=
  !(entry.node.isStorage || entry.size = 0 || entry.size < header.miniStreamCutoff)

def Entry.isMini (header : CfbHeader) (entry : Entry) : Bool :=
  !(entry.node.isStorage || entry.size = 0 || entry.size ≥ header.miniStreamCutoff)

/-- One run of units for each entry that `chosen` picks, in order; gives the first unit after them too. -/
def placeEntries (chosen : Entry → Bool) (place : Nat → Entry → Entry) (unit : Nat) :
    Nat → List Entry → List Entry × Nat
  | next, [] => ([], next)
  | next, entry :: rest =>
      if chosen entry then
        let placed := placeEntries chosen place unit (next + unitsFor entry.size unit) rest
        (place next entry :: placed.1, placed.2)
      else
        let placed := placeEntries chosen place unit next rest
        (entry :: placed.1, placed.2)

def placeOrdinary (header : CfbHeader) (entries : List Entry) : List Entry × Nat :=
  placeEntries (Entry.isOrdinary header) (fun sector entry => { entry with start := sector % 2 ^ 32 })
    header.sectorSize 0 entries

def placeMini (header : CfbHeader) (entries : List Entry) : List Entry × Nat :=
  placeEntries (Entry.isMini header)
    (fun mini entry => { entry with inMiniStream := true, start := mini % 2 ^ 32 }) kMiniSectorSize 0 entries

/-- The allocation index lists itself and the extended index, and the extended index grows with it. -/
def indexSectors (others entriesPerIndexSector : Nat) : Nat → Nat → Nat → Nat × Nat
  | 0, fat, difat => (fat, difat)
  | steps + 1, fat, _ =>
      let listed := if kHeaderDifatEntries < fat then fat - kHeaderDifatEntries else 0
      let difat := unitsFor listed (entriesPerIndexSector - 1)
      let next := unitsFor (others + difat + fat) entriesPerIndexSector
      if next = fat then (fat, difat) else indexSectors others entriesPerIndexSector steps next difat

/-- The regions one after the other. -/
def layOut (header : CfbHeader) (streamSectors miniSectors entryCount : Nat) : Layout :=
  let entriesPerIndexSector := header.sectorSize / 4
  let miniStreamStart := streamSectors
  let miniStreamSectors := unitsFor (miniSectors * kMiniSectorSize) header.sectorSize
  let miniIndexStart := miniStreamStart + miniStreamSectors
  let miniIndexSectors := unitsFor miniSectors entriesPerIndexSector
  let directoryStart := miniIndexStart + miniIndexSectors
  let directorySectors := unitsFor entryCount (header.sectorSize / kDirEntrySize)
  let difatStart := directoryStart + directorySectors
  let index := indexSectors difatStart entriesPerIndexSector 64 0 0
  { sectorSize := header.sectorSize
    headerSize := if header.majorVersion = 4 then 4096 else 512
    entriesPerIndexSector, streamSectors, miniSectors, miniStreamStart, miniStreamSectors, miniIndexStart,
    miniIndexSectors, directoryStart, directorySectors, difatStart
    difatSectors := index.2
    fatStart := difatStart + index.2
    fatSectors := index.1
    totalSectors := difatStart + index.2 + index.1 }

def computeLayout (header : CfbHeader) (entries : List Entry) : Outcome (Layout × List Entry) := do
  let ordinary := placeOrdinary header entries
  let mini := placeMini header ordinary.1
  let layout := layOut header ordinary.2 mini.2 entries.length
  rejectIf (kCfbMaxSectors < layout.totalSectors) kFormat
    ("the package needs " ++ toString layout.totalSectors ++ " sectors; the format allows at most " ++
      toString kCfbMaxSectors)
  return (layout, mini.1)

/-! Serialisation. A slot or a region is made from zeros, then put at its place in the output. -/

def writeDirectoryEntry (entry : Entry) (isRoot : Bool) (layout : Layout) : List UInt8 :=
  let node := entry.node
  let slot := List.replicate kDirEntrySize 0
  let slot := overwrite slot 0 (node.name.1.flatMap fun unit => leBytes 2 unit.toNat)
  let slot := overwrite slot 64 (leBytes 2 ((node.name.1.length + 1) * 2))
  let slot := overwrite slot 66
    (leBytes 1 (if isRoot then kTypeRoot else if node.isStorage then kTypeStorage else kTypeStream))
  let slot := overwrite slot 67 (leBytes 1 kColourBlack)
  let slot := overwrite slot 68 (leBytes 4 entry.left)
  let slot := overwrite slot 72 (leBytes 4 entry.right)
  let slot := overwrite slot 76 (leBytes 4 entry.child)
  let slot := overwrite slot 80 node.classId.1
  let slot := overwrite slot 96 (leBytes 4 node.stateBits.toNat)
  let slot := overwrite slot 100 (leBytes 8 node.creationTime.toNat)
  let slot := overwrite slot 108 (leBytes 8 node.modificationTime.toNat)
  if isRoot then
    let slot := overwrite slot 116
      (leBytes 4 (if layout.miniSectors = 0 then kCfbEndOfChain else layout.miniStreamStart))
    overwrite slot 120 (leBytes 8 (layout.miniSectors * kMiniSectorSize))
  else if node.isStorage then overwrite slot 116 (leBytes 4 0)
  else overwrite (overwrite slot 116 (leBytes 4 entry.start)) 120 (leBytes 8 entry.size)

def writeUnusedEntry : List UInt8 :=
  let slot := List.replicate kDirEntrySize 0
  let slot := overwrite slot 68 (leBytes 4 kCfbNoStream)
  let slot := overwrite slot 72 (leBytes 4 kCfbNoStream)
  let slot := overwrite slot 76 (leBytes 4 kCfbNoStream)
  overwrite slot 116 (leBytes 4 kCfbFreeSector)

/-- The value at each position of an index. -/
abbrev Index := Nat → Nat

/-- A run of consecutive sectors, each with the number of the next. -/
def setRun (index : Index) (first count : Nat) : Index := fun i =>
  if first ≤ i ∧ i < first + count then
    if i + 1 = first + count then kCfbEndOfChain else (i + 1) % 2 ^ 32
  else index i

def setAll (index : Index) (first count value : Nat) : Index := fun i =>
  if first ≤ i ∧ i < first + count then value else index i

def indexBytes (index : Index) (count : Nat) : List UInt8 :=
  (List.range count).flatMap fun i => leBytes 4 (index i)

def Layout.sectorAt (layout : Layout) (sector : Nat) : Nat := layout.headerSize + sector * layout.sectorSize

/-- The child of each storage is the root of the tree of its entries. -/
def linkTrees : List Nat → List Entry → List Entry
  | [], entries => entries
  | i :: rest, entries =>
      match entries[i]? with
      | none => linkTrees rest entries
      | some entry =>
          if entry.node.isStorage then
            let built := buildTree entry.children entry.children.length 0 entry.children.length entries
            linkTrees rest (built.2.modify i fun entry => { entry with child := built.1 })
          else linkTrees rest entries

def allocationIndex (entries : List Entry) (layout : Layout) : Index :=
  let fat := entries.foldl (fun fat entry =>
    if !entry.node.isStorage && !entry.inMiniStream && entry.size ≠ 0 then
      setRun fat entry.start (unitsFor entry.size layout.sectorSize)
    else fat) fun _ => kCfbFreeSector
  let fat := setRun fat layout.miniStreamStart layout.miniStreamSectors
  let fat := setRun fat layout.miniIndexStart layout.miniIndexSectors
  let fat := setRun fat layout.directoryStart layout.directorySectors
  let fat := setAll fat layout.difatStart layout.difatSectors kDifatSector
  setAll fat layout.fatStart layout.fatSectors kFatSector

def miniIndex (entries : List Entry) : Index :=
  entries.foldl (fun index entry =>
    if !(entry.node.isStorage || entry.size = 0) && entry.inMiniStream then
      setRun index entry.start (unitsFor entry.size kMiniSectorSize)
    else index) fun _ => kCfbFreeSector

def writeStreams (layout : Layout) (entries : List Entry) (out : List UInt8) : List UInt8 :=
  entries.foldl (fun out entry =>
    if entry.node.isStorage || entry.size = 0 then out
    else if entry.inMiniStream then
      overwrite out (layout.sectorAt layout.miniStreamStart + entry.start * kMiniSectorSize) entry.pieces.flatten
    else overwrite out (layout.sectorAt entry.start) entry.pieces.flatten) out

def directoryBytes (entries : List Entry) (layout : Layout) : List UInt8 :=
  (List.range (layout.directorySectors * (layout.sectorSize / kDirEntrySize))).flatMap fun i =>
    match entries[i]? with
    | some entry => writeDirectoryEntry entry (i = 0) layout
    | none => writeUnusedEntry

/-- A sector of the extended index. -/
def difatSectorBytes (layout : Layout) (d : Nat) : List UInt8 :=
  let perDifat := layout.entriesPerIndexSector - 1
  indexBytes (fun j =>
    let listed := kHeaderDifatEntries + d * perDifat + j
    if listed < layout.fatSectors then layout.fatStart + listed else kCfbFreeSector) perDifat ++
  leBytes 4 (if d + 1 < layout.difatSectors then layout.difatStart + d + 1 else kCfbEndOfChain)

def headerBytes (m : PackageModel) (layout : Layout) : List UInt8 :=
  let header := m.header
  let head := List.replicate 512 0
  let head := overwrite head 0 kMagic
  let head := overwrite head 8 (slice m.source.bytes 8 16)
  let head := overwrite head 24 (leBytes 2 header.minorVersion)
  let head := overwrite head 26 (leBytes 2 header.majorVersion)
  let head := overwrite head 28 (leBytes 2 0xFFFE)
  let head := overwrite head 30 (leBytes 2 (if header.majorVersion = 4 then 12 else 9))
  let head := overwrite head 32 (leBytes 2 6)
  let head := overwrite head 40 (leBytes 4 (if header.majorVersion = 4 then layout.directorySectors else 0))
  let head := overwrite head 44 (leBytes 4 layout.fatSectors)
  let head := overwrite head 48 (leBytes 4 layout.directoryStart)
  let head := overwrite head 52 (slice m.source.bytes 52 4)
  let head := overwrite head 56 (leBytes 4 header.miniStreamCutoff)
  let head := overwrite head 60
    (leBytes 4 (if layout.miniIndexSectors = 0 then kCfbEndOfChain else layout.miniIndexStart))
  let head := overwrite head 64 (leBytes 4 layout.miniIndexSectors)
  let head := overwrite head 68 (leBytes 4 (if layout.difatSectors = 0 then kCfbEndOfChain else layout.difatStart))
  let head := overwrite head 72 (leBytes 4 layout.difatSectors)
  overwrite head 76
    (indexBytes (fun i => if i < layout.fatSectors then layout.fatStart + i else kCfbFreeSector) kHeaderDifatEntries)

def serialise (m : PackageModel) (entries : List Entry) (layout : Layout) : List UInt8 :=
  let entries := linkTrees (List.range entries.length) entries
  let out := List.replicate (layout.headerSize + layout.totalSectors * layout.sectorSize) 0
  let out := writeStreams layout entries out
  let out := overwrite out (layout.sectorAt layout.miniIndexStart)
    (indexBytes (miniIndex entries) (layout.miniIndexSectors * layout.entriesPerIndexSector))
  let out := overwrite out (layout.sectorAt layout.directoryStart) (directoryBytes entries layout)
  let out := overwrite out (layout.sectorAt layout.fatStart)
    (indexBytes (allocationIndex entries layout) (layout.fatSectors * layout.entriesPerIndexSector))
  let out := overwrite out (layout.sectorAt layout.difatStart)
    ((List.range layout.difatSectors).flatMap (difatSectorBytes layout))
  overwrite out 0 (headerBytes m layout)

/-! The self-check -/

def throwDifference {α : Type} (name : CfbName) (what : String) : Outcome α :=
  throwMalformed kFormat
    ("internal error: the rebuilt package differs from the intended one (" ++ what ++ " of \"" ++
      printableName name ++ "\")")

def differIf (c : Prop) [Decidable c] (name : CfbName) (what : String) : Outcome Unit :=
  if c then throwDifference name what else .ok ()

/-- What remains of two lists of pieces is compared as far as the shorter first piece goes; the first
argument bounds the number of rounds. -/
def samePieces : Nat → List Piece → List Piece → Bool
  | rounds + 1, x :: xs, y :: ys =>
      let take := min x.length y.length
      if x.take take ≠ y.take take then false
      else samePieces rounds (if take = x.length then xs else x.drop take :: xs)
        (if take = y.length then ys else y.drop take :: ys)
  | _, xs, ys => xs.dropWhile List.isEmpty = [] && ys.dropWhile List.isEmpty = []

def sameBytes (a b : List Piece) : Bool := samePieces (a.length + b.length) a b

/-- The comparison of what was read with the entry at a position. -/
abbrev Comparison := Nat → Usage → Outcome Usage

def compareStream (check : PackageModel) (entry : Entry) (got : CfbNode) (u : Usage) : Outcome Usage := do
  differIf (entry.size ≠ got.size) entry.node.name "size"
  let resolved ← resolveOrThrow check got u
  let written := resolved.1.map fun extent => slice check.source.bytes extent.offset extent.length
  differIf (sameBytes entry.pieces written = false) entry.node.name "bytes"
  return resolved.2

/-- A child as it was read, with its comparison. -/
structure ComparedChild where
  node : CfbNode
  inner : Comparison

def entryAt (entries : List Entry) (position : Nat) : Entry :=
  entries.getD position { node := { name := CfbName.empty } }

/-- Each child, from the one numbered `i` on, is found by a search and is what was meant. -/
def compareChildren (entries : List Entry) (got : CfbNode) :
    Nat → List (Nat × ComparedChild) → Usage → Outcome Usage
  | _, [], u => .ok u
  | i, (position, child) :: rest, u => do
      let name := (entryAt entries position).node.name
      differIf (findBySearch got name ≠ some i) name "place in the search tree"
      let u ← child.inner position u
      compareChildren entries got (i + 1) rest u

def compareWith (entries : List Entry) (check : PackageModel) (got : CfbNode) (children : List ComparedChild) :
    Comparison := fun position u => do
  let entry := entryAt entries position
  let want := entry.node
  differIf (want.name ≠ got.name) want.name "name"
  differIf (want.isStorage ≠ got.isStorage) want.name "kind"
  differIf (want.classId ≠ got.classId) want.name "class identifier"
  differIf (want.stateBits ≠ got.stateBits) want.name "state bits"
  differIf (want.creationTime ≠ got.creationTime ∨ want.modificationTime ≠ got.modificationTime) want.name "times"
  if want.isStorage then do
    differIf (entry.children.length ≠ children.length) want.name "entry count"
    compareChildren entries got 0 (entry.children.zip children) u
  else compareStream check entry got u

mutual

def compareEntry (entries : List Entry) (check : PackageModel) : CfbNode → Comparison
  | ⟨name, isStorage, classId, stateBits, creationTime, modificationTime, startSector, size, children, treeRoot,
      left, right⟩ =>
      compareWith entries check
        ⟨name, isStorage, classId, stateBits, creationTime, modificationTime, startSector, size, children, treeRoot,
          left, right⟩
        (comparedChildren entries check children)

def comparedChildren (entries : List Entry) (check : PackageModel) : List CfbNode → List ComparedChild
  | [] => []
  | child :: rest => ⟨child, compareEntry entries check child⟩ :: comparedChildren entries check rest

end

/-- The output before its self-check. -/
def rebuild (m : PackageModel) (signature : Option (List UInt8)) : Outcome (List Entry × List UInt8) := do
  let entries ← flatten m signature
  let laid ← computeLayout m.header entries
  return (laid.2, serialise m laid.2 laid.1)

def writeCfb (m : PackageModel) (signature : Option (List UInt8)) : Outcome (List UInt8) := do
  let signature := signature.filter fun blob => blob ≠ []
  let built ← rebuild m signature
  let check ← parse built.2
  let _ ← compareEntry built.1 check check.root 0 {}
  return built.2

end TheSeed.CfbWriter
