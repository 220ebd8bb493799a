import Mathlib.Data.List.Sort
import TheSeed.BoundedBytes

namespace TheSeed.MachOLayout

open Bytes BoundedBytes

/-! The layout of a Mac program, read once from its bytes. -/

def kFormat : String := "Mach-O"

def kBytesThin64Little : Nat := 0xCFFAEDFE
def kBytesThin32Little : Nat := 0xCEFAEDFE
def kBytesThin64Big : Nat := 0xFEEDFACF
def kBytesThin32Big : Nat := 0xFEEDFACE
def kBytesFat32 : Nat := 0xCAFEBABE
def kBytesFat64 : Nat := 0xCAFEBABF

def kLcSegment64 : Nat := 0x19
def kLcCodeSignature : Nat := 0x1D
def kLcLoadDylib : Nat := 0x0C
def kLcLoadWeakDylib : Nat := 0x80000018
def kLcReexportDylib : Nat := 0x8000001F
def kLcLazyLoadDylib : Nat := 0x20
def kLcLoadUpwardDylib : Nat := 0x80000023

def kSectionTypeZeroFill : Nat := 0x01
def kSectionTypeGbZeroFill : Nat := 0x0C
def kSectionTypeTlsZeroFill : Nat := 0x12

def kHeader64Size : Nat := 32
def kLoadCommandHeaderSize : Nat := 8
def kSegment64CommandSize : Nat := 72
def kSection64Size : Nat := 80
def kDylibCommandMinSize : Nat := 24
def kCodeSignatureCommandSize : Nat := 16
def kFatArch32Size : Nat := 20
def kFatArch64Size : Nat := 32
def kFatHeaderSize : Nat := 8

/-- The largest slice count that a universal table may claim. -/
def kMaxFatArchCount : Nat := 256

inductive MachOKind
  | thin64Little
  | thin32Little
  | thin64Big
  | thin32Big
  | fat32
  | fat64
  | unknown
  deriving DecidableEq, Repr

def isThin : MachOKind → Bool
  | .thin64Little | .thin32Little | .thin64Big | .thin32Big => true
  | _ => false

/-- The kind that the first four bytes say, the first of them the most significant. -/
def kindOfMagic (magic : Nat) : MachOKind :=
  if magic = kBytesThin64Little then .thin64Little
  else if magic = kBytesThin32Little then .thin32Little
  else if magic = kBytesThin64Big then .thin64Big
  else if magic = kBytesThin32Big then .thin32Big
  else if magic = kBytesFat32 then .fat32
  else if magic = kBytesFat64 then .fat64
  else .unknown

def classifyMachOMagic (file : ByteSpan) : MachOKind :=
  if file.size < 4 then .unknown else kindOfMagic (beValue (slice file.bytes 0 4))

inductive SliceSupport
  | supported
  | bigEndian
  | thirtyTwoBit
  | thirtyTwoBitBigEndian
  deriving DecidableEq, Repr

def supportFor : MachOKind → SliceSupport
  | .thin64Little => .supported
  | .thin32Little => .thirtyTwoBit
  | .thin64Big => .bigEndian
  | _ => .thirtyTwoBitBigEndian

def declineKind : SliceSupport → String
  | .bigEndian => "big-endian"
  | .thirtyTwoBit => "32-bit"
  | .thirtyTwoBitBigEndian => "32-bit big-endian"
  | .supported => ""

def declineText (support : SliceSupport) : String :=
  declineKind support ++ " Mac programs are not supported (supported: 64-bit little-endian arm64 and x86-64, " ++
    "alone or in a universal file)"

def archName (cputype : Nat) : String :=
  if cputype = 0x0100000C then "arm64"
  else if cputype = 0x01000007 then "x86_64"
  else "cpu 0x" ++ String.ofList ((Nat.toDigits 16 cputype).map Char.toUpper)

structure LoadCommandEntry where
  offset : Nat
  cmd : Nat
  cmdsize : Nat
  deriving DecidableEq

structure SegmentLayout where
  commandOffset : Nat
  name : List UInt8
  vmaddr : Nat
  vmsize : Nat
  fileoff : Nat
  filesize : Nat
  deriving DecidableEq

structure CodeSignatureLayout where
  commandOffset : Nat
  dataoff : Nat
  datasize : Nat
  deriving DecidableEq

/-- One program. Of a declined one only base, size, CPU and support are set. -/
structure SliceLayout where
  base : Nat := 0
  size : Nat := 0
  support : SliceSupport := .supported
  cputype : Nat := 0
  cpusubtype : Nat := 0
  filetype : Nat := 0
  ncmds : Nat := 0
  sizeofcmds : Nat := 0
  headerEnd : Nat := 0
  commands : List LoadCommandEntry := []
  segments : List SegmentLayout := []
  text : Option SegmentLayout := none
  linkedit : Option SegmentLayout := none
  firstContent : Nat := 0
  codesig : Option CodeSignatureLayout := none
  dylibs : List (List UInt8) := []
  deriving DecidableEq

/-- The bytes between the end of the load commands and the first content. -/
def SliceLayout.freeHeaderSpace (layout : SliceLayout) : Nat := layout.firstContent - layout.headerEnd

/-- The bytes of a text. -/
def bytesOf (text : String) : List UInt8 := text.toList.map fun c => UInt8.ofNat c.toNat

/-- A name from a file, as a message shows it. -/
def shownName (name : List UInt8) : String := String.ofList (name.map fun b => Char.ofNat b.toNat)

def textName : List UInt8 := bytesOf "__TEXT"
def linkeditName : List UInt8 := bytesOf "__LINKEDIT"

/-! Load commands -/

def isReferenceCommand (cmd : Nat) : Bool :=
  cmd = kLcLoadDylib ∨ cmd = kLcLoadWeakDylib ∨ cmd = kLcReexportDylib ∨ cmd = kLcLazyLoadDylib ∨
    cmd = kLcLoadUpwardDylib

def referenceCommandName (cmd : Nat) : String :=
  if cmd = kLcLoadDylib then "LC_LOAD_DYLIB"
  else if cmd = kLcLoadWeakDylib then "LC_LOAD_WEAK_DYLIB"
  else if cmd = kLcReexportDylib then "LC_REEXPORT_DYLIB"
  else if cmd = kLcLazyLoadDylib then "LC_LAZY_LOAD_DYLIB"
  else "LC_LOAD_UPWARD_DYLIB"

def isZeroFill (sectionFlags : Nat) : Bool :=
  sectionFlags % 0x100 = kSectionTypeZeroFill ∨ sectionFlags % 0x100 = kSectionTypeGbZeroFill ∨
    sectionFlags % 0x100 = kSectionTypeTlsZeroFill

/-- The name of a segment command: at most 16 bytes, up to the first zero. -/
def segmentName (command : ByteSpan) : List UInt8 := (slice command.bytes 8 16).takeWhile fun b => b ≠ 0

/-- What a load command says. -/
inductive CommandInfo
  | segment (segment : SegmentLayout) (contents : List Nat) (problem : Option String)
  | signature (sig : CodeSignatureLayout)
  | reference (library : List UInt8)
  | other

/-- The file offsets that the sections of a segment count as content, from the section `s` on. -/
def sectionContents (command : ByteSpan) : Nat → Nat → Outcome (List Nat)
  | 0, _ => return []
  | remaining + 1, s => do
      let at_ := kSegment64CommandSize + s * kSection64Size
      let sectionOffset ← command.read 4 (at_ + 48) .little "section file offset"
      let sectionFlags ← command.read 4 (at_ + 64) .little "section flags"
      let rest ← sectionContents command remaining (s + 1)
      return if sectionOffset ≠ 0 ∧ isZeroFill sectionFlags = false then sectionOffset :: rest else rest

def readSegment (command : ByteSpan) (commandOffset i size : Nat) (scope : String) : Outcome CommandInfo := do
  let name := "LC_SEGMENT_64 command " ++ toString i
  rejectIf (command.size < kSegment64CommandSize) kFormat
    (name ++ " size " ++ toString command.size ++ " is smaller than 72")
  let vmaddr ← command.read 8 24 .little "segment address"
  let vmsize ← command.read 8 32 .little "segment size in memory"
  let fileoff ← command.read 8 40 .little "segment file offset"
  let filesize ← command.read 8 48 .little "segment file size"
  let nsects ← command.read 4 64 .little "section count"
  let segment : SegmentLayout := ⟨commandOffset, segmentName command, vmaddr, vmsize, fileoff, filesize⟩
  -- reported after the whole table is read
  let problem :=
    if rangeFits fileoff filesize size then none
    else some (name ++ " (" ++ shownName segment.name ++ ") file range extends past the end of " ++ scope)
  rejectIf (command.size < kSegment64CommandSize + nsects * kSection64Size) kFormat
    (name ++ " has " ++ toString nsects ++ " sections that do not fit in its " ++ toString command.size ++ " bytes")
  let sections ← sectionContents command nsects 0
  let contents := if segment.name ≠ textName ∧ 0 < filesize ∧ 0 < fileoff then fileoff :: sections else sections
  return .segment segment contents problem

def readSignature (command : ByteSpan) (commandOffset i size headerEnd : Nat) (scope : String) (signed : Bool) :
    Outcome CommandInfo := do
  let name := "LC_CODE_SIGNATURE command " ++ toString i
  rejectIf (command.size < kCodeSignatureCommandSize) kFormat
    (name ++ " size " ++ toString command.size ++ " is smaller than 16")
  rejectIf (signed = true) kFormat (name ++ " is a second LC_CODE_SIGNATURE command")
  let dataoff ← command.read 4 8 .little "signature offset"
  let datasize ← command.read 4 12 .little "signature size"
  rejectIf (rangeFits dataoff datasize size = false) kFormat
    (name ++ " data (offset " ++ toString dataoff ++ ", size " ++ toString datasize ++
      ") extends past the end of " ++ scope)
  rejectIf (datasize ≠ 0 ∧ dataoff < headerEnd) kFormat
    (name ++ " data at offset " ++ toString dataoff ++ " is inside the load commands")
  return .signature ⟨commandOffset, dataoff, datasize⟩

def readReference (command : ByteSpan) (cmd i : Nat) : Outcome CommandInfo := do
  let name := referenceCommandName cmd ++ " command " ++ toString i
  rejectIf (command.size < kDylibCommandMinSize) kFormat
    (name ++ " size " ++ toString command.size ++ " is smaller than 24")
  let nameOffset ← command.read 4 8 .little "dylib name offset"
  rejectIf (command.size ≤ nameOffset) kFormat
    (name ++ " has its name at offset " ++ toString nameOffset ++ ", outside the command of " ++
      toString command.size ++ " bytes")
  let library ← command.cString nameOffset command.size (name ++ " name")
  return .reference library

def readCommand (command : ByteSpan) (cmd commandOffset i size headerEnd : Nat) (scope : String) (signed : Bool) :
    Outcome CommandInfo :=
  if cmd = kLcSegment64 then readSegment command commandOffset i size scope
  else if cmd = kLcCodeSignature then readSignature command commandOffset i size headerEnd scope signed
  else if isReferenceCommand cmd then readReference command cmd i
  else return .other

/-- The command at `cursor` of the load command area. -/
def parseCommand (area : ByteSpan) (i cursor size headerEnd : Nat) (scope : String) (signed : Bool) :
    Outcome (LoadCommandEntry × CommandInfo) := do
  rejectIf (rangeFits cursor kLoadCommandHeaderSize area.size = false) kFormat
    ("load command " ++ toString i ++ " does not fit in the load command area of " ++ toString area.size ++ " bytes")
  let cmd ← area.read 4 cursor .little "load command"
  let cmdsize ← area.read 4 (cursor + 4) .little "load command size"
  rejectIf (cmdsize < kLoadCommandHeaderSize) kFormat
    ("load command " ++ toString i ++ " size " ++ toString cmdsize ++ " is smaller than 8" ++
      if cmdsize = 0 then "; this can be a program signed by an earlier version of the-seed; " ++
        "rebuild it from the unsigned original" else "")
  rejectIf (cmdsize % 4 ≠ 0) kFormat
    ("load command " ++ toString i ++ " size " ++ toString cmdsize ++ " is not a multiple of 4")
  rejectIf (rangeFits cursor cmdsize area.size = false) kFormat
    ("load command " ++ toString i ++ " size " ++ toString cmdsize ++ " runs past the end of the load commands")
  let command ← area.sub cursor cmdsize ("load command " ++ toString i)
  let info ← readCommand command cmd (kHeader64Size + cursor) i size headerEnd scope signed
  return (⟨kHeader64Size + cursor, cmd, cmdsize⟩, info)

/-- The layout with one more command. -/
def SliceLayout.record (layout : SliceLayout) (entry : LoadCommandEntry) (info : CommandInfo) : SliceLayout :=
  let layout := { layout with commands := layout.commands ++ [entry] }
  match info with
  | .segment segment contents _ =>
      let layout := {
        layout with
        firstContent := contents.foldl min layout.firstContent
        segments := layout.segments ++ [segment] }
      if segment.name = textName ∧ layout.text = none then { layout with text := some segment }
      else if segment.name = linkeditName ∧ layout.linkedit = none then { layout with linkedit := some segment }
      else layout
  | .signature sig => { layout with codesig := some sig }
  | .reference library => if library ∈ layout.dylibs then layout else { layout with dylibs := layout.dylibs ++ [library] }
  | .other => layout

def CommandInfo.problem : CommandInfo → Option String
  | .segment _ _ problem => problem
  | _ => none

/-- Where the walk over the load commands is. -/
structure Walk where
  cursor : Nat := 0
  layout : SliceLayout
  problem : Option String := none

/-- So many commands from the one with the number `i` on. -/
def parseCommands (area : ByteSpan) (size headerEnd : Nat) (scope : String) : Nat → Nat → Walk → Outcome Walk
  | 0, _, walk => return walk
  | remaining + 1, i, walk => do
      let (entry, info) ← parseCommand area i walk.cursor size headerEnd scope walk.layout.codesig.isSome
      parseCommands area size headerEnd scope remaining (i + 1) {
        cursor := walk.cursor + entry.cmdsize
        layout := walk.layout.record entry info
        problem := walk.problem <|> info.problem }

/-- The range `[base, base + size)` of the file. -/
def sliceView (file : ByteSpan) (base size : Nat) (scope : String) : Outcome ByteSpan :=
  if base = 0 ∧ size = file.size then .ok file else file.sub base size scope

/-- A program of the kind that is interpreted. -/
def parseSupported (view : ByteSpan) (layout : SliceLayout) (scope : String) : Outcome SliceLayout := do
  let _ ← view.sub 0 kHeader64Size "Mach-O header"
  let filetype ← view.read 4 12 .little "file type"
  let ncmds ← view.read 4 16 .little "load command count"
  let sizeofcmds ← view.read 4 20 .little "load command area size"
  let headerEnd := kHeader64Size + sizeofcmds
  let area ← view.sub kHeader64Size sizeofcmds "load commands"
  let walk ← parseCommands area layout.size headerEnd scope ncmds 0 {
    layout := { layout with filetype := filetype, ncmds := ncmds, sizeofcmds := sizeofcmds, headerEnd := headerEnd } }
  rejectIf (walk.cursor ≠ sizeofcmds) kFormat
    ("the " ++ toString ncmds ++ " load commands use " ++ toString walk.cursor ++ " bytes but the header says " ++
      toString sizeofcmds)
  match walk.problem with
  | some problem => throwMalformed kFormat problem
  | none => return walk.layout

/-- The program that occupies `[base, base + size)` of the file. -/
def parseMachOSlice (file : ByteSpan) (base size : Nat) (scope : String) : Outcome SliceLayout := do
  let view ← sliceView file base size scope
  let kind := classifyMachOMagic view
  rejectIf (isThin kind = false) kFormat "Not a single-arch Mach-O binary"
  let _ ← view.sub 0 12 "Mach-O header"
  let order : ByteOrder := if kind = .thin64Big ∨ kind = .thin32Big then .big else .little
  let cputype ← view.read 4 4 order "cpu type"
  let cpusubtype ← view.read 4 8 order "cpu subtype"
  let layout : SliceLayout := {
    base := base
    size := size
    support := supportFor kind
    cputype := cputype
    cpusubtype := cpusubtype
    firstContent := size }
  if layout.support = .supported then parseSupported view layout scope else return layout

/-! Containers -/

inductive ContainerForm
  | thin
  | fat32
  | fat64
  deriving DecidableEq, Repr

structure ContainerEntry where
  cputype : Nat := 0
  cpusubtype : Nat := 0
  offset : Nat := 0
  size : Nat := 0
  align : Nat := 0
  slice : SliceLayout := {}

structure MachOContainer where
  form : ContainerForm
  entries : List ContainerEntry

/-- The first four bytes of a candidate slice are a thin magic. -/
def startsWithThinMagic (file : ByteSpan) (offset size : Nat) : Bool :=
  rangeFits offset size file.size && decide (4 ≤ size) &&
    isThin (classifyMachOMagic ⟨slice file.bytes offset size, file.format, "slice"⟩)

def fatEntrySize (wide : Bool) : Nat := if wide then kFatArch64Size else kFatArch32Size

/-- The table entry at a place of the file. -/
def readFatEntry (file : ByteSpan) (wide : Bool) (place : Nat) : Outcome ContainerEntry := do
  let cputype ← file.read 4 place .big "fat_arch cpu type"
  let cpusubtype ← file.read 4 (place + 4) .big "fat_arch cpu subtype"
  if wide then
    let offset ← file.read 8 (place + 8) .big "fat_arch offset"
    let size ← file.read 8 (place + 16) .big "fat_arch size"
    let align ← file.read 4 (place + 24) .big "fat_arch alignment"
    return { cputype, cpusubtype, offset, size, align }
  else
    let offset ← file.read 4 (place + 8) .big "fat_arch offset"
    let size ← file.read 4 (place + 12) .big "fat_arch size"
    let align ← file.read 4 (place + 16) .big "fat_arch alignment"
    return { cputype, cpusubtype, offset, size, align }

/-- So many entries of the table from the one with the number `i` on. -/
def readFatEntries (file : ByteSpan) (wide : Bool) (tableEnd : Nat) : Nat → Nat → Outcome (List ContainerEntry)
  | 0, _ => return []
  | remaining + 1, i => do
      let entry ← readFatEntry file wide (kFatHeaderSize + i * fatEntrySize wide)
      rejectIf (i = 0 ∧ startsWithThinMagic file entry.offset entry.size = false) kFormat "File is not a Mach-O binary"
      let _ ← file.sub entry.offset entry.size ("fat slice " ++ toString i)
      rejectIf (entry.offset < tableEnd) kFormat
        ("fat slice " ++ toString i ++ " starts at offset " ++ toString entry.offset ++
          ", inside the fat header table that ends at " ++ toString tableEnd)
      let rest ← readFatEntries file wide tableEnd remaining (i + 1)
      return entry :: rest

/-- The entries with their numbers, in the order in which they lie in the file. -/
def byOffset (entries : List ContainerEntry) : List (ContainerEntry × Nat) :=
  entries.zipIdx.insertionSort fun a b => a.1.offset ≤ b.1.offset

/-- No two slices may share bytes. -/
def checkOverlap : List (ContainerEntry × Nat) → Outcome Unit
  | previous :: current :: rest => do
      rejectIf (current.1.offset < previous.1.offset + previous.1.size) kFormat
        ("fat slice " ++ toString previous.2 ++ " and fat slice " ++ toString current.2 ++ " overlap")
      checkOverlap (current :: rest)
  | _ => return

/-- The programs of the entries from the one with the number `i` on. -/
def parseSlices (file : ByteSpan) : Nat → List ContainerEntry → Outcome (List ContainerEntry)
  | _, [] => return []
  | i, entry :: rest => do
      let slice ← parseMachOSlice file entry.offset entry.size ("fat slice " ++ toString i)
      let rest ← parseSlices file (i + 1) rest
      return { entry with slice } :: rest

def parseMachOContainer (file : ByteSpan) : Outcome MachOContainer := do
  let kind := classifyMachOMagic file
  if isThin kind then
    let slice ← parseMachOSlice file 0 file.size "the file"
    return ⟨.thin, [{ cputype := slice.cputype, cpusubtype := slice.cpusubtype, size := file.size, slice }]⟩
  rejectIf (kind ≠ .fat32 ∧ kind ≠ .fat64) kFormat "File is not a Mach-O binary"
  let wide : Bool := kind = .fat64
  rejectIf (file.size < kFatHeaderSize) kFormat "Truncated fat header"
  let count ← file.read 4 4 .big "fat_arch count"
  -- a Java class file has a version number here
  rejectIf (count = 0 ∨ kMaxFatArchCount < count) kFormat "File is not a Mach-O binary"
  let tableEnd := kFatHeaderSize + count * fatEntrySize wide
  rejectIf (file.size < tableEnd) kFormat
    ("Truncated fat_arch entry table: " ++ toString count ++ " entries need " ++ toString tableEnd ++
      " bytes but the file has " ++ toString file.size)
  let entries ← readFatEntries file wide tableEnd count 0
  checkOverlap (byOffset entries)
  let entries ← parseSlices file 0 entries
  return ⟨if wide then .fat64 else .fat32, entries⟩

end TheSeed.MachOLayout
