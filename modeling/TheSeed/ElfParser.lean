import TheSeed.ByteSwap
import TheSeed.DependencyLister

namespace TheSeed.ElfParser

open Bytes Checked BoundedBytes ByteSwap
open DependencyLister (Text)

/-! The libraries that an ELF file names, in both classes and both byte orders. -/

def kFormat : String := "ELF"
def kMaxNameLength : Nat := 4096

def kEiClass : Nat := 4
def kEiData : Nat := 5
def kEiNident : Nat := 16
def kElfMag : List UInt8 := [0x7F, 0x45, 0x4C, 0x46]

def kElfClass32 : UInt8 := 1
def kElfClass64 : UInt8 := 2
def kElfData2Lsb : UInt8 := 1
def kElfData2Msb : UInt8 := 2

def kPtLoad : Nat := 1
def kPtDynamic : Nat := 2

def kDtNull : Int := 0
def kDtNeeded : Int := 1
def kDtStrtab : Int := 5
def kDtStrsz : Int := 10

/-- The packed structures of a class: their sizes, and the fields that are read. -/
structure Layout where
  ehdrSize : Nat
  ePhoff : Field
  ePhentsize : Field
  ePhnum : Field
  phdrSize : Nat
  pType : Field
  pOffset : Field
  pVaddr : Field
  pFilesz : Field
  pMemsz : Field
  dynSize : Nat
  dTag : Field
  dUn : Field

/-- `Elf32_Ehdr`, `Elf32_Phdr` and `Elf32_Dyn` -/
def elf32 : Layout where
  ehdrSize := 52
  ePhoff := ⟨28, 4⟩
  ePhentsize := ⟨42, 2⟩
  ePhnum := ⟨44, 2⟩
  phdrSize := 32
  pType := ⟨0, 4⟩
  pOffset := ⟨4, 4⟩
  pVaddr := ⟨8, 4⟩
  pFilesz := ⟨16, 4⟩
  pMemsz := ⟨20, 4⟩
  dynSize := 8
  dTag := ⟨0, 4⟩
  dUn := ⟨4, 4⟩

/-- `Elf64_Ehdr`, `Elf64_Phdr` and `Elf64_Dyn` -/
def elf64 : Layout where
  ehdrSize := 64
  ePhoff := ⟨32, 8⟩
  ePhentsize := ⟨54, 2⟩
  ePhnum := ⟨56, 2⟩
  phdrSize := 56
  pType := ⟨0, 4⟩
  pOffset := ⟨8, 8⟩
  pVaddr := ⟨16, 8⟩
  pFilesz := ⟨32, 8⟩
  pMemsz := ⟨40, 8⟩
  dynSize := 16
  dTag := ⟨0, 8⟩
  dUn := ⟨8, 8⟩

/-- A PT_LOAD segment whose file data has been checked to lie inside the file. -/
structure LoadSegment where
  vaddr : Nat
  filesz : Nat
  offset : Nat

def findFileBackedSegment (virtualAddress : Nat) (segments : List LoadSegment) : Option LoadSegment :=
  segments.find? fun segment =>
    decide (segment.vaddr ≤ virtualAddress) && decide (virtualAddress - segment.vaddr < segment.filesz)

/-- What the program headers say. -/
structure HeaderScan where
  dynamicOffset : Option Nat := none
  dynamicSize : Nat := 0
  loadSegments : List LoadSegment := []

/-- What the dynamic entries say. -/
structure DynamicScan where
  neededOffsets : List Nat := []
  stringTableVa : Option Nat := none
  stringTableSize : Option Nat := none

section parse

variable (host order : ByteOrder) (layout : Layout)

def headerStep (file table : ByteSpan) (phentsize index : Nat) (scan : HeaderScan) : Outcome HeaderScan := do
  let phdr ← readStructure table layout.phdrSize (index * phentsize) "program header"
  let pType := layout.pType.get host order phdr
  let pOffset := layout.pOffset.get host order phdr
  let pVaddr := layout.pVaddr.get host order phdr
  let pMemsz := layout.pMemsz.get host order phdr
  let pFilesz := layout.pFilesz.get host order phdr
  let scan ←
    if pType = kPtLoad then do
      rejectIf (rangeFits pOffset pFilesz file.size = false) kFormat
        ("PT_LOAD segment " ++ toString index ++ " file data (offset " ++ toString pOffset ++ ", size " ++
          toString pFilesz ++ ") extends past the end of the file (" ++ toString file.size ++ " bytes)")
      rejectIf (2 ^ 64 ≤ pVaddr + pMemsz) kFormat
        ("PT_LOAD segment " ++ toString index ++ " virtual address range overflows")
      pure { scan with loadSegments := scan.loadSegments ++ [⟨pVaddr, pFilesz, pOffset⟩] }
    else pure scan
  return if pType = kPtDynamic then { scan with dynamicOffset := some pOffset, dynamicSize := pFilesz } else scan

def headerLoop (file table : ByteSpan) (phentsize : Nat) : Nat → Nat → HeaderScan → Outcome HeaderScan
  | 0, _, scan => .ok scan
  | remaining + 1, index, scan => do
      let scan ← headerStep host order layout file table phentsize index scan
      headerLoop file table phentsize remaining (index + 1) scan

def dynamicLoop (dynamic : ByteSpan) : Nat → Nat → DynamicScan → Outcome DynamicScan
  | 0, _, scan => .ok scan
  | remaining + 1, index, scan => do
      let dyn ← readStructure dynamic layout.dynSize (index * layout.dynSize) "dynamic entry"
      let tag := signed layout.dTag.width (layout.dTag.get host order dyn)
      let value := layout.dUn.get host order dyn
      if tag = kDtNull then return scan
      dynamicLoop dynamic remaining (index + 1)
        (if tag = kDtNeeded then { scan with neededOffsets := scan.neededOffsets ++ [value] }
        else if tag = kDtStrtab then { scan with stringTableVa := some value }
        else if tag = kDtStrsz then { scan with stringTableSize := some value }
        else scan)

/-- The names, whose lengths may not add up to more than the file. -/
def nameLoop (file stringTable : ByteSpan) : List Nat → Nat → List Text → Outcome (List Text)
  | [], _, dependencies => .ok dependencies
  | neededOffset :: rest, totalNameBytes, dependencies => do
      let name ← stringTable.cString neededOffset kMaxNameLength "DT_NEEDED name"
      let totalNameBytes := totalNameBytes + name.length
      rejectIf (file.size < totalNameBytes) kFormat
        ("DT_NEEDED names total " ++ toString totalNameBytes ++ " bytes, more than the file (" ++
          toString file.size ++ " bytes)")
      nameLoop file stringTable rest totalNameBytes (dependencies ++ [name])

def dynamicNames (file : ByteSpan) (loadSegments : List LoadSegment) (scan : DynamicScan) : Outcome (List Text) :=
  match scan.stringTableVa with
  | none => throwMalformed kFormat "DT_STRTAB is missing from the dynamic section"
  | some stringTableVa =>
      match findFileBackedSegment stringTableVa loadSegments with
      | none =>
          throwMalformed kFormat
            ("DT_STRTAB address " ++ toString stringTableVa ++ " is not inside the file data of any PT_LOAD segment")
      | some segment => do
          let withinSegment := stringTableVa - segment.vaddr
          let rest := segment.filesz - withinSegment
          -- to the end of the segment's file data, or to DT_STRSZ when that is smaller
          let stringTableLength :=
            match scan.stringTableSize with
            | some stringTableSize => if stringTableSize < rest then stringTableSize else rest
            | none => rest
          let stringTable ← file.sub (segment.offset + withinSegment) stringTableLength "string table"
          nameLoop file stringTable scan.neededOffsets 0 []

def parseElf (file : ByteSpan) : Outcome (List Text) := do
  let header ← readStructure file layout.ehdrSize 0 "ELF header"
  let phoff := layout.ePhoff.get host order header
  let phentsize := layout.ePhentsize.get host order header
  let phnum := layout.ePhnum.get host order header
  rejectIf (phentsize < layout.phdrSize) kFormat
    ("program header entry size " ++ toString phentsize ++ " is smaller than the " ++ toString layout.phdrSize ++
      " bytes of a program header")
  rejectIf (2 ^ 64 ≤ phnum * phentsize) kFormat "program header table size overflows"
  let table ← file.sub phoff (phnum * phentsize) "program header table"
  let scan ← headerLoop host order layout file table phentsize phnum 0 {}
  match scan.dynamicOffset with
  | none => return []
  | some dynamicOffset =>
      if scan.dynamicSize = 0 then return []
      else
        let dynamic ← file.sub dynamicOffset scan.dynamicSize "PT_DYNAMIC segment"
        let entries ← dynamicLoop host order layout dynamic (dynamic.size / layout.dynSize) 0 {}
        dynamicNames file scan.loadSegments entries

end parse

/-- `host` is the byte order of the machine. -/
def listFromBytes (host : ByteOrder) (bytes : List UInt8) : Outcome (List Text) := do
  let file : ByteSpan := ⟨bytes, kFormat, "the file"⟩
  rejectIf (bytes.length < kEiNident) kFormat
    ("ELF header is too small (" ++ toString bytes.length ++ " bytes, " ++ toString kEiNident ++ " needed)")
  rejectIf (slice bytes 0 4 ≠ kElfMag) kFormat "ELF header magic is invalid"
  let elfClass := bytes.getD kEiClass 0
  let elfData := bytes.getD kEiData 0
  rejectIf (elfData ≠ kElfData2Lsb ∧ elfData ≠ kElfData2Msb) kFormat
    ("ELF header endianness " ++ toString elfData ++ " is not supported")
  let order := if elfData = kElfData2Lsb then ByteOrder.little else ByteOrder.big
  if elfClass = kElfClass32 then parseElf host order elf32 file
  else if elfClass = kElfClass64 then parseElf host order elf64 file
  else throwMalformed kFormat ("ELF header class " ++ toString elfClass ++ " is not supported")

/-- The guard of the entry point lets the errors of a malformed file through as they are. -/
def listDependenciesFromBytes (host : ByteOrder) (bytes : List UInt8) : Outcome (List Text) := listFromBytes host bytes

end TheSeed.ElfParser
