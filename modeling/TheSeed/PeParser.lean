import TheSeed.ByteSwap
import TheSeed.DependencyLister

namespace TheSeed.PeParser

open Bytes Checked BoundedBytes ByteSwap
open DependencyLister (Text)

/-! The libraries that a PE file names, in both optional header formats: its imports and its delay-load imports. -/

def kFormat : String := "PE"
def kMaxNameLength : Nat := 4096
def kDelayImportDirectory : Nat := 13
def kDelayDescriptorSize : Nat := 32
def kDelayAttributeRvaForm : Nat := 1

def kImageDosSignature : Nat := 0x5A4D
def kImageNtSignature : Nat := 0x00004550
def kImageNtOptionalHdr32Magic : Nat := 0x10B
def kImageNtOptionalHdr64Magic : Nat := 0x20B

def sizeOfDosHeader : Nat := 64
def eLfanew : Field := ⟨60, 4⟩

def sizeOfFileHeader : Nat := 20
def numberOfSections : Field := ⟨2, 2⟩
def sizeOfOptionalHeader : Field := ⟨16, 2⟩

def sizeOfDataDirectory : Nat := 8
def directoryVirtualAddress : Field := ⟨0, 4⟩
def directorySize : Field := ⟨4, 4⟩

def sizeOfSectionHeader : Nat := 40
def sectionVirtualSize : Field := ⟨8, 4⟩
def sectionVirtualAddress : Field := ⟨12, 4⟩
def sectionSizeOfRawData : Field := ⟨16, 4⟩
def sectionPointerToRawData : Field := ⟨20, 4⟩

def sizeOfImportDescriptor : Nat := 20
def importOriginalFirstThunk : Field := ⟨0, 4⟩
def importTimeDateStamp : Field := ⟨4, 4⟩
def importForwarderChain : Field := ⟨8, 4⟩
def importName : Field := ⟨12, 4⟩
def importFirstThunk : Field := ⟨16, 4⟩

def lowerByte (c : UInt8) : UInt8 := if 'A'.toUInt8 ≤ c ∧ c ≤ 'Z'.toUInt8 then c - 'A'.toUInt8 + 'a'.toUInt8 else c

def lowerAscii (text : Text) : Text := text.map lowerByte

section parse

variable (host : ByteOrder)

/-- `FromLittleEndian` of a number of `width` bytes. -/
def fromLittleEndian (width value : Nat) : Nat := byteSwapIfNeeded host .little width value

/-- The addresses that a section covers, from the copy of its header. -/
def covers (header : List UInt8) (rva : Nat) : Bool :=
  let virtualAddress := sectionVirtualAddress.get host .little header
  let span := max (sectionVirtualSize.get host .little header) (sectionSizeOfRawData.get host .little header)
  decide (virtualAddress ≤ rva) && decide (rva < virtualAddress + span)

/-- The first section that covers the address decides. -/
def rvaToOffset (sections : List (List UInt8)) (sizeOfHeaders fileSize rva : Nat) (what : String) : Outcome Nat :=
  let notInside := what ++ " RVA " ++ toString rva ++ " is not inside the file (" ++ toString fileSize ++ " bytes)"
  if rva < sizeOfHeaders ∧ rva < fileSize then .ok rva
  else
    match sections.find? (covers host · rva) with
    | none => throwMalformed kFormat notInside
    | some header =>
        let offset := sectionPointerToRawData.get host .little header +
          (rva - sectionVirtualAddress.get host .little header)
        if fileSize ≤ offset then throwMalformed kFormat notInside else .ok offset

def sectionLoop (sectionTable : ByteSpan) : Nat → Nat → List (List UInt8) → Outcome (List (List UInt8))
  | 0, _, sections => .ok sections
  | remaining + 1, index, sections => do
      let header ← readStructure sectionTable sizeOfSectionHeader (index * sizeOfSectionHeader) "section table entry"
      sectionLoop sectionTable remaining (index + 1) (sections ++ [header])

/-- The names of the descriptors before the all-zero one. Each step goes on inside the file. -/
def importLoop (file : ByteSpan) (descriptorOffset : Nat) (nameRvas : List Nat) : Outcome (List Nat) :=
  match _h : readStructure file sizeOfImportDescriptor descriptorOffset "import descriptor" with
  | .error message => .error message
  | .ok descriptor =>
      let originalFirstThunk := importOriginalFirstThunk.get host .little descriptor
      let timeDateStamp := importTimeDateStamp.get host .little descriptor
      let forwarderChain := importForwarderChain.get host .little descriptor
      let nameRva := importName.get host .little descriptor
      let firstThunk := importFirstThunk.get host .little descriptor
      if originalFirstThunk = 0 ∧ timeDateStamp = 0 ∧ forwarderChain = 0 ∧ nameRva = 0 ∧ firstThunk = 0 then
        .ok nameRvas
      else importLoop file (descriptorOffset + sizeOfImportDescriptor) (nameRvas ++ [nameRva])
termination_by file.size - descriptorOffset
decreasing_by
  have hinside := readStructure_eq_ok _h
  simp only [sizeOfImportDescriptor] at *
  omega

/-- The name of a delay-load descriptor: an RVA, or a 32-bit address, which counts from the image base. -/
def delayNameRva (descriptor : ByteSpan) (imageBase : Nat) : Outcome Nat := do
  let attributes ← descriptor.read 4 0 .little "delay-load attributes"
  let nameField ← descriptor.read 4 4 .little "delay-load library name"
  if attributes &&& kDelayAttributeRvaForm = 0 then do
    let base32 := imageBase % 2 ^ 32
    rejectIf (nameField < base32) kFormat
      ("delay-load library name address " ++ toString nameField ++ " is below the image base " ++ toString base32)
    return nameField - base32
  else return nameField

/-- The names of the descriptors before the all-zero one, or up to the declared size when that is not 0. -/
def delayLoop (file : ByteSpan) (imageBase delayTableSize delayStart delayOffset : Nat) (delayNameRvas : List Nat) :
    Outcome (List Nat) :=
  if delayTableSize = 0 ∨ delayOffset - delayStart < delayTableSize then
    match _h : file.sub delayOffset kDelayDescriptorSize "delay-load descriptor" with
    | .error message => .error message
    | .ok descriptor =>
        if descriptor.bytes.all (· == 0) then .ok delayNameRvas
        else
          match delayNameRva descriptor imageBase with
          | .error message => .error message
          | .ok nameRva =>
              delayLoop file imageBase delayTableSize delayStart (delayOffset + kDelayDescriptorSize)
                (delayNameRvas ++ [nameRva])
  else .ok delayNameRvas
termination_by file.size - delayOffset
decreasing_by
  have hinside := (ByteSpan.sub_eq_ok.mp _h).1
  simp only [kDelayDescriptorSize, ByteSpan.size] at *
  omega

/-- What every name is looked up with. -/
structure Addresses where
  sections : List (List UInt8)
  sizeOfHeaders : Nat

/-- A name, and how many bytes of names there are with it. -/
def nameAt (file : ByteSpan) (addresses : Addresses) (what plural : String) (nameRva totalNameBytes : Nat) :
    Outcome (Text × Nat) := do
  let nameOffset ← rvaToOffset host addresses.sections addresses.sizeOfHeaders file.size nameRva what
  let name ← file.cString nameOffset kMaxNameLength what
  let totalNameBytes := totalNameBytes + name.length
  rejectIf (file.size < totalNameBytes) kFormat
    (plural ++ " total " ++ toString totalNameBytes ++ " bytes, more than the file (" ++ toString file.size ++ " bytes)")
  return (name, totalNameBytes)

def importNames (file : ByteSpan) (addresses : Addresses) : List Nat → Nat → List Text → Outcome (List Text × Nat)
  | [], totalNameBytes, dependencies => .ok (dependencies, totalNameBytes)
  | nameRva :: rest, totalNameBytes, dependencies => do
      let (name, totalNameBytes) ← nameAt host file addresses "DLL name" "DLL names" nameRva totalNameBytes
      importNames file addresses rest totalNameBytes (dependencies ++ [name])

/-- A delay-load name is listed when it is not there yet. -/
def delayNames (file : ByteSpan) (addresses : Addresses) :
    List Nat → Nat → List Text → List Text → Outcome (List Text)
  | [], _, _, dependencies => .ok dependencies
  | nameRva :: rest, totalNameBytes, seen, dependencies => do
      let (name, totalNameBytes) ←
        nameAt host file addresses "delay-load library name" "delay-load library names" nameRva totalNameBytes
      if seen.contains (lowerAscii name) then delayNames file addresses rest totalNameBytes seen dependencies
      else delayNames file addresses rest totalNameBytes (lowerAscii name :: seen) (dependencies ++ [name])

/-- What the headers say, once a table is there. -/
structure Headers where
  optionalHeaderOffset : Nat
  optionalHeaderSize : Nat
  sectionCount : Nat
  pe32 : Bool
  importTableRva : Nat
  delayTableRva : Nat
  delayTableSize : Nat

def imageBase (file : ByteSpan) (headers : Headers) : Outcome Nat :=
  if headers.pe32 then file.read 4 (headers.optionalHeaderOffset + 28) .little "ImageBase"
  else file.read 8 (headers.optionalHeaderOffset + 24) .little "ImageBase"

/-- The import descriptors, where the table is there. -/
def nameRvas (file : ByteSpan) (addresses : Addresses) (headers : Headers) : Outcome (List Nat) :=
  if headers.importTableRva ≠ 0 then do
    let descriptorOffset ← rvaToOffset host addresses.sections addresses.sizeOfHeaders file.size headers.importTableRva
      "import descriptor table"
    importLoop host file descriptorOffset []
  else .ok []

/-- The delay-load descriptors, where the table is there. -/
def delayNameRvas (file : ByteSpan) (addresses : Addresses) (headers : Headers) : Outcome (List Nat) :=
  if headers.delayTableRva ≠ 0 then do
    let base ← imageBase file headers
    let delayOffset ← rvaToOffset host addresses.sections addresses.sizeOfHeaders file.size headers.delayTableRva
      "delay-load descriptor table"
    delayLoop file base headers.delayTableSize delayOffset delayOffset []
  else .ok []

def listTables (file : ByteSpan) (headers : Headers) : Outcome (List Text) := do
  let rawSizeOfHeaders ← file.read 4 (headers.optionalHeaderOffset + 60) .little "SizeOfHeaders"
  let sizeOfHeaders := fromLittleEndian host 4 rawSizeOfHeaders
  let sectionTable ← file.sub (headers.optionalHeaderOffset + headers.optionalHeaderSize)
    (headers.sectionCount * sizeOfSectionHeader) "section table"
  let sections ← sectionLoop sectionTable headers.sectionCount 0 []
  let imported ← nameRvas host file ⟨sections, sizeOfHeaders⟩ headers
  let delayed ← delayNameRvas host file ⟨sections, sizeOfHeaders⟩ headers
  let (dependencies, totalNameBytes) ← importNames host file ⟨sections, sizeOfHeaders⟩ imported 0 []
  delayNames host file ⟨sections, sizeOfHeaders⟩ delayed totalNameBytes (dependencies.map lowerAscii) dependencies

/-- The place of the data directories, by the optional header's format. -/
def dataDirectoryOffset (optionalMagic : Nat) : Outcome Nat :=
  if optionalMagic = kImageNtOptionalHdr32Magic then .ok 96
  else if optionalMagic = kImageNtOptionalHdr64Magic then .ok 112
  else throwMalformed kFormat ("PE header: optional header format " ++ toString optionalMagic ++ " is not supported")

/-- The address and size of the delay-load directory, which is not in every header. -/
def delayDirectory (file : ByteSpan) (directoriesOffset optionalHeaderEnd directoryCount : Nat) : Outcome (Nat × Nat) :=
  if kDelayImportDirectory < directoryCount ∧
      directoriesOffset + (kDelayImportDirectory + 1) * sizeOfDataDirectory ≤ optionalHeaderEnd then do
    let directory ← readStructure file sizeOfDataDirectory
      (directoriesOffset + kDelayImportDirectory * sizeOfDataDirectory) "delay-load directory"
    return (directoryVirtualAddress.get host .little directory, directorySize.get host .little directory)
  else .ok (0, 0)

/-- The tables that the optional header leads to. -/
def listOptionalHeader (file : ByteSpan) (optionalHeaderOffset optionalHeaderSize sectionCount optionalMagic : Nat) :
    Outcome (List Text) := do
  let directories ← dataDirectoryOffset optionalMagic
  rejectIf (optionalHeaderSize < directories + 2 * sizeOfDataDirectory) kFormat
    ("PE header: optional header size " ++ toString optionalHeaderSize ++ " is too small for the import directory")
  let importDirectory ← readStructure file sizeOfDataDirectory (optionalHeaderOffset + directories + sizeOfDataDirectory)
    "import directory"
  let importTableRva := directoryVirtualAddress.get host .little importDirectory
  let rawCount ← file.read 4 (optionalHeaderOffset + directories - 4) .little "NumberOfRvaAndSizes"
  let (delayTableRva, delayTableSize) ← delayDirectory host file (optionalHeaderOffset + directories)
    (optionalHeaderOffset + optionalHeaderSize) (fromLittleEndian host 4 rawCount)
  if importTableRva = 0 ∧ delayTableRva = 0 then return []
  else
    listTables host file
      ⟨optionalHeaderOffset, optionalHeaderSize, sectionCount, optionalMagic = kImageNtOptionalHdr32Magic, importTableRva,
        delayTableRva, delayTableSize⟩

/-- `host` is the byte order of the machine. A number that is read in an order is the machine's own already, and three of
them, the optional header's magic, NumberOfRvaAndSizes and SizeOfHeaders, go through `FromLittleEndian` once more. -/
def listDependenciesFromBytes (bytes : List UInt8) : Outcome (List Text) := do
  let file : ByteSpan := ⟨bytes, kFormat, "the file"⟩
  let dos ← file.sub 0 sizeOfDosHeader "DOS header"
  let dosSignature ← dos.read 2 0 .little "DOS header signature"
  rejectIf (dosSignature ≠ kImageDosSignature) kFormat "DOS header signature is not MZ"
  let rawLfanew ← dos.read 4 eLfanew.offset .little "e_lfanew"
  let lfanew := signed 4 rawLfanew
  rejectIf (lfanew < 0) kFormat ("e_lfanew " ++ toString lfanew ++ " is negative")
  let peHeaderOffset := lfanew.toNat
  let optionalHeaderOffset := peHeaderOffset + 4 + sizeOfFileHeader
  let peHeader ← file.sub peHeaderOffset (4 + sizeOfFileHeader + 2) "PE header"
  let ntSignature ← peHeader.read 4 0 .little "PE signature"
  rejectIf (ntSignature ≠ kImageNtSignature) kFormat "PE header signature is invalid"
  let coffHeader ← readStructure peHeader sizeOfFileHeader 4 "PE file header"
  let sectionCount := numberOfSections.get host .little coffHeader
  let optionalHeaderSize := sizeOfOptionalHeader.get host .little coffHeader
  let rawMagic ← peHeader.read 2 (4 + sizeOfFileHeader) .little "optional header magic"
  listOptionalHeader host file optionalHeaderOffset optionalHeaderSize sectionCount (fromLittleEndian host 2 rawMagic)

end parse

end TheSeed.PeParser
