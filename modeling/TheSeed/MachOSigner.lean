import TheSeed.MachOLayout
import TheSeed.PagedFile

namespace TheSeed.MachOSigner

open Bytes BoundedBytes MachOLayout

/-! Signing Mac programs. A call that returns gives the bytes that replace the file. -/

def csmagicEmbeddedSignature : Nat := 0xFADE0CC0
def csmagicCodeDirectory : Nat := 0xFADE0C02
def csmagicRequirements : Nat := 0xFADE0C01
def csmagicBlobWrapper : Nat := 0xFADE0B01

def csslotCodeDirectory : Nat := 0
def csslotRequirements : Nat := 2
def csslotCmsSignature : Nat := 0x10000

def csHashTypeSha256 : Nat := 2
def csHashSizeSha256 : Nat := 32
def csPageSizeLog2 : Nat := 12
def csPageSize : Nat := 4096
def csExecsegMainBinary : Nat := 1

def csSupportsExecseg : Nat := 0x20400
def kCodeDirectoryFixedSize : Nat := 88
def kSpecialSlots : Nat := 2

def mhExecute : Nat := 2
def cpuTypeArm64 : Nat := 0x0100000C

def kSignatureCommandSize : Nat := 16

/-- The largest CMS capacity that is accepted. -/
def kMaxCapacity : Nat := 0x80000000

def kSegmentVmsizeField : Nat := 32
def kSegmentFilesizeField : Nat := 48

/-- What hashing gives: as many bytes as a slot has. -/
abbrev Digest := { bytes : List UInt8 // bytes.length = csHashSizeSha256 }

def writeBE32 (buf : List UInt8) (offset value : Nat) : List UInt8 := overwrite buf offset (beBytes 4 value)
def writeBE64 (buf : List UInt8) (offset value : Nat) : List UInt8 := overwrite buf offset (beBytes 8 value)
def writeLE32 (buf : List UInt8) (offset value : Nat) : List UInt8 := overwrite buf offset (leBytes 4 value)
def writeLE64 (buf : List UInt8) (offset value : Nat) : List UInt8 := overwrite buf offset (leBytes 8 value)

/-- The first `size` bytes, and zeros where there are fewer. -/
def resized (bs : List UInt8) (size : Nat) : List UInt8 := bs.take size ++ List.replicate (size - bs.length) 0

def buildEmptyRequirements : List UInt8 := beBytes 4 csmagicRequirements ++ beBytes 4 12 ++ beBytes 4 0

def align16 (value : Nat) : Nat := (value + 15) / 16 * 16

def alignUp (value unit : Nat) : Nat := (value + unit - 1) / unit * unit

section Signer

variable (hash : List UInt8 → Digest) (path : String)

/-- A file under four bytes cannot be a program. -/
def parseInput (bytes : List UInt8) : Outcome MachOContainer := do
  rejectIf (bytes.length < 4) MachOLayout.kFormat "File too small to be a Mach-O binary"
  parseMachOContainer { bytes, format := MachOLayout.kFormat }

def refuse {α : Type} (path text : String) : Outcome α := .error (path ++ ": " ++ text)

/-- Refuses with the reason; in a universal file the slice is named first. -/
def refuseSlice {α : Type} (path : String) (universal : Bool) (index cputype : Nat) (reason : String) : Outcome α :=
  if universal then refuse path ("slice " ++ toString index ++ " (" ++ archName cputype ++ "): " ++ reason)
  else refuse path reason

/-- `if(c) refuse(reason);` for a slice. -/
def refuseSliceIf (c : Prop) [Decidable c] (path : String) (universal : Bool) (index cputype : Nat) (reason : String) :
    Outcome Unit :=
  if c then refuseSlice path universal index cputype reason else .ok ()

def refuseIf (c : Prop) [Decidable c] (path text : String) : Outcome Unit := if c then refuse path text else .ok ()

/-- Every slice is of the kind that is interpreted. -/
def requireSupported (universal : Bool) : Nat → List ContainerEntry → Outcome Unit
  | _, [] => return
  | i, entry :: rest => do
      refuseSliceIf (entry.slice.support ≠ .supported) path universal i entry.cputype (declineText entry.slice.support)
      requireSupported universal (i + 1) rest

/-- The point where the old signature data begins, after checking that it is the last thing in the program. -/
def requireSignatureAtEnd (universal : Bool) (index cputype : Nat) (layout : SliceLayout) (sig : CodeSignatureLayout) :
    Outcome Nat := do
  if sig.dataoff = 0 ∧ sig.datasize = 0 then return layout.size
  let end_ := sig.dataoff + sig.datasize
  refuseSliceIf (end_ ≠ layout.size) path universal index cputype
    ("the signature data is not at the end of the program (" ++ toString (layout.size - end_) ++
      " bytes follow it); signing would have to move them. Re-link or strip the signature with another tool first.")
  return sig.dataoff

/-- One program as it will be after signing, with zeros where the signature goes. -/
structure SlicePlan where
  cpuType : Nat
  cpuSubtype : Nat
  bytes : List UInt8
  dataoff : Nat
  datasize : Nat
  codeDirectory : List UInt8
  cdHash : Digest

def superBlobFixedSize : Nat := 12 + 3 * 8 + 12 + 8

/-- How many pages are fingerprinted, where the fingerprints start, and how long the directory is. -/
def codeSlots (dataoff : Nat) : Nat := (dataoff + csPageSize - 1) / csPageSize
def hashOffset (identity : List UInt8) : Nat := kCodeDirectoryFixedSize + (identity.length + 1)
def cdSize (identity : List UInt8) (dataoff : Nat) : Nat :=
  hashOffset identity + (kSpecialSlots + codeSlots dataoff) * csHashSizeSha256

/-- The fields of a CodeDirectory over the first `dataoff` bytes of a program. -/
def codeDirectoryFields (layout : SliceLayout) (identity out : List UInt8) (dataoff : Nat) :
    List (Nat × List UInt8) :=
  let codeHashes := hashOffset identity + kSpecialSlots * csHashSizeSha256
  [(0, beBytes 4 csmagicCodeDirectory), (4, beBytes 4 (cdSize identity dataoff)), (8, beBytes 4 csSupportsExecseg),
    (12, beBytes 4 0), (16, beBytes 4 codeHashes), (20, beBytes 4 kCodeDirectoryFixedSize),
    (24, beBytes 4 kSpecialSlots), (28, beBytes 4 (codeSlots dataoff)), (32, beBytes 4 dataoff),
    (36, beBytes 1 csHashSizeSha256), (37, beBytes 1 csHashTypeSha256), (38, beBytes 1 0),
    (39, beBytes 1 csPageSizeLog2)] ++
  (match layout.text with
    | some text => [(64, beBytes 8 text.fileoff), (72, beBytes 8 text.filesize)]
    | none => []) ++
  [(80, beBytes 8 (if layout.filetype = mhExecute then csExecsegMainBinary else 0)),
    (kCodeDirectoryFixedSize, identity ++ [0]),
    -- slot -2 comes first, then slot -1, which is zero
    (hashOffset identity, (hash buildEmptyRequirements).1)] ++
  (List.range (codeSlots dataoff)).map fun i =>
    (codeHashes + i * csHashSizeSha256,
      (hash (slice out (i * csPageSize) (min (i * csPageSize + csPageSize) dataoff - i * csPageSize))).1)

def codeDirectory (layout : SliceLayout) (identity out : List UInt8) (dataoff : Nat) : List UInt8 :=
  overwriteAll (List.replicate (cdSize identity dataoff) 0) (codeDirectoryFields hash layout identity out dataoff)

/-- The bytes of the program that stay. -/
def keptSize (universal : Bool) (index : Nat) (entry : ContainerEntry) : Outcome Nat :=
  match entry.slice.codesig with
  | some sig => requireSignatureAtEnd path universal index entry.cputype entry.slice sig
  | none => return entry.slice.size

/-- The signature command after the last one, or the existing one, and the counts that cover it. -/
def writeSignatureCommand (layout : SliceLayout) (dataoff datasize : Nat) (out : List UInt8) : List UInt8 :=
  match layout.codesig with
  | some sig => writeLE32 (writeLE32 out (sig.commandOffset + 8) dataoff) (sig.commandOffset + 12) datasize
  | none =>
      let out := writeLE32 out layout.headerEnd kLcCodeSignature
      let out := writeLE32 out (layout.headerEnd + 4) kSignatureCommandSize
      let out := writeLE32 out (layout.headerEnd + 8) dataoff
      let out := writeLE32 out (layout.headerEnd + 12) datasize
      let out := writeLE32 out 16 (layout.ncmds + 1)
      writeLE32 out 20 (layout.sizeofcmds + kSignatureCommandSize)

def pageSize (cputype : Nat) : Nat := if cputype = cpuTypeArm64 then 16384 else 4096

/-- The finished layout of one slice and its CodeDirectory. -/
def planSlice (universal : Bool) (index : Nat) (file : List UInt8) (entry : ContainerEntry) (identity : List UInt8)
    (capacity : Nat) : Outcome SlicePlan := do
  let layout := entry.slice
  let resign := layout.codesig.isSome
  let kept ← keptSize path universal index entry
  match layout.linkedit with
  | none =>
      refuseSlice path universal index entry.cputype "the program has no __LINKEDIT segment at its end; it cannot be signed"
  | some linkedit => do
      refuseSliceIf (kept < linkedit.fileoff ∨ linkedit.fileoff + linkedit.filesize ≠ layout.size) path universal index
        entry.cputype "the program has no __LINKEDIT segment at its end; it cannot be signed"
      refuseSliceIf (resign = false ∧ layout.freeHeaderSpace < kSignatureCommandSize) path universal index entry.cputype
        ("no room for the code signature command: 16 bytes needed, " ++ toString layout.freeHeaderSpace ++
          " available between the end of the load commands (offset " ++ toString layout.headerEnd ++
          ") and the first section (offset " ++ toString layout.firstContent ++
          "); relink with extra header space (for example -headerpad 0x20)")
      refuseSliceIf (resign = false ∧ layout.ncmds = kUint32Max) path universal index entry.cputype
        "the program has too many load commands to add one"
      refuseSliceIf (0 ∈ identity) path universal index entry.cputype "the identity contains a NUL byte"
      let dataoff := align16 kept
      let datasize := align16 (superBlobFixedSize + cdSize identity dataoff + capacity)
      refuseSliceIf (kUint32Max < dataoff + datasize ∨ kUint32Max < cdSize identity dataoff) path universal index
        entry.cputype
        ("the signature would end at offset " ++ toString (dataoff + datasize) ++
          ", past the 4294967295 bytes that the signature command can describe")
      let out := resized (slice file entry.offset kept) (dataoff + datasize)
      let out := writeSignatureCommand layout dataoff datasize out
      let linkeditSize := dataoff + datasize - linkedit.fileoff
      let out := writeLE64 out (linkedit.commandOffset + kSegmentFilesizeField) linkeditSize
      let out := writeLE64 out (linkedit.commandOffset + kSegmentVmsizeField)
        (alignUp linkeditSize (pageSize entry.cputype))
      let cd := codeDirectory hash layout identity out dataoff
      return {
        cpuType := entry.cputype
        cpuSubtype := entry.cpusubtype
        bytes := out
        dataoff := dataoff
        datasize := datasize
        codeDirectory := cd
        cdHash := hash cd }

/-- The first place of `[from, to)` that is not zero. -/
def firstNonZero (file : List UInt8) (start stop : Nat) : Option Nat :=
  (List.range' start (stop - start)).find? fun at_ => file[at_]? ≠ some 0

/-- The bytes between two slices have to be zero: they are rewritten as padding. -/
def requireZeroBetween (file : List UInt8) : List (ContainerEntry × Nat) → Outcome Unit
  | previous :: next :: rest => do
      match firstNonZero file (previous.1.offset + previous.1.size) next.1.offset with
      | some at_ =>
          refuse path ("the bytes between slice " ++ toString previous.2 ++ " (" ++ archName previous.1.cputype ++
            ") and slice " ++ toString next.2 ++ " (" ++ archName next.1.cputype ++
            ") are not all zero (the first is at offset " ++ toString at_ ++
            "); they would be replaced by zero padding")
      | none => requireZeroBetween file (next :: rest)
  | _ => return

def requireZeroPadding (file : List UInt8) (container : MachOContainer) : Outcome Unit :=
  if container.form = .thin then return else requireZeroBetween path file (byOffset container.entries)

/-- The plans of the entries from the one with the number `i` on. -/
def planSlices (universal : Bool) (file identity : List UInt8) (capacity : Nat) :
    Nat → List ContainerEntry → Outcome (List SlicePlan)
  | _, [] => return []
  | i, entry :: rest => do
      let plan ← planSlice hash path universal i file entry identity capacity
      let plans ← planSlices universal file identity capacity (i + 1) rest
      return plan :: plans

def isUniversal (container : MachOContainer) : Bool := container.form ≠ .thin

def planAll (file : List UInt8) (container : MachOContainer) (identity : List UInt8) (capacity : Nat) :
    Outcome (List SlicePlan) := do
  refuseIf (kMaxCapacity < capacity) path
    ("the capacity " ++ toString capacity ++ " is larger than the 2147483648 bytes that can be reserved")
  requireSupported path (isUniversal container) 0 container.entries
  requireZeroPadding path file container
  planSlices hash path (isUniversal container) file identity capacity 0 container.entries

/-- A finished slice, and where it goes. -/
structure Placed where
  index : Nat
  offset : Nat
  bytes : List UInt8

/-- The slices one after the other in file order, each aligned. -/
def placeSlices (wide : Bool) (slices : List (List UInt8)) : List (ContainerEntry × Nat) → Nat → Outcome (List Placed)
  | [], _ => return []
  | (entry, i) :: rest, cursor => do
      refuseIf (32 ≤ entry.align) path
        ("slice " ++ toString i ++ " (" ++ archName entry.cputype ++ "): alignment 2^" ++ toString entry.align ++
          " is not supported")
      let offset := alignUp cursor (2 ^ entry.align)
      let bytes := slices.getD i []
      let cursor := offset + bytes.length
      refuseIf (wide = false ∧ kUint32Max < cursor) path
        ("slice " ++ toString i ++ " (" ++ archName entry.cputype ++ ") would end at offset " ++ toString cursor ++
          ", past what a 32-bit universal table can describe")
      let rest ← placeSlices wide slices rest cursor
      return ⟨i, offset, bytes⟩ :: rest

/-- The new offset and length of a slice, in the width of the table. -/
def writeTableEntry (wide : Bool) (out : List UInt8) (i offset size : Nat) : List UInt8 :=
  let place := kFatHeaderSize + i * fatEntrySize wide
  if wide then writeBE64 (writeBE64 out (place + 8) offset) (place + 16) size
  else writeBE32 (writeBE32 out (place + 8) offset) (place + 12) size

/-- What a vector of bytes can hold. -/
def kMaxVectorSize : Nat := 2 ^ 63 - 1

def offsetOf (placed : List Placed) (i : Nat) : Nat :=
  ((placed.find? fun p => p.index = i).map Placed.offset).getD 0

/-- Puts the finished slices into a universal file: the table keeps its form and order. -/
def assembleUniversal (file : List UInt8) (container : MachOContainer) (slices : List (List UInt8)) :
    Outcome (List UInt8) := do
  let wide : Bool := container.form = .fat64
  let order := byOffset container.entries
  let first := (order.head?.map fun entry => entry.1.offset).getD 0
  let oldEnd := (order.map fun entry => entry.1.offset + entry.1.size).foldl max 0
  let placed ← placeSlices path wide slices order first
  let out := placed.foldl (fun out p => resized out p.offset ++ p.bytes) (file.take first)
  let out := out ++ file.drop oldEnd
  rejectIf (kMaxVectorSize < out.length) MachOLayout.kFormat "internal error (std::length_error): vector::_M_range_insert"
  return (List.range container.entries.length).foldl
    (fun out i => writeTableEntry wide out i (offsetOf placed i) (slices.getD i []).length) out

/-- Where the signature of a slice lies in the file. -/
def signatureRegion (file : ByteSpan) (universal : Bool) (index : Nat) (entry : ContainerEntry) :
    Outcome (Option ByteSpan) := do
  refuseSliceIf (entry.slice.support ≠ .supported) path universal index entry.cputype (declineText entry.slice.support)
  match entry.slice.codesig with
  | none => return none
  | some sig =>
      if sig.dataoff = 0 ∨ sig.datasize = 0 then return none
      let region ← file.sub (entry.offset + sig.dataoff) sig.datasize "LC_CODE_SIGNATURE data"
      return some region

/-- The length that a SuperBlob gives for itself, where it fits the region. -/
def regionLength (region : ByteSpan) : Outcome Nat := do
  if region.size < 12 then return region.size
  let magic ← region.read 4 0 .big "SuperBlob magic"
  if magic ≠ csmagicEmbeddedSignature then return region.size
  let own ← region.read 4 4 .big "SuperBlob length"
  return if 12 ≤ own ∧ own ≤ region.size then own else region.size

def signatureOfSlice (file : ByteSpan) (universal : Bool) (index : Nat) (entry : ContainerEntry) :
    Outcome (Option (List UInt8)) := do
  let found ← signatureRegion path file universal index entry
  match found with
  | none => return none
  | some region =>
      let length ← regionLength region
      return some (region.bytes.take length)

def buildSuperBlob (codeDirectory cmsSignature : List UInt8) : List UInt8 :=
  let cmsBlob := beBytes 4 csmagicBlobWrapper ++ beBytes 4 (8 + cmsSignature.length) ++ cmsSignature
  let headerSize := 12 + 3 * 8
  let cdOffset := headerSize
  let reqOffset := cdOffset + codeDirectory.length
  let cmsOffset := reqOffset + buildEmptyRequirements.length
  let totalSize := cmsOffset + cmsBlob.length
  overwriteAll (List.replicate totalSize 0)
    [(0, beBytes 4 csmagicEmbeddedSignature), (4, beBytes 4 totalSize), (8, beBytes 4 3),
      (12, beBytes 4 csslotCodeDirectory), (16, beBytes 4 cdOffset), (20, beBytes 4 csslotRequirements),
      (24, beBytes 4 reqOffset), (28, beBytes 4 csslotCmsSignature), (32, beBytes 4 cmsOffset),
      (cdOffset, codeDirectory), (reqOffset, buildEmptyRequirements), (cmsOffset, cmsBlob)]

structure PreparedSlice where
  cpuType : Nat
  cpuSubtype : Nat
  codeDirectory : List UInt8
  cdHash : Digest
  deriving DecidableEq

structure PreparedSignature where
  identity : List UInt8
  cmsCapacity : Nat
  slices : List PreparedSlice

def SlicePlan.prepared (plan : SlicePlan) : PreparedSlice :=
  ⟨plan.cpuType, plan.cpuSubtype, plan.codeDirectory, plan.cdHash⟩

def prepareSignature (bytes identity : List UInt8) (cmsCapacity : Nat) : Outcome PreparedSignature := do
  let container ← parseInput bytes
  let plans ← planAll hash path bytes container identity cmsCapacity
  return ⟨identity, cmsCapacity, plans.map SlicePlan.prepared⟩

/-- A slice with its signature in the place that was reserved. -/
def finishSlice (plan : SlicePlan) (cms : List UInt8) : List UInt8 :=
  overwrite plan.bytes plan.dataoff (buildSuperBlob plan.codeDirectory cms)

/-- The bytes that replace the file: the slices on their own or put together again. -/
def containerBytes (bytes : List UInt8) (container : MachOContainer) (slices : List (List UInt8)) :
    Outcome (List UInt8) :=
  if container.form = .thin then return slices.getD 0 [] else assembleUniversal path bytes container slices

def completeSignature (bytes : List UInt8) (prepared : PreparedSignature) (cmsSignatures : List (List UInt8)) :
    Outcome (List UInt8) := do
  let container ← parseInput bytes
  let plans ← planAll hash path bytes container prepared.identity prepared.cmsCapacity
  refuseIf (plans.map SlicePlan.prepared ≠ prepared.slices) path
    "the program, the identity or the capacity changed since PrepareSignature; prepare again"
  refuseIf (cmsSignatures.length ≠ plans.length) path
    (toString cmsSignatures.length ++ " signatures were given for " ++ toString plans.length ++ " slices")
  match cmsSignatures.find? fun cms => prepared.cmsCapacity < cms.length with
  | some cms =>
      refuse path ("the signature is " ++ toString cms.length ++ " bytes but only " ++ toString prepared.cmsCapacity ++
        " were reserved; prepare again with a larger capacity")
  | none => containerBytes path bytes container (List.zipWith finishSlice plans cmsSignatures)

/-- One slice without its signature: the command leaves the table, the data is cut off, __LINKEDIT ends at the cut. -/
def stripSlice (universal : Bool) (index : Nat) (file : List UInt8) (entry : ContainerEntry) (sig : CodeSignatureLayout) :
    Outcome (List UInt8) := do
  let layout := entry.slice
  let cut ← requireSignatureAtEnd path universal index entry.cputype layout sig
  match layout.linkedit with
  | none =>
      refuseSlice path universal index entry.cputype "the program has no __LINKEDIT segment at its end; it cannot be signed"
  | some linkedit => do
      refuseSliceIf (cut < linkedit.fileoff) path universal index entry.cputype
        "the program has no __LINKEDIT segment at its end; it cannot be signed"
      let cmdsize := layout.commands.foldl
        (fun size command => if command.offset = sig.commandOffset then command.cmdsize else size) kSignatureCommandSize
      let out := slice file entry.offset cut
      let at_ := sig.commandOffset
      let moved := slice out (at_ + cmdsize) (layout.headerEnd - (at_ + cmdsize))
      let out := overwrite out at_ moved
      let out := overwrite out (layout.headerEnd - cmdsize) (List.replicate cmdsize 0)
      let out := writeLE32 out 16 (layout.ncmds - 1)
      let out := writeLE32 out 20 (layout.sizeofcmds - cmdsize)
      -- the command that held the link-edit segment may have moved up
      let segmentAt :=
        if sig.commandOffset < linkedit.commandOffset then linkedit.commandOffset - cmdsize else linkedit.commandOffset
      let filesize := cut - linkedit.fileoff
      let out := writeLE64 out (segmentAt + kSegmentFilesizeField) filesize
      return if linkedit.vmsize < filesize then
        writeLE64 out (segmentAt + kSegmentVmsizeField) (alignUp filesize (pageSize entry.cputype))
      else out

/-- The slices from the one with the number `i` on, each without its signature. -/
def stripSlices (universal : Bool) (file : List UInt8) : Nat → List ContainerEntry → Outcome (List (List UInt8))
  | _, [] => return []
  | i, entry :: rest => do
      let stripped ← match entry.slice.codesig with
        | some sig => stripSlice path universal i file entry sig
        | none => pure (slice file entry.offset entry.slice.size)
      let rest ← stripSlices universal file (i + 1) rest
      return stripped :: rest

/-- The bytes that replace the file, or none where there is nothing to remove. -/
def stripSignature (bytes : List UInt8) : Outcome (Option (List UInt8)) := do
  let container ← parseInput bytes
  requireSupported path (isUniversal container) 0 container.entries
  requireZeroPadding path bytes container
  let slices ← stripSlices path (isUniversal container) bytes 0 container.entries
  if container.entries.all fun entry => entry.slice.codesig.isNone then return none
  let out ← containerBytes path bytes container slices
  return some out

/-- The signatures of the slices from the one with the number `i` on. -/
def signaturesOf (file : ByteSpan) (universal : Bool) : Nat → List ContainerEntry → Outcome (List (Option (List UInt8)))
  | _, [] => return []
  | i, entry :: rest => do
      let found ← signatureOfSlice path file universal i entry
      let rest ← signaturesOf file universal (i + 1) rest
      return found :: rest

def extractSignatures (bytes : List UInt8) : Outcome (List (Option (List UInt8))) := do
  let container ← parseInput bytes
  signaturesOf path { bytes, format := MachOLayout.kFormat } (isUniversal container) 0 container.entries

/-- Whether every slice from the one with the number `i` on has a signature. -/
def allSigned (file : ByteSpan) (universal : Bool) : Nat → List ContainerEntry → Outcome Bool
  | _, [] => return true
  | i, entry :: rest => do
      let found ← signatureRegion path file universal i entry
      if found.isNone then return false
      allSigned file universal (i + 1) rest

/-- The file is read in pages. -/
def hasEmbeddedSignature (bytes : List UInt8) : Outcome Bool := do
  let bytes := PagedFile.data bytes
  let container ← parseInput bytes
  allSigned path { bytes, format := MachOLayout.kFormat } (isUniversal container) 0 container.entries

end Signer

end TheSeed.MachOSigner
