import TheSeed.BoundedBytes
import Mathlib.Data.List.Sort

namespace TheSeed.PeSigner

open Bytes BoundedBytes

/-! The Authenticode signer of Windows programs. A program is its file's bytes; an operation that
replaces the file returns the new bytes. -/

def kFormat : String := "PE"

def kImageDosSignature : Nat := 0x5A4D
def kImageNtSignature : Nat := 0x00004550
def kImageNtOptionalHdr32Magic : Nat := 0x10B
def kImageNtOptionalHdr64Magic : Nat := 0x20B

structure PeLayout where
  peHeaderOffset : Nat
  optionalHeaderOffset : Nat
  checksumOffset : Nat
  ddSecurityOffset : Nat
  isPe32Plus : Bool
  deriving DecidableEq, Repr

/-- The layout that the header offset and the optional header's format determine. -/
def layoutAt (peHeaderOffset : Nat) (isPe32Plus : Bool) : PeLayout :=
  { peHeaderOffset
    optionalHeaderOffset := peHeaderOffset + 4 + 20
    checksumOffset := peHeaderOffset + 4 + 20 + 64
    ddSecurityOffset := peHeaderOffset + 4 + 20 + (if isPe32Plus then 144 else 128)
    isPe32Plus }

/-- Offset of NumberOfRvaAndSizes in the optional header. -/
def numRvaOffset (layout : PeLayout) : Nat :=
  layout.optionalHeaderOffset + (if layout.isPe32Plus then 108 else 92)

def parsePeLayout (file : ByteSpan) : Outcome PeLayout := do
  let dos ← file.sub 0 64 "DOS header"
  let signature ← dos.read 2 0 .little "DOS header signature"
  rejectIf (signature ≠ kImageDosSignature) kFormat "DOS header signature is not MZ"
  let lfanew ← dos.read 4 60 .little "e_lfanew"
  -- e_lfanew is signed: from 2^31 on it is negative
  rejectIf (2 ^ 31 ≤ lfanew) kFormat
    ("e_lfanew -" ++ toString (2 ^ 32 - lfanew) ++ " is negative")
  let peHeader ← file.sub lfanew (4 + 20 + 2) "PE header"
  let ntSignature ← peHeader.read 4 0 .little "PE signature"
  rejectIf (ntSignature ≠ kImageNtSignature) kFormat "PE header signature is invalid"
  let optionalMagic ← peHeader.read 2 24 .little "optional header magic"
  rejectIf (optionalMagic ≠ kImageNtOptionalHdr32Magic ∧ optionalMagic ≠ kImageNtOptionalHdr64Magic)
    kFormat ("PE header: optional header format " ++ toString optionalMagic ++ " is not supported")
  let layout := layoutAt lfanew (decide (optionalMagic = kImageNtOptionalHdr64Magic))
  let numRva ← file.read 4 (numRvaOffset layout) .little "PE header NumberOfRvaAndSizes"
  rejectIf (numRva < 5) kFormat
    ("PE header has " ++ toString numRva ++ " data directory entries, fewer than 5")
  let _ ← file.sub layout.checksumOffset 4 "PE header CheckSum field"
  let _ ← file.sub layout.ddSecurityOffset 8 "PE header certificate directory entry"
  return layout

/-- The section table's part of `stripFloor`: entries from number `i` on, `count` of them left. -/
def sectionsFloor (file : ByteSpan) (tableStart : Nat) : Nat → Nat → Nat → Outcome Nat
  | 0, _, floor => return floor
  | count + 1, i, floor => do
      let entry := tableStart + i * 40
      if file.size < entry + 40 then
        return floor
      let rawSize ← file.read 4 (entry + 16) .little "SizeOfRawData"
      let rawPtr ← file.read 4 (entry + 20) .little "PointerToRawData"
      sectionsFloor file tableStart count (i + 1)
        (if rawSize ≠ 0 ∧ floor < rawPtr + rawSize then rawPtr + rawSize else floor)

/-- The lowest file offset that stripping may cut back to. -/
def stripFloor (file : ByteSpan) (layout : PeLayout) : Outcome Nat := do
  let opt := layout.optionalHeaderOffset
  if file.size < opt + 4 ∨ file.size < layout.peHeaderOffset + 24 ∨ file.size < opt + 64 then
    return 0
  let floor ← file.read 4 (opt + 60) .little "SizeOfHeaders"
  let sectionCount ← file.read 2 (layout.peHeaderOffset + 6) .little "NumberOfSections"
  let optSize ← file.read 2 (layout.peHeaderOffset + 20) .little "SizeOfOptionalHeader"
  sectionsFloor file (opt + optSize) sectionCount 0 floor

/-- The certificate table named by the certificate directory entry. -/
structure CertificateTable where
  present : Bool := false
  address : Nat := 0
  size : Nat := 0
  length : Nat := 0
  deriving DecidableEq, Repr

def validateCertificateTable (file : ByteSpan) (layout : PeLayout) : Outcome CertificateTable := do
  let address ← file.read 4 layout.ddSecurityOffset .little "certificate directory address"
  let size ← file.read 4 (layout.ddSecurityOffset + 4) .little "certificate directory size"
  if address = 0 ∨ size = 0 then
    return { present := false, address, size }
  let span ← file.sub address size "certificate table"
  let headersEnd := layout.ddSecurityOffset + 8
  rejectIf (address < headersEnd) kFormat
    ("certificate table (offset " ++ toString address ++ ", size " ++ toString size ++
      ") overlaps the PE headers (" ++ toString headersEnd ++ " bytes)")
  rejectIf (size < 8) kFormat
    ("certificate table size " ++ toString size ++
      " is smaller than a WIN_CERTIFICATE header (8 bytes)")
  let length ← span.read 4 0 .little "WIN_CERTIFICATE length"
  rejectIf (length < 8) kFormat
    ("WIN_CERTIFICATE length " ++ toString length ++ " is smaller than its 8-byte header")
  rejectIf (size < length) kFormat
    ("WIN_CERTIFICATE length " ++ toString length ++ " is larger than the certificate table (" ++
      toString size ++ " bytes)")
  let revision ← span.read 2 4 .little "WIN_CERTIFICATE revision"
  let type ← span.read 2 6 .little "WIN_CERTIFICATE type"
  rejectIf (revision ≠ 0x0200 ∨ type ≠ 0x0002) kFormat
    ("WIN_CERTIFICATE revision " ++ toString revision ++ " or type " ++ toString type ++
      " is not supported")
  return { present := true, address, size, length }

/-- What `ComputeAuthenticodeDigest` feeds to the hash, and the program's format. -/
structure DigestInput where
  fed : List UInt8
  isPe32Plus : Bool
  deriving DecidableEq, Repr

/-- Feeds the bytes `[start, stop)` of the file; nothing when the range is empty. -/
def hashRange (file : ByteSpan) (fed : List UInt8) (start stop : Nat) : Outcome (List UInt8) := do
  if start < stop then
    let range ← file.sub start (stop - start) "hashed range"
    return fed ++ range.bytes
  else
    return fed

/-- One exclusion zone: the bytes before it are fed and the position moves behind it. -/
def skipExclusion (file : ByteSpan) (state : Nat × List UInt8) (excl : Nat × Nat) :
    Outcome (Nat × List UInt8) := do
  let fed ← if state.1 < excl.1 then hashRange file state.2 state.1 excl.1 else pure state.2
  return (excl.2, fed)

def exclusions (layout : PeLayout) : List (Nat × Nat) :=
  List.insertionSort (fun a b => a.1 ≤ b.1) [(layout.checksumOffset, layout.checksumOffset + 4),
    (layout.ddSecurityOffset, layout.ddSecurityOffset + 8)]

/-- Bytes missing to the next multiple of eight. -/
def padTo8 (n : Nat) : Nat := (8 - n % 8) % 8

def digestInput (bytes : List UInt8) : Outcome DigestInput := do
  let file : ByteSpan := { bytes, format := kFormat }
  let layout ← parsePeLayout file
  let table ← validateCertificateTable file layout
  let hashEnd := if table.present then table.address else file.size
  let (pos, fed) ← (exclusions layout).foldlM (skipExclusion file) (0, [])
  let fed ← hashRange file fed pos hashEnd
  -- a verifier hashes the padding that embedding adds to an unsigned file
  let pad := if table.present then 0 else padTo8 file.size
  return { fed := fed ++ List.replicate pad 0, isPe32Plus := layout.isPe32Plus }

structure DigestResult where
  digest : List UInt8
  isPe32Plus : Bool

def computeAuthenticodeDigest (sha256 : List UInt8 → List UInt8) (bytes : List UInt8) :
    Outcome DigestResult := do
  let input ← digestInput bytes
  return ⟨sha256 input.fed, input.isPe32Plus⟩

/-- `(sum & 0xFFFF) + (sum >> 16)` -/
def foldCarry (sum : Nat) : Nat := sum % 0x10000 + sum / 0x10000

def addWord (sum word : Nat) : Nat := foldCarry ((sum + word) % 2 ^ 32)

/-- The carry-folding sum over the buffer whose checksum field was zeroed. -/
def checksumOf (bytes : List UInt8) (checksumOffset : Nat) : Nat :=
  let sum := (List.range (bytes.length / 2)).foldl (fun sum i =>
    if 2 * i = checksumOffset ∨ 2 * i = checksumOffset + 2 then sum
    else addWord sum (leValue (slice bytes (2 * i) 2))) 0
  let sum := if bytes.length % 2 ≠ 0 then addWord sum (leValue (slice bytes (bytes.length - 1) 1)) else sum
  (foldCarry sum + bytes.length) % 2 ^ 32

def recalcChecksum (bytes : List UInt8) (checksumOffset : Nat) : Outcome (List UInt8) := do
  let zeroed ← writeField bytes kFormat 4 checksumOffset 0 .little "CheckSum field"
  writeField zeroed kFormat 4 checksumOffset (checksumOf zeroed checksumOffset) .little "CheckSum field"

def kPeMaxSignatureSize : Nat := kUint32Max - 8

def checkPeSignatureSize (signatureSize : Nat) : Outcome Unit :=
  rejectIf (kPeMaxSignatureSize < signatureSize) kFormat
    ("signature size " ++ toString signatureSize ++ " does not fit in a WIN_CERTIFICATE (limit " ++
      toString kPeMaxSignatureSize ++ ")")

/-- `std::vector::resize`: cut off, or filled up with zeros. -/
def resize (bytes : List UInt8) (size : Nat) : List UInt8 :=
  bytes.take size ++ List.replicate (size - bytes.length) 0

def embedSignature (bytes pkcs7Der : List UInt8) : Outcome (List UInt8) := do
  let file : ByteSpan := { bytes, format := kFormat }
  let layout ← parsePeLayout file
  let existing ← validateCertificateTable file layout
  checkPeSignatureSize pkcs7Der.length
  let keptSize := if existing.present then existing.address else bytes.length
  let certOffset := keptSize + padTo8 keptSize
  let certLength := 8 + pkcs7Der.length
  let tableSize := certLength + padTo8 certLength
  rejectIf (kUint32Max < certOffset) kFormat
    ("certificate table offset " ++ toString certOffset ++ " does not fit in 32 bits")
  rejectIf (kUint32Max < tableSize) kFormat
    ("certificate table size " ++ toString tableSize ++ " does not fit in 32 bits")
  let out := resize (resize bytes keptSize) (certOffset + tableSize)
  let out ← writeField out kFormat 4 certOffset certLength .little "WIN_CERTIFICATE length"
  let out ← writeField out kFormat 2 (certOffset + 4) 0x0200 .little "WIN_CERTIFICATE revision"
  let out ← writeField out kFormat 2 (certOffset + 6) 0x0002 .little "WIN_CERTIFICATE type"
  let out ← copyInto out kFormat (certOffset + 8) pkcs7Der "WIN_CERTIFICATE data"
  let out ← writeField out kFormat 4 layout.ddSecurityOffset certOffset .little
    "certificate directory address"
  let out ← writeField out kFormat 4 (layout.ddSecurityOffset + 4) tableSize .little
    "certificate directory size"
  recalcChecksum out layout.checksumOffset

def extractSignature (bytes : List UInt8) : Outcome (Option (List UInt8)) := do
  let file : ByteSpan := { bytes, format := kFormat }
  let layout ← parsePeLayout file
  let table ← validateCertificateTable file layout
  if table.present then
    let certificate ← file.sub table.address table.length "WIN_CERTIFICATE"
    let blob ← certificate.sub 8 (table.length - 8) "PKCS#7 blob"
    return some blob.bytes
  else
    return none

def hasEmbeddedSignature (bytes : List UInt8) : Outcome Bool := do
  let file : ByteSpan := { bytes, format := kFormat }
  let layout ← parsePeLayout file
  let table ← validateCertificateTable file layout
  return table.present

/-- The cut of `StripSignature`: at most `removable` zero bytes before `newSize`, not below the floor. -/
def trimPadding (bytes : List UInt8) (floor : Nat) : Nat → Nat → Nat
  | 0, newSize => newSize
  | removable + 1, newSize =>
      if floor < newSize ∧ bytes[newSize - 1]? = some 0 then
        trimPadding bytes floor removable (newSize - 1)
      else newSize

def stripSignature (bytes : List UInt8) : Outcome (List UInt8) := do
  let file : ByteSpan := { bytes, format := kFormat }
  let layout ← parsePeLayout file
  let table ← validateCertificateTable file layout
  let floor ← stripFloor file layout
  if table.present then
    let out := resize bytes (trimPadding bytes floor 7 table.address)
    let out ← writeField out kFormat 4 layout.ddSecurityOffset 0 .little "certificate directory address"
    let out ← writeField out kFormat 4 (layout.ddSecurityOffset + 4) 0 .little
      "certificate directory size"
    recalcChecksum out layout.checksumOffset
  else
    return bytes

end TheSeed.PeSigner
