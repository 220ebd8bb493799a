import Mathlib.Data.List.Infix
import TheSeed.CfbSelfCheck

namespace TheSeed.MsiSigner

open Bytes Checked BoundedBytes CfbReader CfbResolve CfbJoint MsiAuthenticode CfbWriter SortedBy CfbNames CfbContent
  Content MsiFingerprint CfbFlatten CfbTree CfbSelfCheck

/-! Signing and stripping a package, and the fingerprint that stays the same. A call that returns replaces
the file by what it gives. -/

/-- What a reader of signature blobs finds in one. -/
structure AuthenticodeDigestField where
  readable : Bool := false
  algorithm : String := ""
  digest : List UInt8 := []
  detail : String := ""

def AuthenticodeDigestField.isSha256 (field : AuthenticodeDigestField) : Bool :=
  field.algorithm = "2.16.840.1.101.3.4.2.1"

section Signer

variable (readAuthenticodeDigestField : List UInt8 → AuthenticodeDigestField) (hash : List UInt8 → List UInt8)
  (filePath : String)

def refusal (filePath reason : String) : String := kFormat ++ ": " ++ filePath ++ ": " ++ reason

/-- A rejection from the reader or the writer comes out naming the file. -/
def guarded {α : Type} (filePath : String) (operation : Outcome α) : Outcome α :=
  match operation with
  | .ok a => .ok a
  | .error message =>
      let lead := (kFormat ++ ": ").toList
      if ¬lead <+: message.toList ∨ filePath.toList <:+: message.toList then .error message
      else .error (refusal filePath (String.ofList (message.toList.drop lead.length)))

/-- The first four bytes in hex. -/
def digestPrefix (digest : List UInt8) : String :=
  String.join ((digest.take 4).map fun b =>
    String.ofList [(hexDigit (b.toNat / 16)).toLower, (hexDigit (b.toNat % 16)).toLower])

def mismatchText (stored computed : List UInt8) : String :=
  "signature does not match the package contents (stored " ++ digestPrefix stored ++ "..., computed " ++
    digestPrefix computed ++ "...)"

def checkMsiSignatureSize (size majorVersion : Nat) : Outcome Unit :=
  rejectIf (majorVersion < 4 ∧ kUint32Max < size) kFormat
    ("signature size " ++ toString size ++ " does not fit the 32-bit stream size of a version " ++
      toString majorVersion ++ " file")

/-- What is fed to the hash for a file. -/
def packageFed (file : List UInt8) : Outcome (List UInt8) := do
  let m ← parse file
  fingerprintInput m

def computeAuthenticodeDigest (file : List UInt8) : Outcome (List UInt8) :=
  guarded filePath do
    let m ← parse file
    computeMsiFingerprint hash m

def readRequiredField (blob : List UInt8) : Outcome AuthenticodeDigestField :=
  let field := readAuthenticodeDigestField blob
  if field.readable = false ∨ field.isSha256 = false then
    .error (refusal filePath ("the signature holds no SHA-256 package fingerprint (" ++
      (if field.readable then "digest algorithm " ++ field.algorithm else field.detail) ++ ")"))
  else .ok field

def checkRequiredDigest (field : AuthenticodeDigestField) (rebuilt : List UInt8) : Outcome Unit := do
  let written ← parse rebuilt
  let computed ← computeMsiFingerprint hash written
  if computed ≠ field.digest then .error (refusal filePath (mismatchText field.digest computed)) else return

/-- The file after a signature was embedded. -/
def embedSignature (file blob : List UInt8) (requireMatchingDigest : Bool) : Outcome (List UInt8) :=
  guarded filePath do
    if blob = [] then throw (refusal filePath "the signature is empty")
    let m ← parse file
    checkMsiSignatureSize blob.length m.header.majorVersion
    if requireMatchingDigest then
      let field ← readRequiredField readAuthenticodeDigestField filePath blob
      let rebuilt ← writeCfb m (some blob)
      checkRequiredDigest hash filePath field rebuilt
      return rebuilt
    else writeCfb m (some blob)

/-- Whether there was a signature, and the file after it was stripped. -/
def stripSignature (file : List UInt8) : Outcome (Bool × List UInt8) :=
  guarded filePath do
    let m ← parse file
    if findByEnumeration m.root msiSignatureName = none ∧ findByEnumeration m.root msiSignatureExName = none then
      return (false, file)
    let rebuilt ← writeCfb m none
    return (true, rebuilt)

inductive SignerCall
  | embed (blob : List UInt8) (requireMatchingDigest : Bool)
  | strip

/-- The file after a call that returns. -/
def SignerCall.run : SignerCall → List UInt8 → Outcome (List UInt8)
  | .embed blob requireMatchingDigest, file =>
      embedSignature readAuthenticodeDigestField hash filePath file blob requireMatchingDigest
  | .strip, file => (stripSignature filePath file).map Prod.snd

def runCalls (calls : List SignerCall) (file : List UInt8) : Outcome (List UInt8) :=
  calls.foldlM (fun file call => call.run readAuthenticodeDigestField hash filePath file) file

end Signer

end TheSeed.MsiSigner
