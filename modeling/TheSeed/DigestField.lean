import TheSeed.MsiSigner

namespace TheSeed.DigestField

open BoundedBytes MsiSigner

/-! The fingerprint that is stored inside a signature: the digest of the indirect data content of a signed-data
structure. -/

def kFormat : String := "signature"

def kMaxSkippedSiblings : Nat := 16
def kMaxLengthBytes : Nat := 4
def kMaxOidBytes : Nat := 32

def kTagInteger : Nat := 0x02
def kTagOctetString : Nat := 0x04
def kTagOid : Nat := 0x06
def kTagSequence : Nat := 0x30
def kTagSet : Nat := 0x31
def kTagContext0 : Nat := 0xA0

structure Element where
  tag : Nat
  content : ByteSpan
  total : Nat

/-- The length of an element, and how many bytes its header has. -/
def readLength (parent : ByteSpan) (offset : Nat) : Outcome (Nat × Nat) := do
  let length ← parent.read 1 (offset + 1) .big "length"
  if length < 0x80 then return (length, 2)
  let count := length % 0x80
  rejectIf (count = 0 ∨ kMaxLengthBytes < count) kFormat
    ("length at offset " ++ toString (offset + 1) ++ " is indefinite or too long")
  let length ← (List.range count).foldlM (fun length i => do
    let byte ← parent.read 1 (offset + 2 + i) .big "length byte"
    return length * 256 + byte) 0
  return (length, 2 + count)

/-- The element that starts at `offset` of `parent`. -/
def readElement (parent : ByteSpan) (offset : Nat) : Outcome Element := do
  let tag ← parent.read 1 offset .big "tag"
  rejectIf (tag % 0x20 = 0x1F) kFormat ("tag at offset " ++ toString offset ++ " uses the long form")
  let (length, header) ← readLength parent offset
  let content ← parent.sub (offset + header) length "element"
  return ⟨tag, content, header + length⟩

/-- The n-th child of a constructed element, which must have this tag. -/
def child (parent : Element) (n tag : Nat) (what : String) : Outcome Element := do
  rejectIf (kMaxSkippedSiblings < n) kFormat (what ++ " is too far from the start of its parent")
  let offset ← (List.range n).foldlM (fun offset _ => do
    let sibling ← readElement parent.content offset
    return offset + sibling.total) 0
  let child ← readElement parent.content offset
  rejectIf (child.tag ≠ tag) kFormat (what ++ " has tag " ++ toString child.tag ++ ", expected " ++ toString tag)
  return child

/-- The rest of an identifier: so many bytes from `i` on, after `text` and the bits of `value`. -/
def decodeOidFrom (content : ByteSpan) : Nat → Nat → Option String → Nat → Outcome String
  | 0, _, text, _ => return text.getD ""
  | remaining + 1, i, text, value => do
      let byte ← content.read 1 i .big "object identifier"
      let value := value * 0x80 + byte % 0x80
      if 0x80 ≤ byte then
        rejectIf (i + 1 = content.size ∨ 0xFFFFFFFFFFFFFF < value) kFormat "object identifier is not well formed"
        decodeOidFrom content remaining (i + 1) text value
      else
        match text with
        | none =>
            let head := if value < 80 then value / 40 else 2
            decodeOidFrom content remaining (i + 1) (some (toString head ++ "." ++ toString (value - head * 40))) 0
        | some text => decodeOidFrom content remaining (i + 1) (some (text ++ "." ++ toString value)) 0

def decodeOid (content : ByteSpan) : Outcome String := do
  rejectIf (content.size = 0 ∨ kMaxOidBytes < content.size) kFormat
    ("object identifier has " ++ toString content.size ++ " bytes")
  decodeOidFrom content content.size 0 none 0

def oidOf (element : Element) : Outcome String := decodeOid element.content

/-- The algorithm and the digest that a signature holds. -/
def walk (blob : List UInt8) : Outcome (String × List UInt8) := do
  let contentInfo ← readElement ⟨blob, kFormat, "the signature"⟩ 0
  rejectIf (contentInfo.tag ≠ kTagSequence) kFormat "the signature does not start with a sequence"
  let contentType ← oidOf (← child contentInfo 0 kTagOid "content type")
  rejectIf (contentType ≠ "1.2.840.113549.1.7.2") kFormat "the signature is not a signed-data structure"
  let signedDataTag ← child contentInfo 1 kTagContext0 "signed data"
  let signedData ← child signedDataTag 0 kTagSequence "signed data body"
  let _ ← child signedData 0 kTagInteger "signed data version"
  let _ ← child signedData 1 kTagSet "digest algorithms"
  let inner ← child signedData 2 kTagSequence "signed content"
  let innerType ← oidOf (← child inner 0 kTagOid "signed content type")
  rejectIf (innerType ≠ "1.3.6.1.4.1.311.2.1.4") kFormat "the signed content is not an indirect data content"
  let dataTag ← child inner 1 kTagContext0 "indirect data"
  let data ← child dataTag 0 kTagSequence "indirect data body"
  let digestInfo ← child data 1 kTagSequence "digest information"
  let algorithm ← child digestInfo 0 kTagSequence "digest algorithm"
  let name ← oidOf (← child algorithm 0 kTagOid "digest algorithm identifier")
  let digest ← child digestInfo 1 kTagOctetString "digest"
  return (name, digest.content.bytes)

/-- A blob that has not this shape is unreadable, never an exception. -/
def readAuthenticodeDigestField (blob : List UInt8) : AuthenticodeDigestField :=
  match walk blob with
  | .ok (algorithm, digest) => { readable := true, algorithm := algorithm, digest := digest }
  | .error detail => { detail := detail }

end TheSeed.DigestField
