import TheSeed.Library.Bytes
import TheSeed.Library.Checked

namespace TheSeed.BoundedBytes

open Bytes Checked

/-- A call returns a value or throws `std::runtime_error` with a text. -/
abbrev Outcome := Except String

inductive ByteOrder
  | little
  | big
  deriving DecidableEq, Repr

/-- The number that the bytes of a field stand for. -/
def ByteOrder.value : ByteOrder → List UInt8 → Nat
  | .little, bs => leValue bs
  | .big, bs => beValue bs

/-- The bytes of a field of the given width. -/
def ByteOrder.bytes : ByteOrder → Nat → Nat → List UInt8
  | .little, width, value => leBytes width value
  | .big, width, value => beBytes width value

@[simp] theorem ByteOrder.length_bytes (order : ByteOrder) (width value : Nat) :
    (order.bytes width value).length = width := by
  cases order <;> simp [ByteOrder.bytes]

theorem ByteOrder.value_lt (order : ByteOrder) (bs : List UInt8) :
    order.value bs < 256 ^ bs.length := by
  cases order
  · exact leValue_lt bs
  · exact beValue_lt bs

theorem ByteOrder.value_bytes (order : ByteOrder) {width value : Nat} (h : value < 256 ^ width) :
    order.value (order.bytes width value) = value := by
  cases order
  · exact leValue_leBytes_of_lt h
  · exact beValue_beBytes_of_lt h

def kUint32Max : Nat := 0xFFFFFFFF

/-- The range `[offset, offset + length)` lies inside a buffer of the given size. -/
def rangeFits (offset length size : Nat) : Bool :=
  decide (offset ≤ size) && decide (length ≤ size - offset)

theorem rangeFits_iff {offset length size : Nat} :
    rangeFits offset length size = true ↔ offset + length ≤ size := by
  simp only [rangeFits, Bool.and_eq_true, decide_eq_true_eq]
  omega

def throwMalformed {α : Type} (format detail : String) : Outcome α :=
  .error (format ++ ": " ++ detail)

/-- `if(c) ThrowMalformed(format, detail);` -/
def rejectIf (c : Prop) [Decidable c] (format detail : String) : Outcome Unit :=
  if c then throwMalformed format detail else .ok ()

@[simp] theorem throwMalformed_ne_ok {α : Type} (format detail : String) (a : α) :
    throwMalformed format detail ≠ .ok a := nofun

theorem rejectIf_eq_ok {c : Prop} [Decidable c] {format detail : String} {u : Unit} :
    rejectIf c format detail = .ok u ↔ ¬c := by
  unfold rejectIf
  split <;> simp_all

theorem rejectIf_of_not {c : Prop} [Decidable c] (h : ¬c) (format detail : String) :
    rejectIf c format detail = .ok () :=
  rejectIf_eq_ok.mpr h

def pastTheEnd (what : String) (offset : Nat) (scope : String) (size : Nat) : String :=
  what ++ " at offset " ++ toString offset ++ " extends past the end of " ++ scope ++
    " (" ++ toString size ++ " bytes)"

def structurePastTheEnd (structureName : String) (offset length : Nat) (scope : String) (size : Nat) :
    String :=
  structureName ++ " (offset " ++ toString offset ++ ", size " ++ toString length ++ ")" ++
    " extends past the end of " ++ scope ++ " (" ++ toString size ++ " bytes)"

/-- Read-only view of a byte range. Every access is checked against the view. -/
structure ByteSpan where
  bytes : List UInt8
  format : String
  scope : String := "the file"

def ByteSpan.size (span : ByteSpan) : Nat := span.bytes.length

/-- `Read` of an unsigned field of `width` bytes. -/
def ByteSpan.read (span : ByteSpan) (width offset : Nat) (order : ByteOrder) (field : String) :
    Outcome Nat :=
  if rangeFits offset width span.size then
    .ok (order.value (slice span.bytes offset width))
  else
    throwMalformed span.format (pastTheEnd field offset span.scope span.size)

def ByteSpan.sub (span : ByteSpan) (offset length : Nat) (structureName : String) : Outcome ByteSpan :=
  if rangeFits offset length span.size then
    .ok ⟨slice span.bytes offset length, span.format, structureName⟩
  else
    throwMalformed span.format
      (structurePastTheEnd structureName offset length span.scope span.size)

/-- The bytes before the first NUL at or after `offset`. The NUL must lie
within `maxLength` bytes of it and inside the view. -/
def ByteSpan.cString (span : ByteSpan) (offset maxLength : Nat) (structureName : String) :
    Outcome (List UInt8) := do
  rejectIf (span.size ≤ offset) span.format
    (structureName ++ " at offset " ++ toString offset ++ " is outside " ++ span.scope ++ " (" ++
      toString span.size ++ " bytes)")
  let available := span.size - offset
  let limit := if maxLength < available then maxLength else available
  let window := slice span.bytes offset limit
  if 0 ∈ window then
    return window.takeWhile (fun b => b != 0)
  rejectIf (limit = maxLength ∧ maxLength < available) span.format
    (structureName ++ " at offset " ++ toString offset ++ " is longer than " ++ toString maxLength ++
      " bytes")
  throwMalformed span.format
    (structureName ++ " at offset " ++ toString offset ++ " is unterminated before the end of " ++
      span.scope ++ " (" ++ toString span.size ++ " bytes)")

/-- `MutableByteSpan::Write` over a whole buffer. -/
def writeField (bytes : List UInt8) (format : String) (width offset value : Nat) (order : ByteOrder)
    (field : String) : Outcome (List UInt8) :=
  if rangeFits offset width bytes.length then
    .ok (overwrite bytes offset (order.bytes width value))
  else
    throwMalformed format (pastTheEnd field offset "the file" bytes.length)

/-- `MutableByteSpan::Copy` over a whole buffer. -/
def copyInto (bytes : List UInt8) (format : String) (offset : Nat) (source : List UInt8)
    (structureName : String) : Outcome (List UInt8) :=
  if rangeFits offset source.length bytes.length then
    .ok (overwrite bytes offset source)
  else
    throwMalformed format
      (structurePastTheEnd structureName offset source.length "the file" bytes.length)

theorem ByteSpan.read_eq_ok {span : ByteSpan} {width offset : Nat} {order : ByteOrder} {field : String}
    {v : Nat} : span.read width offset order field = .ok v ↔
      offset + width ≤ span.bytes.length ∧ order.value (slice span.bytes offset width) = v := by
  unfold ByteSpan.read ByteSpan.size
  split <;> simp_all [rangeFits_iff]

theorem ByteSpan.sub_eq_ok {span view : ByteSpan} {offset length : Nat} {structureName : String} :
    span.sub offset length structureName = .ok view ↔
      offset + length ≤ span.bytes.length ∧
        (⟨slice span.bytes offset length, span.format, structureName⟩ : ByteSpan) = view := by
  unfold ByteSpan.sub ByteSpan.size
  split <;> simp_all [rangeFits_iff]

theorem writeField_eq_ok {bytes out : List UInt8} {format field : String} {width offset value : Nat}
    {order : ByteOrder} : writeField bytes format width offset value order field = .ok out ↔
      offset + width ≤ bytes.length ∧ overwrite bytes offset (order.bytes width value) = out := by
  unfold writeField
  split <;> simp_all [rangeFits_iff]

theorem copyInto_eq_ok {bytes source out : List UInt8} {format structureName : String} {offset : Nat} :
    copyInto bytes format offset source structureName = .ok out ↔
      offset + source.length ≤ bytes.length ∧ overwrite bytes offset source = out := by
  unfold copyInto
  split <;> simp_all [rangeFits_iff]

end TheSeed.BoundedBytes
