import TheSeed.BoundedNames
import TheSeed.PeParser

namespace TheSeed.PeDependencies

open Bytes Checked BoundedBytes BoundedNames ByteSwap PeParser
open DependencyLister (Text)

/-! What a PE file is, in either format, and that the parser lists the names of its imports and delay-load imports. -/

structure Section where
  virtualSize : Nat
  virtualAddress : Nat
  rawSize : Nat
  rawPointer : Nat

/-- The addresses that a section occupies. -/
def Section.Covers (s : Section) (rva : Nat) : Prop :=
  s.virtualAddress ≤ rva ∧ rva < s.virtualAddress + max s.virtualSize s.rawSize

structure ImportDescriptor where
  originalFirstThunk : Nat
  timeDateStamp : Nat
  forwarderChain : Nat
  name : Nat
  firstThunk : Nat
  deriving DecidableEq

/-- The descriptor that ends a table. -/
def allZero : ImportDescriptor := ⟨0, 0, 0, 0, 0⟩

/-- The name is an RVA, which the file has as an address where the attributes do not say otherwise. -/
structure DelayDescriptor where
  attributes : Nat
  name : Nat

def DelayDescriptor.RvaForm (e : DelayDescriptor) : Prop := e.attributes &&& kDelayAttributeRvaForm ≠ 0

instance decidableRvaForm (e : DelayDescriptor) : Decidable e.RvaForm :=
  inferInstanceAs (Decidable (e.attributes &&& kDelayAttributeRvaForm ≠ 0))

/-- A description of a PE file. A table without an address is not there. -/
structure PeFile where
  /-- the PE32+ format -/
  plus : Bool
  lfanew : Nat
  optionalSize : Nat
  directoryCount : Nat
  sizeOfHeaders : Nat
  imageBase : Nat
  sections : List Section
  importRva : Nat
  imports : List ImportDescriptor
  delayRva : Nat
  delaySize : Nat
  delays : List DelayDescriptor

namespace PeFile

variable (d : PeFile)

def magic : Nat := if d.plus then kImageNtOptionalHdr64Magic else kImageNtOptionalHdr32Magic

def optionalOffset : Nat := d.lfanew + 4 + sizeOfFileHeader

/-- The place of the data directories in the optional header. -/
def directories : Nat := if d.plus then 112 else 96

def imageBaseField : Field := if d.plus then ⟨24, 8⟩ else ⟨28, 4⟩

/-- The delay-load directory is in the header. -/
def DelayDirectory : Prop :=
  kDelayImportDirectory < d.directoryCount ∧
    d.directories + (kDelayImportDirectory + 1) * sizeOfDataDirectory ≤ d.optionalSize

instance decidableDelayDirectory : Decidable d.DelayDirectory :=
  inferInstanceAs (Decidable (kDelayImportDirectory < d.directoryCount ∧
    d.directories + (kDelayImportDirectory + 1) * sizeOfDataDirectory ≤ d.optionalSize))

/-- What the file has for the name of a delay-load descriptor. -/
def nameField (e : DelayDescriptor) : Nat := if e.RvaForm then e.name else d.imageBase + e.name

end PeFile

/-- Where an RVA is in a file of that size: in the headers, or in the raw data of a section. -/
inductive Located (d : PeFile) (size rva : Nat) : Nat → Prop
  | headers : rva < d.sizeOfHeaders → rva < size → Located d size rva rva
  | raw (s : Section) : s ∈ d.sections → s.virtualAddress ≤ rva → rva < s.virtualAddress + s.rawSize →
      s.rawPointer + s.rawSize ≤ size → Located d size rva (s.rawPointer + (rva - s.virtualAddress))

structure HoldsSection (bytes : List UInt8) (base : Nat) (s : Section) : Prop where
  virtualSize : Holds bytes .little base sectionVirtualSize s.virtualSize
  virtualAddress : Holds bytes .little base sectionVirtualAddress s.virtualAddress
  rawSize : Holds bytes .little base sectionSizeOfRawData s.rawSize
  rawPointer : Holds bytes .little base sectionPointerToRawData s.rawPointer

structure HoldsImport (bytes : List UInt8) (base : Nat) (e : ImportDescriptor) : Prop where
  originalFirstThunk : Holds bytes .little base importOriginalFirstThunk e.originalFirstThunk
  timeDateStamp : Holds bytes .little base importTimeDateStamp e.timeDateStamp
  forwarderChain : Holds bytes .little base importForwarderChain e.forwarderChain
  name : Holds bytes .little base importName e.name
  firstThunk : Holds bytes .little base importFirstThunk e.firstThunk

/-- The address form is for PE32 only. Its sum with the image base is a field, so it is below 2^32. -/
structure HoldsDelay (d : PeFile) (bytes : List UInt8) (base : Nat) (e : DelayDescriptor) : Prop where
  inside : base + kDelayDescriptorSize ≤ bytes.length
  attributes : Holds bytes .little base ⟨0, 4⟩ e.attributes
  name : Holds bytes .little base ⟨4, 4⟩ (d.nameField e)
  live : ∃ b ∈ slice bytes base kDelayDescriptorSize, b ≠ 0
  form : e.RvaForm ∨ d.plus = false

/-- The bytes have the headers of the description, with anything in the places that it does not speak of. -/
structure Encodes (d : PeFile) (bytes : List UInt8) : Prop where
  dos : sizeOfDosHeader ≤ bytes.length
  dosMagic : Holds bytes .little 0 ⟨0, 2⟩ kImageDosSignature
  lfanew : Holds bytes .little 0 eLfanew d.lfanew
  positive : d.lfanew < 2147483648
  signature : Holds bytes .little d.lfanew ⟨0, 4⟩ kImageNtSignature
  sectionCount : Holds bytes .little (d.lfanew + 4) numberOfSections d.sections.length
  optionalSize : Holds bytes .little (d.lfanew + 4) sizeOfOptionalHeader d.optionalSize
  magic : Holds bytes .little d.optionalOffset ⟨0, 2⟩ d.magic
  directories : d.directories + 2 * sizeOfDataDirectory ≤ d.optionalSize
  table : d.optionalOffset + d.optionalSize + d.sections.length * sizeOfSectionHeader ≤ bytes.length
  importRva : Holds bytes .little (d.optionalOffset + d.directories + sizeOfDataDirectory) directoryVirtualAddress
    d.importRva
  directoryCount : Holds bytes .little d.optionalOffset ⟨d.directories - 4, 4⟩ d.directoryCount
  delayRva : d.DelayDirectory → Holds bytes .little
    (d.optionalOffset + d.directories + kDelayImportDirectory * sizeOfDataDirectory) directoryVirtualAddress d.delayRva
  delaySize : d.DelayDirectory → Holds bytes .little
    (d.optionalOffset + d.directories + kDelayImportDirectory * sizeOfDataDirectory) directorySize d.delaySize
  noDelay : ¬ d.DelayDirectory → d.delayRva = 0
  sizeOfHeaders : Holds bytes .little d.optionalOffset ⟨60, 4⟩ d.sizeOfHeaders
  imageBase : Holds bytes .little d.optionalOffset d.imageBaseField d.imageBase
  sections : ∀ i s, d.sections[i]? = some s →
    HoldsSection bytes (d.optionalOffset + d.optionalSize + i * sizeOfSectionHeader) s

/-- The sections are apart from each other and from the headers. -/
structure Sound (d : PeFile) : Prop where
  disjoint : d.sections.Pairwise fun a b => ∀ rva, a.Covers rva → ¬ b.Covers rva
  above : ∀ s ∈ d.sections, ∀ rva, s.Covers rva → d.sizeOfHeaders ≤ rva

/-- The import descriptors, with the all-zero one after them. -/
structure ImportTable (d : PeFile) (bytes : List UInt8) : Prop where
  absent : d.importRva = 0 → d.imports = []
  present : d.importRva ≠ 0 → ∃ offset, Located d bytes.length d.importRva offset ∧
    (∀ i e, d.imports[i]? = some e → HoldsImport bytes (offset + i * sizeOfImportDescriptor) e ∧ e ≠ allZero) ∧
    slice bytes (offset + d.imports.length * sizeOfImportDescriptor) sizeOfImportDescriptor =
      List.replicate sizeOfImportDescriptor 0

/-- The delay-load descriptors, with the all-zero one after them, or up to the declared size. -/
structure DelayTable (d : PeFile) (bytes : List UInt8) : Prop where
  absent : d.delayRva = 0 → d.delays = []
  present : d.delayRva ≠ 0 → ∃ offset, Located d bytes.length d.delayRva offset ∧
    (∀ i e, d.delays[i]? = some e → HoldsDelay d bytes (offset + i * kDelayDescriptorSize) e ∧
      (d.delaySize = 0 ∨ i * kDelayDescriptorSize < d.delaySize)) ∧
    ((d.delaySize ≠ 0 ∧ d.delaySize ≤ d.delays.length * kDelayDescriptorSize) ∨
      slice bytes (offset + d.delays.length * kDelayDescriptorSize) kDelayDescriptorSize =
        List.replicate kDelayDescriptorSize 0)

/-- The name that an RVA leads to. -/
def Named (d : PeFile) (bytes : List UInt8) (rva : Nat) (name : Text) : Prop :=
  ∃ offset, Located d bytes.length rva offset ∧ NameAt bytes offset name

structure Names (d : PeFile) (bytes : List UInt8) (imports delays : List Text) : Prop where
  imported : List.Forall₂ (Named d bytes) (d.imports.map ImportDescriptor.name) imports
  delayed : List.Forall₂ (Named d bytes) (d.delays.map DelayDescriptor.name) delays
  total : (imports.map List.length).sum + (delays.map List.length).sum ≤ bytes.length

/-- The bytes are a file of the description, which needs these names. -/
structure Describes (d : PeFile) (bytes : List UInt8) (imports delays : List Text) : Prop where
  encodes : Encodes d bytes
  sound : Sound d
  importTable : ImportTable d bytes
  delayTable : DelayTable d bytes
  names : Names d bytes imports delays

/-- The two names are the same but for the case of ASCII letters. -/
def Alike (a b : Text) : Prop := lowerAscii a = lowerAscii b

instance decidableAlike (a b : Text) : Decidable (Alike a b) := inferInstanceAs (Decidable (lowerAscii a = lowerAscii b))

/-- The names in their order, without the delay-load names that are like an earlier one. -/
def withDelays (listed : List Text) : List Text → List Text
  | [] => listed
  | name :: rest => if ∃ earlier ∈ listed, Alike name earlier then withDelays listed rest else withDelays (listed ++ [name]) rest

section sections

variable {d : PeFile} {bytes : List UInt8} {size rva offset : Nat} {headers : List (List UInt8)}

/-- The copy of a section's header. -/
structure Copied (s : Section) (header : List UInt8) : Prop where
  virtualSize : sectionVirtualSize.get .little .little header = s.virtualSize
  virtualAddress : sectionVirtualAddress.get .little .little header = s.virtualAddress
  rawSize : sectionSizeOfRawData.get .little .little header = s.rawSize
  rawPointer : sectionPointerToRawData.get .little .little header = s.rawPointer

theorem Copied.covers {s : Section} {header : List UInt8} (h : Copied s header) (rva : Nat) :
    covers .little header rva = true ↔ s.Covers rva := by
  simp only [PeParser.covers, h.virtualSize, h.virtualAddress, h.rawSize, Bool.and_eq_true, decide_eq_true_eq,
    Section.Covers]

theorem HoldsSection.copied {s : Section} {base : Nat} (h : HoldsSection bytes base s)
    (hbase : base + sizeOfSectionHeader ≤ bytes.length) : Copied s (slice bytes base sizeOfSectionHeader) where
  virtualSize := h.virtualSize.get .little (by decide) hbase
  virtualAddress := h.virtualAddress.get .little (by decide) hbase
  rawSize := h.rawSize.get .little (by decide) hbase
  rawPointer := h.rawPointer.get .little (by decide) hbase

/-- Of sections that are apart, the one that covers an address is found. -/
theorem find_section {sections : List Section} (hcopied : List.Forall₂ Copied sections headers)
    (hdisjoint : sections.Pairwise fun a b => ∀ rva, a.Covers rva → ¬ b.Covers rva) {s : Section} (hs : s ∈ sections)
    (hcovers : s.Covers rva) : ∃ header, headers.find? (covers .little · rva) = some header ∧ Copied s header := by
  induction hcopied with
  | nil => cases hs
  | @cons first header sections headers hfirst _ ih =>
    rw [List.pairwise_cons] at hdisjoint
    rcases List.mem_cons.mp hs with rfl | hs
    · exact ⟨header, List.find?_cons_of_pos ((hfirst.covers rva).mpr hcovers), hfirst⟩
    · obtain ⟨found, hfind, hfound⟩ := ih hdisjoint.2 hs
      have hnot : ¬ first.Covers rva := fun h => hdisjoint.1 s hs rva h hcovers
      refine ⟨found, ?_, hfound⟩
      rw [List.find?_cons_of_neg]
      · exact hfind
      · intro h
        exact hnot ((hfirst.covers rva).mp h)

/-- An RVA of the description is found where it is. -/
theorem rvaToOffset_ok (hcopied : List.Forall₂ Copied d.sections headers) (hs : Sound d)
    (hlocated : Located d size rva offset) (what : String) :
    rvaToOffset .little headers d.sizeOfHeaders size rva what = .ok offset := by
  cases hlocated with
  | headers hbelow hinside =>
    unfold rvaToOffset
    exact if_pos ⟨hbelow, hinside⟩
  | raw s hmem hle hlt hinside =>
    have hcovers : s.Covers rva := ⟨hle, by omega⟩
    have habove := hs.above s hmem rva hcovers
    obtain ⟨header, hfind, hheader⟩ := find_section hcopied hs.disjoint hmem hcovers
    have hbelow : ¬ (rva < d.sizeOfHeaders ∧ rva < size) := by omega
    have hfits : ¬ size ≤ s.rawPointer + (rva - s.virtualAddress) := by omega
    unfold rvaToOffset
    simp only [if_neg hbelow, hfind, hheader.rawPointer, hheader.virtualAddress, if_neg hfits]

theorem sectionLoop_ok (he : Encodes d bytes) (what : String) (remaining : Nat) :
    ∀ (i : Nat) (found : List (List UInt8)), i + remaining = d.sections.length →
    ∃ headers, sectionLoop ⟨slice bytes (d.optionalOffset + d.optionalSize) (d.sections.length * sizeOfSectionHeader),
      kFormat, what⟩ remaining i found = .ok (found ++ headers) ∧ List.Forall₂ Copied (d.sections.drop i) headers := by
  have htable := he.table
  have hlength : (slice bytes (d.optionalOffset + d.optionalSize) (d.sections.length * sizeOfSectionHeader)).length =
    d.sections.length * sizeOfSectionHeader := length_slice_of_le htable
  induction remaining with
  | zero =>
    intro i found hi
    refine ⟨[], ?_, ?_⟩
    · rw [sectionLoop, List.append_nil]
    · rw [List.drop_eq_nil_of_le (by omega)]
      exact .nil
  | succ remaining ih =>
    intro i found hi
    have hlt : i < d.sections.length := by omega
    have hroom : i * sizeOfSectionHeader + sizeOfSectionHeader ≤ d.sections.length * sizeOfSectionHeader := by
      rw [← Nat.succ_mul]
      exact Nat.mul_le_mul_right _ hlt
    have hholds := he.sections i d.sections[i] (List.getElem?_eq_getElem hlt)
    let header := slice bytes (d.optionalOffset + d.optionalSize + i * sizeOfSectionHeader) sizeOfSectionHeader
    obtain ⟨headers, hloop, hheaders⟩ := ih (i + 1) (found ++ [header]) (by omega)
    refine ⟨header :: headers, ?_, ?_⟩
    · rw [sectionLoop, readStructure_ok (by simpa only [hlength] using hroom), slice_slice hroom, ok_bind, hloop,
        List.append_assoc, List.singleton_append]
    · rw [List.drop_eq_getElem_cons hlt]
      exact .cons (hholds.copied (by omega)) hheaders

end sections

section tables

variable {d : PeFile} {bytes : List UInt8} {base offset : Nat} {file : ByteSpan} {scope : String}

/-- Where there are only zeros each field is 0. -/
theorem holds_zero {size : Nat} {f : Field} (h : slice bytes base size = List.replicate size 0)
    (hf : f.offset + f.width ≤ size) : Holds bytes .little base f 0 := by
  refine ⟨Nat.pow_pos (by decide), ?_⟩
  have hzero := leBytes_leValue (List.replicate f.width 0)
  rw [leValue_replicate_zero, List.length_replicate] at hzero
  rw [← slice_slice hf, h, slice_replicate hf, ByteOrder.bytes, hzero]

/-- A range that is all there lies in the file. -/
theorem inside_of_replicate {size : Nat} (hsize : 0 < size) (h : slice bytes base size = List.replicate size 0) :
    base + size ≤ bytes.length := by
  have hlength := congrArg List.length h
  rw [length_slice, List.length_replicate] at hlength
  omega

theorem importLoop_of_read {descriptor : List UInt8} {nameRvas : List Nat}
    (h : readStructure file sizeOfImportDescriptor offset "import descriptor" = .ok descriptor) :
    importLoop .little file offset nameRvas =
      if importOriginalFirstThunk.get .little .little descriptor = 0 ∧ importTimeDateStamp.get .little .little descriptor = 0 ∧
          importForwarderChain.get .little .little descriptor = 0 ∧ importName.get .little .little descriptor = 0 ∧
          importFirstThunk.get .little .little descriptor = 0 then .ok nameRvas
      else importLoop .little file (offset + sizeOfImportDescriptor)
        (nameRvas ++ [importName.get .little .little descriptor]) := by
  rw [importLoop]
  split
  · next message hread =>
    rw [h] at hread
    cases hread
  · next found hread =>
    rw [h] at hread
    cases hread
    rfl

/-- One descriptor more, or the end of the table. -/
theorem importLoop_step {e : ImportDescriptor} (h : HoldsImport bytes base e)
    (hbase : base + sizeOfImportDescriptor ≤ bytes.length) (nameRvas : List Nat) :
    importLoop .little ⟨bytes, kFormat, scope⟩ base nameRvas =
      if e = allZero then .ok nameRvas
      else importLoop .little ⟨bytes, kFormat, scope⟩ (base + sizeOfImportDescriptor) (nameRvas ++ [e.name]) := by
  have hread := @readStructure_ok ⟨bytes, kFormat, scope⟩ _ _ hbase "import descriptor"
  rw [importLoop_of_read hread, h.originalFirstThunk.get .little (by decide) hbase,
    h.timeDateStamp.get .little (by decide) hbase, h.forwarderChain.get .little (by decide) hbase,
    h.name.get .little (by decide) hbase, h.firstThunk.get .little (by decide) hbase]
  congr 1
  cases e
  simp [allZero]

theorem importLoop_ok (hholds : ∀ i e, d.imports[i]? = some e →
      HoldsImport bytes (offset + i * sizeOfImportDescriptor) e ∧ e ≠ allZero)
    (hend : slice bytes (offset + d.imports.length * sizeOfImportDescriptor) sizeOfImportDescriptor =
      List.replicate sizeOfImportDescriptor 0) (remaining : Nat) :
    ∀ (i : Nat) (nameRvas : List Nat), i + remaining = d.imports.length →
    importLoop .little ⟨bytes, kFormat, scope⟩ (offset + i * sizeOfImportDescriptor) nameRvas =
      .ok (nameRvas ++ (d.imports.drop i).map ImportDescriptor.name) := by
  have hinside := inside_of_replicate (by decide) hend
  induction remaining with
  | zero =>
    intro i nameRvas hi
    obtain rfl : i = d.imports.length := by omega
    have hlast : HoldsImport bytes (offset + d.imports.length * sizeOfImportDescriptor) allZero :=
      ⟨holds_zero hend (by decide), holds_zero hend (by decide), holds_zero hend (by decide), holds_zero hend (by decide),
        holds_zero hend (by decide)⟩
    rw [importLoop_step hlast hinside, if_pos rfl, List.drop_length, List.map_nil, List.append_nil]
  | succ remaining ih =>
    intro i nameRvas hi
    have hlt : i < d.imports.length := by omega
    obtain ⟨hentry, hlive⟩ := hholds i d.imports[i] (List.getElem?_eq_getElem hlt)
    have hnext : (i + 1) * sizeOfImportDescriptor ≤ d.imports.length * sizeOfImportDescriptor := Nat.mul_le_mul_right _ hlt
    rw [Nat.succ_mul] at hnext
    rw [importLoop_step hentry (by omega), if_neg hlive, Nat.add_assoc, ← Nat.succ_mul, ih (i + 1) _ (by omega),
      List.drop_eq_getElem_cons hlt, List.map_cons, List.append_assoc, List.singleton_append]

theorem delayNameRva_ok {e : DelayDescriptor} (he : Encodes d bytes) (h : HoldsDelay d bytes base e) (what : String) :
    delayNameRva ⟨slice bytes base kDelayDescriptorSize, kFormat, what⟩ d.imageBase = .ok e.name := by
  have hlength : (slice bytes base kDelayDescriptorSize).length = kDelayDescriptorSize := length_slice_of_le h.inside
  have hattributes : ByteSpan.read ⟨slice bytes base kDelayDescriptorSize, kFormat, what⟩ 4 0 .little
      "delay-load attributes" = .ok e.attributes := by
    have hview : Holds (slice bytes base kDelayDescriptorSize) .little 0 ⟨0, 4⟩ e.attributes :=
      h.attributes.view (by decide)
    exact hview.read (by rw [hlength]; decide) kFormat what _
  have hname : ByteSpan.read ⟨slice bytes base kDelayDescriptorSize, kFormat, what⟩ 4 4 .little
      "delay-load library name" = .ok (d.nameField e) := by
    have hview : Holds (slice bytes base kDelayDescriptorSize) .little 0 ⟨4, 4⟩ (d.nameField e) := h.name.view (by decide)
    exact hview.read (by rw [hlength]; decide) kFormat what _
  rw [delayNameRva, hattributes, ok_bind, hname, ok_bind, PeFile.nameField]
  by_cases hform : e.RvaForm
  · rw [if_neg hform, if_pos hform]
    rfl
  · -- an address of a PE32 file counts from an image base of 32 bits
    have hplus := h.form.resolve_left hform
    have hbase := he.imageBase.1
    rw [PeFile.imageBaseField, hplus] at hbase
    have hsmall : d.imageBase % 2 ^ 32 = d.imageBase := Nat.mod_eq_of_lt hbase
    have hform' : e.attributes &&& kDelayAttributeRvaForm = 0 := not_not.mp hform
    rw [if_pos hform', if_neg hform]
    dsimp only
    rw [hsmall, rejectIf_of_not (by omega), ok_bind, Nat.add_sub_cancel_left]
    rfl

section steps

variable {imageBase tableSize start : Nat} {nameRvas : List Nat}

theorem delayLoop_of_sub (hmore : tableSize = 0 ∨ offset - start < tableSize)
    (hinside : offset + kDelayDescriptorSize ≤ bytes.length) :
    delayLoop ⟨bytes, kFormat, scope⟩ imageBase tableSize start offset nameRvas =
      if (slice bytes offset kDelayDescriptorSize).all (· == 0) then .ok nameRvas
      else
        delayNameRva ⟨slice bytes offset kDelayDescriptorSize, kFormat, "delay-load descriptor"⟩ imageBase >>= fun nameRva =>
          delayLoop ⟨bytes, kFormat, scope⟩ imageBase tableSize start (offset + kDelayDescriptorSize)
            (nameRvas ++ [nameRva]) := by
  have hsub := @sub_ok ⟨bytes, kFormat, scope⟩ _ _ hinside "delay-load descriptor"
  rw [delayLoop, if_pos hmore]
  split
  · next message hread =>
    rw [hsub] at hread
    cases hread
  · next found hread =>
    rw [hsub] at hread
    cases hread
    split
    · rfl
    · cases delayNameRva ⟨slice bytes offset kDelayDescriptorSize, kFormat, "delay-load descriptor"⟩ imageBase <;> rfl

theorem delayLoop_stop (hmore : ¬ (tableSize = 0 ∨ offset - start < tableSize)) :
    delayLoop file imageBase tableSize start offset nameRvas = .ok nameRvas := by
  rw [delayLoop, if_neg hmore]

end steps

theorem delayLoop_ok (he : Encodes d bytes)
    (hholds : ∀ i e, d.delays[i]? = some e → HoldsDelay d bytes (offset + i * kDelayDescriptorSize) e ∧
      (d.delaySize = 0 ∨ i * kDelayDescriptorSize < d.delaySize))
    (hend : (d.delaySize ≠ 0 ∧ d.delaySize ≤ d.delays.length * kDelayDescriptorSize) ∨
      slice bytes (offset + d.delays.length * kDelayDescriptorSize) kDelayDescriptorSize =
        List.replicate kDelayDescriptorSize 0) (remaining : Nat) :
    ∀ (i : Nat) (nameRvas : List Nat), i + remaining = d.delays.length →
    delayLoop ⟨bytes, kFormat, scope⟩ d.imageBase d.delaySize offset (offset + i * kDelayDescriptorSize) nameRvas =
      .ok (nameRvas ++ (d.delays.drop i).map DelayDescriptor.name) := by
  induction remaining with
  | zero =>
    intro i nameRvas hi
    obtain rfl : i = d.delays.length := by omega
    rw [List.drop_length, List.map_nil, List.append_nil]
    by_cases hmore : d.delaySize = 0 ∨
        offset + d.delays.length * kDelayDescriptorSize - offset < d.delaySize
    · have hzero := hend.resolve_left (by omega)
      rw [delayLoop_of_sub hmore (inside_of_replicate (by decide) hzero), hzero, if_pos (by decide)]
    · exact delayLoop_stop hmore
  | succ remaining ih =>
    intro i nameRvas hi
    have hlt : i < d.delays.length := by omega
    obtain ⟨hentry, hmore⟩ := hholds i d.delays[i] (List.getElem?_eq_getElem hlt)
    have hlive : ¬ (slice bytes (offset + i * kDelayDescriptorSize) kDelayDescriptorSize).all (· == 0) = true := by
      obtain ⟨b, hb, hne⟩ := hentry.live
      intro hall
      exact hne (beq_iff_eq.mp (List.all_eq_true.mp hall b hb))
    rw [delayLoop_of_sub (by omega) hentry.inside, if_neg hlive, delayNameRva_ok he hentry, ok_bind, Nat.add_assoc,
      ← Nat.succ_mul, ih (i + 1) _ (by omega), List.drop_eq_getElem_cons hlt, List.map_cons, List.append_assoc,
      List.singleton_append]

end tables

section names

variable {d : PeFile} {bytes : List UInt8} {headers : List (List UInt8)} {rvas : List Nat} {names : List Text}

theorem nameAt_ok {rva total : Nat} {name : Text} (hcopied : List.Forall₂ Copied d.sections headers) (hs : Sound d)
    (hn : Named d bytes rva name) (htotal : total + name.length ≤ bytes.length) (scope what plural : String) :
    nameAt .little ⟨bytes, kFormat, scope⟩ ⟨headers, d.sizeOfHeaders⟩ what plural rva total =
      .ok (name, total + name.length) := by
  obtain ⟨offset, hlocated, hname⟩ := hn
  have hcString := @NameAt.cString _ _ ⟨bytes, kFormat, scope⟩ hname what
  rw [nameAt, ByteSpan.size, rvaToOffset_ok hcopied hs hlocated, ok_bind, kMaxNameLength, hcString, ok_bind]
  dsimp only
  rw [rejectIf_of_not (Nat.not_lt.mpr htotal), ok_bind]
  rfl

theorem importNames_ok (hcopied : List.Forall₂ Copied d.sections headers) (hs : Sound d)
    (hnames : List.Forall₂ (Named d bytes) rvas names) (scope : String) :
    ∀ (total : Nat) (found : List Text), total + (names.map List.length).sum ≤ bytes.length →
    importNames .little ⟨bytes, kFormat, scope⟩ ⟨headers, d.sizeOfHeaders⟩ rvas total found =
      .ok (found ++ names, total + (names.map List.length).sum) := by
  induction hnames with
  | nil =>
    intro total found _
    rw [importNames, List.append_nil]
    rfl
  | @cons rva name rvas names hname _ ih =>
    intro total found htotal
    rw [List.map_cons, List.sum_cons] at htotal ⊢
    rw [importNames, nameAt_ok hcopied hs hname (by omega), ok_bind]
    dsimp only
    rw [ih _ _ (by omega), List.append_assoc, List.singleton_append, Nat.add_assoc]

/-- The set of lowered names stands for the names that are listed. -/
theorem delayNames_ok (hcopied : List.Forall₂ Copied d.sections headers) (hs : Sound d)
    (hnames : List.Forall₂ (Named d bytes) rvas names) (scope : String) :
    ∀ (total : Nat) (seen listed : List Text), (∀ text, text ∈ seen ↔ text ∈ listed.map lowerAscii) →
      total + (names.map List.length).sum ≤ bytes.length →
    delayNames .little ⟨bytes, kFormat, scope⟩ ⟨headers, d.sizeOfHeaders⟩ rvas total seen listed =
      .ok (withDelays listed names) := by
  induction hnames with
  | nil =>
    intro total seen listed _ _
    rw [delayNames, withDelays]
  | @cons rva name rvas names hname _ ih =>
    intro total seen listed hseen htotal
    rw [List.map_cons, List.sum_cons] at htotal
    have hlisted : seen.contains (lowerAscii name) = true ↔ ∃ earlier ∈ listed, Alike name earlier := by
      rw [List.contains_iff_mem, hseen, List.mem_map]
      exact ⟨fun ⟨earlier, hmem, heq⟩ => ⟨earlier, hmem, heq.symm⟩, fun ⟨earlier, hmem, heq⟩ => ⟨earlier, hmem, heq.symm⟩⟩
    rw [delayNames, nameAt_ok hcopied hs hname (by omega), ok_bind, withDelays]
    dsimp only
    by_cases hold : seen.contains (lowerAscii name) = true
    · rw [if_pos hold, if_pos (hlisted.mp hold)]
      exact ih _ seen listed hseen (by omega)
    · rw [if_neg hold, if_neg (fun h => hold (hlisted.mpr h))]
      apply ih _ _ _ _ (by omega)
      intro text
      rw [List.mem_cons, hseen, List.map_append, List.mem_append, List.map_singleton, List.mem_singleton, or_comm]

end names

section file

variable {d : PeFile} {bytes : List UInt8} {imports delays : List Text}

theorem fromLittleEndian_little (width value : Nat) : fromLittleEndian .little width value = value := by
  rw [fromLittleEndian, byteSwapIfNeeded, if_pos rfl]

/-- The optional header lies in the file, with SizeOfHeaders and the image base before its directories. -/
theorem optional_inside (he : Encodes d bytes) : d.optionalOffset + d.directories + 2 * sizeOfDataDirectory ≤ bytes.length ∧
    96 ≤ d.directories := by
  have htable := he.table
  have hdirectories := he.directories
  refine ⟨by omega, ?_⟩
  unfold PeFile.directories
  split <;> decide

variable {headers : List (List UInt8)} {delaySize : Nat}

/-- The headers as the tables are listed from them. A file without a delay-load directory has no size for it. -/
def headersOf (d : PeFile) (delaySize : Nat) : Headers :=
  ⟨d.optionalOffset, d.optionalSize, d.sections.length, !d.plus, d.importRva, d.delayRva, delaySize⟩

theorem imageBase_ok (he : Encodes d bytes) (scope : String) :
    imageBase ⟨bytes, kFormat, scope⟩ (headersOf d delaySize) = .ok d.imageBase := by
  obtain ⟨hinside, hlarge⟩ := optional_inside he
  have hbase := he.imageBase
  unfold PeFile.imageBaseField at hbase
  unfold imageBase headersOf
  cases hplus : d.plus with
  | false =>
    rw [hplus] at hbase
    apply hbase.read
    simp
    omega
  | true =>
    rw [hplus] at hbase
    apply hbase.read
    simp
    omega

theorem nameRvas_ok (h : Describes d bytes imports delays) (hcopied : List.Forall₂ Copied d.sections headers)
    (scope : String) : nameRvas .little ⟨bytes, kFormat, scope⟩ ⟨headers, d.sizeOfHeaders⟩ (headersOf d delaySize) =
      .ok (d.imports.map ImportDescriptor.name) := by
  unfold nameRvas headersOf
  dsimp only [ByteSpan.size]
  by_cases hrva : d.importRva ≠ 0
  · obtain ⟨offset, hlocated, hholds, hend⟩ := h.importTable.present hrva
    have hrun := @importLoop_ok d bytes offset scope hholds hend d.imports.length 0 [] (Nat.zero_add _)
    rw [Nat.zero_mul, Nat.add_zero, List.nil_append, List.drop_zero] at hrun
    rw [if_pos hrva, rvaToOffset_ok hcopied h.sound hlocated, ok_bind, hrun]
  · rw [if_neg hrva, h.importTable.absent (not_not.mp hrva), List.map_nil]

theorem delayNameRvas_ok (h : Describes d bytes imports delays) (hcopied : List.Forall₂ Copied d.sections headers)
    (scope : String) (hsize : d.delayRva ≠ 0 → delaySize = d.delaySize) :
    delayNameRvas .little ⟨bytes, kFormat, scope⟩ ⟨headers, d.sizeOfHeaders⟩ (headersOf d delaySize) =
      .ok (d.delays.map DelayDescriptor.name) := by
  have hbase := @imageBase_ok d bytes delaySize h.encodes scope
  rw [delayNameRvas, hbase]
  unfold headersOf
  dsimp only [ByteSpan.size]
  by_cases hrva : d.delayRva ≠ 0
  · obtain ⟨offset, hlocated, hholds, hend⟩ := h.delayTable.present hrva
    have hrun := @delayLoop_ok d bytes offset scope h.encodes hholds hend d.delays.length 0 [] (Nat.zero_add _)
    rw [Nat.zero_mul, Nat.add_zero, List.nil_append, List.drop_zero] at hrun
    rw [if_pos hrva, ok_bind, rvaToOffset_ok hcopied h.sound hlocated, ok_bind, hsize hrva, hrun]
  · rw [if_neg hrva, h.delayTable.absent (not_not.mp hrva), List.map_nil]

theorem listTables_ok (h : Describes d bytes imports delays) (scope : String)
    (hsize : d.delayRva ≠ 0 → delaySize = d.delaySize) :
    listTables .little ⟨bytes, kFormat, scope⟩ (headersOf d delaySize) = .ok (withDelays imports delays) := by
  have he := h.encodes
  obtain ⟨hinside, hlarge⟩ := optional_inside he
  have hheaders := he.sizeOfHeaders.read (by dsimp only; omega) kFormat scope "SizeOfHeaders"
  obtain ⟨headers, hloop, hcopied⟩ := sectionLoop_ok he "section table" d.sections.length 0 [] (Nat.zero_add _)
  rw [List.nil_append] at hloop
  rw [List.drop_zero] at hcopied
  have htotal := h.names.total
  have himported := importNames_ok hcopied h.sound h.names.imported scope 0 [] (by omega)
  rw [List.nil_append, Nat.zero_add] at himported
  have hdelayed := delayNames_ok hcopied h.sound h.names.delayed scope (imports.map List.length).sum
    (imports.map lowerAscii) imports (fun _ => Iff.rfl) htotal
  have hnames := @nameRvas_ok d bytes imports delays headers delaySize h hcopied scope
  have hdelays := delayNameRvas_ok h hcopied scope hsize
  rw [listTables]
  dsimp only [headersOf] at hnames hdelays ⊢
  rw [hheaders, ok_bind, fromLittleEndian_little, sub_ok he.table, ok_bind, hloop, ok_bind, hnames, ok_bind, hdelays, ok_bind,
    himported, ok_bind]
  exact hdelayed

theorem delayDirectory_ok (he : Encodes d bytes) (scope : String) :
    ∃ delaySize, delayDirectory .little ⟨bytes, kFormat, scope⟩ (d.optionalOffset + d.directories)
      (d.optionalOffset + d.optionalSize) d.directoryCount = .ok (d.delayRva, delaySize) ∧
      (d.delayRva ≠ 0 → delaySize = d.delaySize) := by
  have htable := he.table
  unfold delayDirectory
  by_cases hdelay : d.DelayDirectory
  · obtain ⟨hcount, hroom⟩ := hdelay
    have hinside : d.optionalOffset + d.directories + kDelayImportDirectory * sizeOfDataDirectory + sizeOfDataDirectory ≤
        bytes.length := by
      rw [Nat.succ_mul] at hroom
      omega
    refine ⟨d.delaySize, ?_, fun _ => rfl⟩
    rw [if_pos ⟨hcount, by omega⟩, readStructure_ok hinside, ok_bind,
      (he.delayRva ⟨hcount, hroom⟩).get .little (by decide) hinside,
      (he.delaySize ⟨hcount, hroom⟩).get .little (by decide) hinside]
    rfl
  · have hrva := he.noDelay hdelay
    refine ⟨0, ?_, fun h => absurd hrva h⟩
    rw [if_neg, hrva]
    rintro ⟨hcount, hroom⟩
    exact hdelay ⟨hcount, by omega⟩

theorem dataDirectoryOffset_ok (d : PeFile) : dataDirectoryOffset d.magic = .ok d.directories := by
  unfold dataDirectoryOffset PeFile.magic PeFile.directories
  cases d.plus <;> rfl

/-- Without both tables there are no names. -/
theorem withDelays_absent (h : Describes d bytes imports delays) (himport : d.importRva = 0) (hdelay : d.delayRva = 0) :
    withDelays imports delays = [] := by
  have himported := h.names.imported
  have hdelayed := h.names.delayed
  rw [h.importTable.absent himport] at himported
  rw [h.delayTable.absent hdelay] at hdelayed
  cases himported
  cases hdelayed
  rfl

theorem listOptionalHeader_ok (h : Describes d bytes imports delays) (scope : String) :
    listOptionalHeader .little ⟨bytes, kFormat, scope⟩ d.optionalOffset d.optionalSize d.sections.length d.magic =
      .ok (withDelays imports delays) := by
  have he := h.encodes
  obtain ⟨hinside, hlarge⟩ := optional_inside he
  have himport : d.optionalOffset + d.directories + sizeOfDataDirectory + sizeOfDataDirectory ≤ bytes.length := by omega
  have hcount := he.directoryCount.read (by dsimp only; omega) kFormat scope "NumberOfRvaAndSizes"
  dsimp only at hcount
  rw [← Nat.add_sub_assoc (by omega)] at hcount
  obtain ⟨delaySize, hdelay, hsize⟩ := delayDirectory_ok he scope
  have hpe32 : decide (d.magic = kImageNtOptionalHdr32Magic) = !d.plus := by
    unfold PeFile.magic
    cases d.plus <;> rfl
  rw [listOptionalHeader, dataDirectoryOffset_ok, ok_bind, rejectIf_of_not (Nat.not_lt.mpr he.directories), ok_bind,
    readStructure_ok himport, ok_bind]
  dsimp only
  rw [hcount, ok_bind, fromLittleEndian_little, hdelay, ok_bind, he.importRva.get .little (by decide) himport]
  dsimp only
  by_cases habsent : d.importRva = 0 ∧ d.delayRva = 0
  · rw [if_pos habsent, withDelays_absent h habsent.1 habsent.2]
    rfl
  · rw [if_neg habsent, hpe32]
    exact listTables_ok h scope hsize

/-- On every machine the headers before the optional one are read. -/
theorem reaches_optionalHeader (host : ByteOrder) (he : Encodes d bytes) :
    listDependenciesFromBytes host bytes =
      listOptionalHeader host ⟨bytes, kFormat, "the file"⟩ d.optionalOffset d.optionalSize d.sections.length
        (fromLittleEndian host 2 d.magic) := by
  have hdos : 0 + sizeOfDosHeader ≤ bytes.length := by
    rw [Nat.zero_add]
    exact he.dos
  have hdosLength : (slice bytes 0 sizeOfDosHeader).length = sizeOfDosHeader := length_slice_of_le hdos
  obtain ⟨hinside, _⟩ := optional_inside he
  have hpe : d.lfanew + (4 + sizeOfFileHeader + 2) ≤ bytes.length := by
    unfold PeFile.optionalOffset sizeOfDataDirectory at hinside
    omega
  have hpeLength : (slice bytes d.lfanew (4 + sizeOfFileHeader + 2)).length = 4 + sizeOfFileHeader + 2 :=
    length_slice_of_le hpe
  have hdosMagic : Holds (slice bytes 0 sizeOfDosHeader) .little 0 ⟨0, 2⟩ kImageDosSignature := he.dosMagic.view (by decide)
  have hlfanew : Holds (slice bytes 0 sizeOfDosHeader) .little 0 eLfanew d.lfanew := he.lfanew.view (by decide)
  have hsignature : Holds (slice bytes d.lfanew (4 + sizeOfFileHeader + 2)) .little 0 ⟨0, 4⟩ kImageNtSignature :=
    he.signature.view (by decide)
  have hmagic : Holds (slice bytes d.lfanew (4 + sizeOfFileHeader + 2)) .little (4 + sizeOfFileHeader) ⟨0, 2⟩ d.magic := by
    have hbase := he.magic
    rw [PeFile.optionalOffset, Nat.add_assoc] at hbase
    exact hbase.view (by decide)
  have hsections : Holds (slice bytes d.lfanew (4 + sizeOfFileHeader + 2)) .little 4 numberOfSections d.sections.length :=
    he.sectionCount.view (by decide)
  have hoptional : Holds (slice bytes d.lfanew (4 + sizeOfFileHeader + 2)) .little 4 sizeOfOptionalHeader d.optionalSize :=
    he.optionalSize.view (by decide)
  have hsigned : signed 4 d.lfanew = (d.lfanew : Int) := by
    rw [signed, if_pos]
    exact he.positive
  have hdosRead : ByteSpan.read ⟨slice bytes 0 sizeOfDosHeader, kFormat, "DOS header"⟩ 2 0 .little
      "DOS header signature" = .ok kImageDosSignature := hdosMagic.read (by rw [hdosLength]; decide) _ _ _
  have hlfanewRead : ByteSpan.read ⟨slice bytes 0 sizeOfDosHeader, kFormat, "DOS header"⟩ 4 eLfanew.offset .little
      "e_lfanew" = .ok d.lfanew := hlfanew.read (by rw [hdosLength]; decide) _ _ _
  have hsignatureRead : ByteSpan.read ⟨slice bytes d.lfanew (4 + sizeOfFileHeader + 2), kFormat, "PE header"⟩ 4 0 .little
      "PE signature" = .ok kImageNtSignature := hsignature.read (by rw [hpeLength]; decide) _ _ _
  have hmagicRead : ByteSpan.read ⟨slice bytes d.lfanew (4 + sizeOfFileHeader + 2), kFormat, "PE header"⟩ 2
      (4 + sizeOfFileHeader) .little "optional header magic" = .ok d.magic :=
    hmagic.read (by rw [hpeLength]; decide) _ _ _
  have hcoff : 4 + sizeOfFileHeader ≤ (slice bytes d.lfanew (4 + sizeOfFileHeader + 2)).length := by
    rw [hpeLength]
    decide
  rw [listDependenciesFromBytes]
  dsimp only
  rw [sub_ok hdos, ok_bind, hdosRead, ok_bind, rejectIf_of_not (not_not.mpr rfl), ok_bind, hlfanewRead, ok_bind, hsigned,
    rejectIf_of_not (by omega), ok_bind, Int.toNat_natCast, sub_ok hpe, ok_bind, hsignatureRead, ok_bind,
    rejectIf_of_not (not_not.mpr rfl), ok_bind, readStructure_ok hcoff, ok_bind, hmagicRead, ok_bind,
    hsections.get host (by decide) hcoff, hoptional.get host (by decide) hcoff]
  rfl

/-- On a big-endian machine the magic is swapped twice, and belongs to no format. -/
theorem big_endian_refuses (d : PeFile) : ∃ detail, dataDirectoryOffset (fromLittleEndian .big 2 d.magic) = .error detail := by
  unfold PeFile.magic
  cases d.plus
  · exact ⟨_, rfl⟩
  · exact ⟨_, rfl⟩

theorem big_endian_fails (he : Encodes d bytes) : ∃ message, listDependenciesFromBytes .big bytes = .error message := by
  obtain ⟨detail, hdetail⟩ := big_endian_refuses d
  refine ⟨detail, ?_⟩
  rw [reaches_optionalHeader .big he, listOptionalHeader, hdetail, error_bind]

/-- The names are listed on the little-endian machines, and on no other. -/
theorem lists_names_iff (host : ByteOrder) (h : Describes d bytes imports delays) :
    listDependenciesFromBytes host bytes = .ok (withDelays imports delays) ↔ host = .little := by
  constructor
  · intro hok
    cases host with
    | little => rfl
    | big =>
      obtain ⟨message, hfails⟩ := big_endian_fails h.encodes
      rw [hfails] at hok
      cases hok
  · rintro rfl
    rw [reaches_optionalHeader .little h.encodes, fromLittleEndian_little]
    exact listOptionalHeader_ok h "the file"

end file

section sample

/-- A PE32 file that imports `a`, and has `A` and `b` for delay-load imports, one in each form. -/
def twoLibraries : PeFile where
  plus := false
  lfanew := 64
  optionalSize := 208
  directoryCount := 16
  sizeOfHeaders := 336
  imageBase := 0x400000
  sections := [⟨110, 4096, 110, 336⟩]
  importRva := 4096
  imports := [⟨0, 0, 0, 4200, 0⟩]
  delayRva := 4136
  delaySize := 64
  delays := [⟨1, 4202⟩, ⟨0, 4204⟩]

def twoLibrariesBytes : List UInt8 :=
  leBytes 2 0x5A4D ++ List.replicate 58 0 ++ leBytes 4 64 ++ leBytes 4 0x4550 ++
    (leBytes 2 0x14C ++ leBytes 2 1 ++ List.replicate 12 0 ++ leBytes 2 208 ++ leBytes 2 0) ++
    (leBytes 2 0x10B ++ List.replicate 26 0 ++ leBytes 4 0x400000 ++ List.replicate 28 0 ++ leBytes 4 336 ++
      List.replicate 28 0 ++ leBytes 4 16) ++
    (List.replicate 8 0 ++ leBytes 4 4096 ++ List.replicate 92 0 ++ leBytes 4 4136 ++ leBytes 4 64) ++
    (List.replicate 8 0 ++ leBytes 4 110 ++ leBytes 4 4096 ++ leBytes 4 110 ++ leBytes 4 336 ++ List.replicate 16 0) ++
    (List.replicate 12 0 ++ leBytes 4 4200 ++ List.replicate 24 0) ++
    (leBytes 4 1 ++ leBytes 4 4202 ++ List.replicate 24 0) ++ (leBytes 4 0 ++ leBytes 4 4198508 ++ List.replicate 24 0) ++
    [0x61, 0, 0x41, 0, 0x62, 0]

theorem length_twoLibraries : twoLibrariesBytes.length = 446 := by decide +kernel

theorem twoLibraries_encodes : Encodes twoLibraries twoLibrariesBytes where
  dos := by
    rw [length_twoLibraries]
    decide
  dosMagic := ⟨by decide, by decide +kernel⟩
  lfanew := ⟨by decide, by decide +kernel⟩
  positive := by decide
  signature := ⟨by decide, by decide +kernel⟩
  sectionCount := ⟨by decide, by decide +kernel⟩
  optionalSize := ⟨by decide, by decide +kernel⟩
  magic := ⟨by decide, by decide +kernel⟩
  directories := by decide
  table := by
    rw [length_twoLibraries]
    decide
  importRva := ⟨by decide, by decide +kernel⟩
  directoryCount := ⟨by decide, by decide +kernel⟩
  delayRva := fun _ => ⟨by decide, by decide +kernel⟩
  delaySize := fun _ => ⟨by decide, by decide +kernel⟩
  noDelay := fun h => absurd (by decide) h
  sizeOfHeaders := ⟨by decide, by decide +kernel⟩
  imageBase := ⟨by decide, by decide +kernel⟩
  sections := by
    intro i s hi
    match i with
    | 0 =>
      cases hi
      exact ⟨⟨by decide, by decide +kernel⟩, ⟨by decide, by decide +kernel⟩, ⟨by decide, by decide +kernel⟩,
        ⟨by decide, by decide +kernel⟩⟩
    | _ + 1 => cases hi

theorem twoLibraries_sound : Sound twoLibraries where
  disjoint := List.pairwise_singleton _ _
  above := by
    intro s hs rva hcovers
    rw [List.mem_singleton.mp hs] at hcovers
    exact le_trans (by decide) hcovers.1

/-- An address of the section is in the file. -/
theorem twoLibraries_located {rva : Nat} (hle : 4096 ≤ rva) (hlt : rva < 4206) :
    Located twoLibraries twoLibrariesBytes.length rva (336 + (rva - 4096)) :=
  .raw ⟨110, 4096, 110, 336⟩ (List.mem_singleton.mpr rfl) hle hlt (by rw [length_twoLibraries]; decide)

theorem twoLibraries_describes : Describes twoLibraries twoLibrariesBytes [[0x61]] [[0x41], [0x62]] where
  encodes := twoLibraries_encodes
  sound := twoLibraries_sound
  importTable :=
    { absent := fun h => absurd h (by decide)
      present := by
        intro _
        refine ⟨_, twoLibraries_located (by decide) (by decide), ?_, by decide +kernel⟩
        intro i e hi
        match i with
        | 0 =>
          cases hi
          exact ⟨⟨⟨by decide, by decide +kernel⟩, ⟨by decide, by decide +kernel⟩, ⟨by decide, by decide +kernel⟩,
            ⟨by decide, by decide +kernel⟩, ⟨by decide, by decide +kernel⟩⟩, by decide⟩
        | _ + 1 => cases hi }
  delayTable :=
    { absent := fun h => absurd h (by decide)
      present := by
        intro _
        refine ⟨_, twoLibraries_located (by decide) (by decide), ?_, .inl ⟨by decide, by decide⟩⟩
        intro i e hi
        match i with
        | 0 =>
          cases hi
          exact ⟨⟨by rw [length_twoLibraries]; decide, ⟨by decide, by decide +kernel⟩, ⟨by decide, by decide +kernel⟩,
            ⟨1, by decide +kernel, by decide⟩, .inl (by decide)⟩, .inr (by decide)⟩
        | 1 =>
          cases hi
          exact ⟨⟨by rw [length_twoLibraries]; decide, ⟨by decide, by decide +kernel⟩, ⟨by decide, by decide +kernel⟩,
            ⟨0x40, by decide +kernel, by decide⟩, .inr rfl⟩, .inr (by decide)⟩
        | _ + 2 => cases hi }
  names :=
    { imported := .cons ⟨_, twoLibraries_located (by decide) (by decide), by rw [length_twoLibraries]; decide,
        by decide +kernel, by decide +kernel, by decide, by decide⟩ .nil
      delayed := .cons ⟨_, twoLibraries_located (by decide) (by decide), by rw [length_twoLibraries]; decide,
        by decide +kernel, by decide +kernel, by decide, by decide⟩
        (.cons ⟨_, twoLibraries_located (by decide) (by decide), by rw [length_twoLibraries]; decide,
          by decide +kernel, by decide +kernel, by decide, by decide⟩ .nil)
      total := by
        rw [length_twoLibraries]
        decide }

/-- `A` is `a` again. -/
theorem lists_names_two :
    listDependenciesFromBytes .little twoLibrariesBytes = .ok [[0x61], [0x62]] :=
  (lists_names_iff .little twoLibraries_describes).mpr rfl

theorem big_endian_lists_none : Describes twoLibraries twoLibrariesBytes [[0x61]] [[0x41], [0x62]] ∧
    listDependenciesFromBytes .big twoLibrariesBytes ≠ .ok (withDelays [[0x61]] [[0x41], [0x62]]) := by
  refine ⟨twoLibraries_describes, ?_⟩
  obtain ⟨message, hfails⟩ := big_endian_fails twoLibraries_encodes
  rw [hfails]
  intro h
  cases h

end sample

end TheSeed.PeDependencies
