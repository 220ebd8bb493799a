import TheSeed.BoundedNames
import TheSeed.ElfParser

namespace TheSeed.ElfDependencies

open Bytes Checked BoundedBytes BoundedNames ByteSwap ElfParser
open DependencyLister (Text)

/-! What an ELF file is, whatever its class and byte order, and that the parser lists the names it says it needs. -/

structure ProgramHeader where
  type : Nat
  offset : Nat
  vaddr : Nat
  filesz : Nat
  memsz : Nat

structure DynamicEntry where
  tag : Nat
  value : Nat

/-- The values with a tag in a list of entries. -/
def valuesOf (tag : Nat) (entries : List DynamicEntry) : List Nat :=
  (entries.filter fun e => e.tag = tag).map DynamicEntry.value

/-- A description of an ELF file. -/
structure ElfFile where
  wide : Bool
  order : ByteOrder
  phoff : Nat
  stride : Nat
  headers : List ProgramHeader
  /-- the PT_DYNAMIC segment -/
  dynamic : ProgramHeader
  entries : List DynamicEntry

namespace ElfFile

variable (d : ElfFile)

def layout : Layout := if d.wide then elf64 else elf32

/-- The entries before the first DT_NULL. -/
def active : List DynamicEntry := d.entries.takeWhile fun e => e.tag ≠ 0

/-- The values that the entries give to a tag. -/
def values (tag : Nat) : List Nat := valuesOf tag d.active

def needed : List Nat := d.values 1

def segments : List ProgramHeader := d.headers.filter fun h => h.type = kPtLoad

/-- The PT_LOAD segment whose file data has the address first. -/
def segmentAt (address : Nat) : Option ProgramHeader :=
  d.segments.find? fun h => decide (h.vaddr ≤ address) && decide (address < h.vaddr + h.filesz)

end ElfFile

structure HoldsHeader (bytes : List UInt8) (order : ByteOrder) (layout : Layout) (base : Nat) (h : ProgramHeader) :
    Prop where
  type : Holds bytes order base layout.pType h.type
  offset : Holds bytes order base layout.pOffset h.offset
  vaddr : Holds bytes order base layout.pVaddr h.vaddr
  filesz : Holds bytes order base layout.pFilesz h.filesz
  memsz : Holds bytes order base layout.pMemsz h.memsz

structure HoldsEntry (bytes : List UInt8) (order : ByteOrder) (layout : Layout) (base : Nat) (e : DynamicEntry) :
    Prop where
  tag : Holds bytes order base layout.dTag e.tag
  value : Holds bytes order base layout.dUn e.value

/-- The bytes are the description, with anything in the places that it does not speak of. -/
structure Encodes (d : ElfFile) (bytes : List UInt8) : Prop where
  magic : slice bytes 0 4 = kElfMag
  elfClass : bytes[kEiClass]? = some (if d.wide then kElfClass64 else kElfClass32)
  elfData : bytes[kEiData]? = some (if d.order = .little then kElfData2Lsb else kElfData2Msb)
  header : d.layout.ehdrSize ≤ bytes.length
  phoff : Holds bytes d.order 0 d.layout.ePhoff d.phoff
  phentsize : Holds bytes d.order 0 d.layout.ePhentsize d.stride
  phnum : Holds bytes d.order 0 d.layout.ePhnum d.headers.length
  stride : d.layout.phdrSize ≤ d.stride
  table : d.phoff + d.headers.length * d.stride ≤ bytes.length
  headers : ∀ i h, d.headers[i]? = some h → HoldsHeader bytes d.order d.layout (d.phoff + i * d.stride) h
  entries : ∀ i e, d.entries[i]? = some e →
    HoldsEntry bytes d.order d.layout (d.dynamic.offset + i * d.layout.dynSize) e

/-- The segments lie in a file of that size. -/
structure Sound (d : ElfFile) (size : Nat) : Prop where
  dynamic : ∃ before after, d.headers = before ++ d.dynamic :: after ∧ d.dynamic.type = kPtDynamic ∧
    ∀ h ∈ after, h.type ≠ kPtDynamic
  inside : d.dynamic.offset + d.dynamic.filesz ≤ size
  count : d.entries.length = d.dynamic.filesz / d.layout.dynSize
  loads : ∀ h ∈ d.headers, h.type = kPtLoad → h.offset + h.filesz ≤ size ∧ h.vaddr + h.memsz < 2 ^ 64

/-- The names that the DT_NEEDED entries lead to. The string table ends with its segment's file data, or at DT_STRSZ. -/
structure Names (d : ElfFile) (bytes : List UInt8) (names : List Text) : Prop where
  table : ∃ address segment, (d.values 5).getLast? = some address ∧ d.segmentAt address = some segment ∧
    List.Forall₂ (NameAt (slice bytes (segment.offset + (address - segment.vaddr))
      (min ((d.values 10).getLast?.getD segment.filesz) (segment.filesz - (address - segment.vaddr))))) d.needed names
  total : (names.map List.length).sum ≤ bytes.length

/-- The structures of a class are made of such fields. -/
structure Regular (layout : Layout) : Prop where
  ePhoff : Fits layout.ePhoff layout.ehdrSize
  ePhentsize : Fits layout.ePhentsize layout.ehdrSize
  ePhnum : Fits layout.ePhnum layout.ehdrSize
  pType : Fits layout.pType layout.phdrSize
  pOffset : Fits layout.pOffset layout.phdrSize
  pVaddr : Fits layout.pVaddr layout.phdrSize
  pFilesz : Fits layout.pFilesz layout.phdrSize
  pMemsz : Fits layout.pMemsz layout.phdrSize
  dTag : Fits layout.dTag layout.dynSize
  dUn : Fits layout.dUn layout.dynSize
  dynSize : 0 < layout.dynSize
  twoBytes : layout.ePhentsize.width = 2 ∧ layout.ePhnum.width = 2

theorem regular (d : ElfFile) : Regular d.layout := by
  unfold ElfFile.layout
  split <;> constructor <;> decide

section headers

variable {d : ElfFile} {bytes : List UInt8} {host : ByteOrder} {h : ProgramHeader} {i : Nat}

def segmentOf (h : ProgramHeader) : LoadSegment := ⟨h.vaddr, h.filesz, h.offset⟩

/-- What is known after one program header more. -/
def noteHeader (scan : HeaderScan) (h : ProgramHeader) : HeaderScan where
  dynamicOffset := if h.type = kPtDynamic then some h.offset else scan.dynamicOffset
  dynamicSize := if h.type = kPtDynamic then h.filesz else scan.dynamicSize
  loadSegments := if h.type = kPtLoad then scan.loadSegments ++ [segmentOf h] else scan.loadSegments

theorem headerStep_ok (he : Encodes d bytes) (hs : Sound d bytes.length) (hi : d.headers[i]? = some h)
    (scan : HeaderScan) (scope what : String) :
    headerStep host d.order d.layout ⟨bytes, kFormat, scope⟩
      ⟨slice bytes d.phoff (d.headers.length * d.stride), kFormat, what⟩ d.stride i scan = .ok (noteHeader scan h) := by
  have hr := regular d
  have hholds := he.headers i h hi
  obtain ⟨hlt, hget⟩ := List.getElem?_eq_some_iff.mp hi
  have hroom : i * d.stride + d.layout.phdrSize ≤ d.headers.length * d.stride := by
    have hstride := he.stride
    have hnext : (i + 1) * d.stride ≤ d.headers.length * d.stride := Nat.mul_le_mul_right _ hlt
    rw [Nat.succ_mul] at hnext
    omega
  have htable := he.table
  have hstart : d.phoff + i * d.stride + d.layout.phdrSize ≤ bytes.length := by omega
  have hlength : (slice bytes d.phoff (d.headers.length * d.stride)).length = d.headers.length * d.stride :=
    length_slice_of_le htable
  have hread : readStructure ⟨slice bytes d.phoff (d.headers.length * d.stride), kFormat, what⟩ d.layout.phdrSize
      (i * d.stride) "program header" = .ok (slice bytes (d.phoff + i * d.stride) d.layout.phdrSize) := by
    rw [readStructure_ok (by simpa only [hlength] using hroom), slice_slice hroom]
  have htype := hholds.type.get host hr.pType hstart
  have hoffset := hholds.offset.get host hr.pOffset hstart
  have hvaddr := hholds.vaddr.get host hr.pVaddr hstart
  have hfilesz := hholds.filesz.get host hr.pFilesz hstart
  have hmemsz := hholds.memsz.get host hr.pMemsz hstart
  rw [headerStep, hread, ok_bind]
  simp only [htype, hoffset, hvaddr, hfilesz, hmemsz]
  by_cases hload : h.type = kPtLoad
  · obtain ⟨hinside, hrange⟩ := hs.loads h (List.mem_of_getElem? hi) hload
    have hne : h.type ≠ kPtDynamic := by
      rw [hload]
      decide
    have hfits : ¬ rangeFits h.offset h.filesz (ByteSpan.size ⟨bytes, kFormat, scope⟩) = false := by
      rw [Bool.not_eq_false]
      exact rangeFits_iff.mpr hinside
    rw [if_pos hload, rejectIf_of_not hfits, ok_bind, rejectIf_of_not (Nat.not_le.mpr hrange), ok_bind]
    simp only [noteHeader, hload, if_true, if_neg (hload ▸ hne), segmentOf]
    rfl
  · rw [if_neg hload]
    by_cases hdynamic : h.type = kPtDynamic
    · simp only [noteHeader, hdynamic, if_true]
      rfl
    · simp only [noteHeader, hload, hdynamic, if_false]
      rfl

theorem headerLoop_ok (he : Encodes d bytes) (hs : Sound d bytes.length) (scope what : String) (remaining : Nat) :
    ∀ (i : Nat) (scan : HeaderScan), i + remaining = d.headers.length →
    headerLoop host d.order d.layout ⟨bytes, kFormat, scope⟩
      ⟨slice bytes d.phoff (d.headers.length * d.stride), kFormat, what⟩ d.stride remaining i scan =
      .ok ((d.headers.drop i).foldl noteHeader scan) := by
  induction remaining with
  | zero =>
    intro i scan hi
    rw [headerLoop, List.drop_eq_nil_of_le (by omega)]
    rfl
  | succ remaining ih =>
    intro i scan hi
    have hlt : i < d.headers.length := by omega
    rw [headerLoop, headerStep_ok he hs (List.getElem?_eq_getElem hlt), ok_bind, ih (i + 1) _ (by omega),
      List.drop_eq_getElem_cons hlt, List.foldl_cons]

theorem foldl_segments (headers : List ProgramHeader) (scan : HeaderScan) :
    (headers.foldl noteHeader scan).loadSegments =
      scan.loadSegments ++ (headers.filter fun h => h.type = kPtLoad).map segmentOf := by
  induction headers generalizing scan with
  | nil => simp
  | cons h rest ih =>
    rw [List.foldl_cons, ih]
    by_cases hload : h.type = kPtLoad <;> simp [noteHeader, hload]

/-- A list without a PT_DYNAMIC segment leaves what is known of it. -/
theorem foldl_no_dynamic {headers : List ProgramHeader} (h : ∀ h ∈ headers, h.type ≠ kPtDynamic) (scan : HeaderScan) :
    (headers.foldl noteHeader scan).dynamicOffset = scan.dynamicOffset ∧
      (headers.foldl noteHeader scan).dynamicSize = scan.dynamicSize := by
  induction headers generalizing scan with
  | nil => exact ⟨rfl, rfl⟩
  | cons first rest ih =>
    obtain ⟨hoffset, hsize⟩ := ih (fun other hother => h other (List.mem_cons_of_mem _ hother)) (noteHeader scan first)
    have hfirst := h first List.mem_cons_self
    rw [List.foldl_cons, hoffset, hsize]
    simp [noteHeader, hfirst]

theorem foldl_dynamic (hs : Sound d bytes.length) : (d.headers.foldl noteHeader {}).dynamicOffset = some d.dynamic.offset ∧
    (d.headers.foldl noteHeader {}).dynamicSize = d.dynamic.filesz := by
  obtain ⟨before, after, hheaders, htype, hafter⟩ := hs.dynamic
  obtain ⟨hoffset, hsize⟩ := foldl_no_dynamic hafter (noteHeader (before.foldl noteHeader {}) d.dynamic)
  rw [hheaders, List.foldl_append, List.foldl_cons, hoffset, hsize]
  simp [noteHeader, htype]

end headers

section dynamic

variable {d : ElfFile} {bytes : List UInt8} {host : ByteOrder} {e : DynamicEntry} {i : Nat}

/-- What is known after one entry more. -/
def noteEntry (scan : DynamicScan) (e : DynamicEntry) : DynamicScan where
  neededOffsets := if e.tag = 1 then scan.neededOffsets ++ [e.value] else scan.neededOffsets
  stringTableVa := if e.tag = 5 then some e.value else scan.stringTableVa
  stringTableSize := if e.tag = 10 then some e.value else scan.stringTableSize

theorem noteEntry_eq (scan : DynamicScan) (e : DynamicEntry) :
    (if e.tag = 1 then { scan with neededOffsets := scan.neededOffsets ++ [e.value] }
      else if e.tag = 5 then { scan with stringTableVa := some e.value }
      else if e.tag = 10 then { scan with stringTableSize := some e.value }
      else scan) = noteEntry scan e := by
  unfold noteEntry
  by_cases h1 : e.tag = 1
  · simp [h1]
  · by_cases h5 : e.tag = 5
    · simp [h5]
    · by_cases h10 : e.tag = 10
      · simp [h10]
      · simp [h1, h5, h10]

theorem dynamicLoop_ok (he : Encodes d bytes) (hs : Sound d bytes.length) (what : String) (remaining : Nat) :
    ∀ (i : Nat) (scan : DynamicScan), i + remaining = d.entries.length →
    dynamicLoop host d.order d.layout ⟨slice bytes d.dynamic.offset d.dynamic.filesz, kFormat, what⟩ remaining i scan =
      .ok (((d.entries.drop i).takeWhile fun e => e.tag ≠ 0).foldl noteEntry scan) := by
  have hr := regular d
  have hinside := hs.inside
  have hlength : (slice bytes d.dynamic.offset d.dynamic.filesz).length = d.dynamic.filesz := length_slice_of_le hinside
  induction remaining with
  | zero =>
    intro i scan hi
    rw [dynamicLoop, List.drop_eq_nil_of_le (by omega)]
    rfl
  | succ remaining ih =>
    intro i scan hi
    have hlt : i < d.entries.length := by omega
    have hholds := he.entries i d.entries[i] (List.getElem?_eq_getElem hlt)
    have hroom : i * d.layout.dynSize + d.layout.dynSize ≤ d.dynamic.filesz := by
      rw [hs.count] at hlt
      rw [← Nat.succ_mul]
      exact (Nat.le_div_iff_mul_le hr.dynSize).mp hlt
    have hstart : d.dynamic.offset + i * d.layout.dynSize + d.layout.dynSize ≤ bytes.length := by omega
    have hread : readStructure ⟨slice bytes d.dynamic.offset d.dynamic.filesz, kFormat, what⟩ d.layout.dynSize
        (i * d.layout.dynSize) "dynamic entry" =
          .ok (slice bytes (d.dynamic.offset + i * d.layout.dynSize) d.layout.dynSize) := by
      rw [readStructure_ok (by simpa only [hlength] using hroom), slice_slice hroom]
    have htag := hholds.tag.get host hr.dTag hstart
    have hvalue := hholds.value.get host hr.dUn hstart
    have hsigned : ∀ c : Nat, c < 128 → (signed d.layout.dTag.width d.entries[i].tag = (c : Int) ↔ d.entries[i].tag = c) :=
      fun c hc => signed_eq_iff hr.dTag.1 hholds.tag.1 hc
    have hnull : signed d.layout.dTag.width d.entries[i].tag = kDtNull ↔ d.entries[i].tag = 0 := hsigned 0 (by decide)
    have hneeded : signed d.layout.dTag.width d.entries[i].tag = kDtNeeded ↔ d.entries[i].tag = 1 := hsigned 1 (by decide)
    have hstrtab : signed d.layout.dTag.width d.entries[i].tag = kDtStrtab ↔ d.entries[i].tag = 5 := hsigned 5 (by decide)
    have hstrsz : signed d.layout.dTag.width d.entries[i].tag = kDtStrsz ↔ d.entries[i].tag = 10 := hsigned 10 (by decide)
    rw [dynamicLoop, hread, ok_bind, List.drop_eq_getElem_cons hlt]
    simp only [htag, hvalue, hnull, hneeded, hstrtab, hstrsz, noteEntry_eq]
    by_cases hzero : d.entries[i].tag = 0
    · rw [if_pos hzero, List.takeWhile_cons_of_neg (by simp [hzero])]
      rfl
    · rw [if_neg hzero, List.takeWhile_cons_of_pos (by simp [hzero]), List.foldl_cons]
      exact ih (i + 1) _ (by omega)

/-- The last value counts, and what was known before only where there is none. -/
theorem getLast?_or (tag : Nat) (e : DynamicEntry) (rest : List DynamicEntry) (known : Option Nat) :
    (valuesOf tag (e :: rest)).getLast?.or known =
      (valuesOf tag rest).getLast?.or (if e.tag = tag then some e.value else known) := by
  by_cases htag : e.tag = tag
  · have hcons : valuesOf tag (e :: rest) = e.value :: valuesOf tag rest := by simp [valuesOf, htag]
    rw [if_pos htag, hcons, List.getLast?_cons]
    cases (valuesOf tag rest).getLast? <;> rfl
  · have hsame : valuesOf tag (e :: rest) = valuesOf tag rest := by simp [valuesOf, htag]
    rw [if_neg htag, hsame]

theorem foldl_entries (entries : List DynamicEntry) (scan : DynamicScan) :
    entries.foldl noteEntry scan =
      ⟨scan.neededOffsets ++ valuesOf 1 entries, (valuesOf 5 entries).getLast?.or scan.stringTableVa,
        (valuesOf 10 entries).getLast?.or scan.stringTableSize⟩ := by
  induction entries generalizing scan with
  | nil => simp [valuesOf]
  | cons e rest ih =>
    rw [List.foldl_cons, ih, getLast?_or 5 e rest, getLast?_or 10 e rest]
    by_cases hneeded : e.tag = 1 <;> simp [noteEntry, valuesOf, hneeded]

end dynamic

section strings

variable {d : ElfFile} {bytes : List UInt8} {names : List Text}

/-- The parser's segments are the description's. -/
theorem findFileBackedSegment_eq (address : Nat) :
    findFileBackedSegment address (d.segments.map segmentOf) = (d.segmentAt address).map segmentOf := by
  rw [findFileBackedSegment, List.find?_map, ElfFile.segmentAt]
  congr 2
  funext h
  rw [Function.comp_apply, segmentOf, Bool.eq_iff_iff]
  simp only [Bool.and_eq_true, decide_eq_true_eq]
  omega

/-- The segment that a string table lies in has its file data in the file. -/
theorem segmentAt_inside (hs : Sound d bytes.length) {address : Nat} {h : ProgramHeader}
    (hfind : d.segmentAt address = some h) :
    h.offset + h.filesz ≤ bytes.length ∧ h.vaddr ≤ address ∧ address < h.vaddr + h.filesz := by
  have hmem := List.mem_of_find?_eq_some hfind
  have hat := List.find?_some hfind
  rw [Bool.and_eq_true, decide_eq_true_eq, decide_eq_true_eq] at hat
  rw [ElfFile.segments, List.mem_filter, decide_eq_true_eq] at hmem
  exact ⟨(hs.loads h hmem.1 hmem.2).1, hat⟩

theorem nameLoop_ok {file stringTable : ByteSpan} {offsets : List Nat}
    (hnames : List.Forall₂ (NameAt stringTable.bytes) offsets names) :
    ∀ (total : Nat) (found : List Text), total + (names.map List.length).sum ≤ file.size →
      nameLoop file stringTable offsets total found = .ok (found ++ names) := by
  induction hnames with
  | nil =>
    intro total found _
    rw [nameLoop, List.append_nil]
  | @cons offset name offsets names hname _ ih =>
    intro total found htotal
    rw [List.map_cons, List.sum_cons] at htotal
    have hfew : ¬ file.size < total + name.length := by omega
    rw [nameLoop, kMaxNameLength, hname.cString, ok_bind]
    dsimp only
    rw [rejectIf_of_not hfew, ok_bind, ih _ _ (by omega), List.append_assoc, List.singleton_append]

theorem dynamicNames_ok (hs : Sound d bytes.length) (hn : Names d bytes names) (scope : String) :
    dynamicNames ⟨bytes, kFormat, scope⟩ (d.segments.map segmentOf)
      ⟨d.needed, (d.values 5).getLast?, (d.values 10).getLast?⟩ = .ok names := by
  obtain ⟨address, h, haddress, hfind, hnames⟩ := hn.table
  obtain ⟨hinside, hle, hlt⟩ := segmentAt_inside hs hfind
  have hread : ∀ length, length = min ((d.values 10).getLast?.getD h.filesz) (h.filesz - (address - h.vaddr)) →
      (do
        let stringTable ←
          ByteSpan.sub ⟨bytes, kFormat, scope⟩ (h.offset + (address - h.vaddr)) length "string table"
        nameLoop ⟨bytes, kFormat, scope⟩ stringTable d.needed 0 []) = Except.ok names := by
    intro length hlength
    have hroom : h.offset + (address - h.vaddr) + length ≤ bytes.length := by omega
    rw [sub_ok hroom, ok_bind, nameLoop_ok (by rwa [hlength]) 0 []]
    · rw [List.nil_append]
    · rw [Nat.zero_add]
      exact hn.total
  simp only [dynamicNames, haddress, findFileBackedSegment_eq, hfind, Option.map_some, segmentOf]
  apply hread
  -- DT_STRSZ counts where it is there and smaller than the rest of the segment
  cases (d.values 10).getLast? with
  | none => exact (Nat.min_eq_right (Nat.sub_le h.filesz (address - h.vaddr))).symm
  | some size =>
    rw [Option.getD_some]
    dsimp only
    split <;> omega

end strings

section file

variable {d : ElfFile} {bytes : List UInt8} {names : List Text} (host : ByteOrder)

/-- With an address for the string table the dynamic segment is not empty. -/
theorem dynamic_nonempty (hs : Sound d bytes.length) (hn : Names d bytes names) : d.dynamic.filesz ≠ 0 := by
  obtain ⟨address, _, haddress, _⟩ := hn.table
  intro hzero
  have hentries : d.entries = [] := by
    apply List.eq_nil_of_length_eq_zero
    rw [hs.count, hzero, Nat.zero_div]
  rw [ElfFile.values, ElfFile.active, hentries] at haddress
  cases haddress

theorem parseElf_ok (he : Encodes d bytes) (hs : Sound d bytes.length) (hn : Names d bytes names) (scope : String) :
    parseElf host d.order d.layout ⟨bytes, kFormat, scope⟩ = .ok names := by
  have hr := regular d
  have hheader : 0 + d.layout.ehdrSize ≤ bytes.length := by
    rw [Nat.zero_add]
    exact he.header
  have hphoff := he.phoff.get host hr.ePhoff hheader
  have hphentsize := he.phentsize.get host hr.ePhentsize hheader
  have hphnum := he.phnum.get host hr.ePhnum hheader
  have hstride : ¬ d.stride < d.layout.phdrSize := Nat.not_lt.mpr he.stride
  have hsmall : ¬ 2 ^ 64 ≤ d.headers.length * d.stride := by
    have hcount := he.phnum.1
    have hsize := he.phentsize.1
    rw [hr.twoBytes.2] at hcount
    rw [hr.twoBytes.1] at hsize
    have hproduct : d.headers.length * d.stride < 256 ^ 2 * 256 ^ 2 := Nat.mul_lt_mul'' hcount hsize
    omega
  obtain ⟨hoffset, hsize⟩ := foldl_dynamic hs
  have hsegments := foldl_segments d.headers {}
  have hcount : (slice bytes d.dynamic.offset d.dynamic.filesz).length / d.layout.dynSize = d.entries.length := by
    rw [length_slice_of_le hs.inside, hs.count]
  rw [parseElf, readStructure_ok hheader, ok_bind]
  simp only [hphoff, hphentsize, hphnum]
  rw [rejectIf_of_not hstride, ok_bind, rejectIf_of_not hsmall, ok_bind, sub_ok he.table, ok_bind,
    headerLoop_ok he hs scope _ _ 0 _ (Nat.zero_add _), ok_bind, List.drop_zero, hoffset]
  dsimp only
  rw [hsize, if_neg (dynamic_nonempty hs hn), sub_ok hs.inside, ok_bind, ByteSpan.size, hcount,
    dynamicLoop_ok he hs _ _ 0 _ (Nat.zero_add _), ok_bind, foldl_entries, hsegments]
  have hnames := dynamicNames_ok hs hn scope
  simpa [ElfFile.needed, ElfFile.values, ElfFile.active, ElfFile.segments] using hnames

/-- Whatever the class, the byte order, the stride and the machine, the names of the DT_NEEDED entries are listed in
their order. -/
theorem lists_needed (he : Encodes d bytes) (hs : Sound d bytes.length) (hn : Names d bytes names) :
    listDependenciesFromBytes host bytes = .ok names := by
  have hident : ¬ bytes.length < kEiNident := by
    have hheader := he.header
    have hehdr : kEiNident ≤ d.layout.ehdrSize := by
      unfold ElfFile.layout
      split <;> decide
    omega
  have hmagic : ¬ slice bytes 0 4 ≠ kElfMag := not_not.mpr he.magic
  have hclass : bytes.getD kEiClass 0 = if d.wide then kElfClass64 else kElfClass32 := by
    rw [List.getD_eq_getElem?_getD, he.elfClass, Option.getD_some]
  have hdata : bytes.getD kEiData 0 = if d.order = .little then kElfData2Lsb else kElfData2Msb := by
    rw [List.getD_eq_getElem?_getD, he.elfData, Option.getD_some]
  have hknown : ¬ (bytes.getD kEiData 0 ≠ kElfData2Lsb ∧ bytes.getD kEiData 0 ≠ kElfData2Msb) := by
    rw [hdata]
    split <;> simp
  have horder : (if bytes.getD kEiData 0 = kElfData2Lsb then ByteOrder.little else ByteOrder.big) = d.order := by
    rw [hdata]
    cases d.order <;> rfl
  have hparse := parseElf_ok host he hs hn "the file"
  rw [listDependenciesFromBytes, listFromBytes]
  dsimp only
  rw [rejectIf_of_not hident, ok_bind, rejectIf_of_not hmagic, ok_bind, rejectIf_of_not hknown, ok_bind, horder, hclass]
  unfold ElfFile.layout at hparse
  cases hwide : d.wide with
  | false =>
    rw [hwide] at hparse
    exact hparse
  | true =>
    rw [hwide] at hparse
    exact hparse

end file

section sample

variable {bytes : List UInt8} {order : ByteOrder} {layout : Layout} {base : Nat}

instance {h : ProgramHeader} : Decidable (HoldsHeader bytes order layout base h) :=
  decidable_of_iff (Holds bytes order base layout.pType h.type ∧ Holds bytes order base layout.pOffset h.offset ∧
      Holds bytes order base layout.pVaddr h.vaddr ∧ Holds bytes order base layout.pFilesz h.filesz ∧
      Holds bytes order base layout.pMemsz h.memsz)
    ⟨fun ⟨htype, hoffset, hvaddr, hfilesz, hmemsz⟩ => ⟨htype, hoffset, hvaddr, hfilesz, hmemsz⟩,
      fun ⟨htype, hoffset, hvaddr, hfilesz, hmemsz⟩ => ⟨htype, hoffset, hvaddr, hfilesz, hmemsz⟩⟩

instance {e : DynamicEntry} : Decidable (HoldsEntry bytes order layout base e) :=
  decidable_of_iff (Holds bytes order base layout.dTag e.tag ∧ Holds bytes order base layout.dUn e.value)
    ⟨fun ⟨htag, hvalue⟩ => ⟨htag, hvalue⟩, fun ⟨htag, hvalue⟩ => ⟨htag, hvalue⟩⟩

/-- A little-endian file of the 64-bit class that needs `b.so` and `a.so`. -/
def twoNeeded : ElfFile where
  wide := true
  order := .little
  phoff := 64
  stride := 64
  headers := [⟨kPtLoad, 0, 4096, 256, 256⟩, ⟨kPtDynamic, 256, 8448, 112, 112⟩, ⟨kPtLoad, 256, 8448, 124, 200⟩]
  dynamic := ⟨kPtDynamic, 256, 8448, 112, 112⟩
  entries := [⟨1, 6⟩, ⟨10, 11⟩, ⟨5, 8560⟩, ⟨14, 1⟩, ⟨1, 1⟩, ⟨0, 0⟩, ⟨1, 1⟩]

def wideHeader (h : ProgramHeader) : List UInt8 :=
  leBytes 4 h.type ++ leBytes 4 0 ++ leBytes 8 h.offset ++ leBytes 8 h.vaddr ++ leBytes 8 0 ++ leBytes 8 h.filesz ++
    leBytes 8 h.memsz ++ leBytes 16 0

def wideEntry (e : DynamicEntry) : List UInt8 := leBytes 8 e.tag ++ leBytes 8 e.value

/-- DT_STRSZ leaves the last byte out of the string table. -/
def twoNeededBytes : List UInt8 :=
  kElfMag ++ [kElfClass64, kElfData2Lsb] ++ List.replicate 26 0 ++ leBytes 8 64 ++ List.replicate 14 0 ++ leBytes 2 64 ++
    leBytes 2 3 ++ List.replicate 6 0 ++ twoNeeded.headers.flatMap wideHeader ++ twoNeeded.entries.flatMap wideEntry ++
    [0, 0x61, 0x2E, 0x73, 0x6F, 0, 0x62, 0x2E, 0x73, 0x6F, 0, 0x78]

def twoNames : List Text := [[0x62, 0x2E, 0x73, 0x6F], [0x61, 0x2E, 0x73, 0x6F]]

theorem length_twoNeeded : twoNeededBytes.length = 380 := by decide +kernel

theorem twoNeeded_encodes : Encodes twoNeeded twoNeededBytes where
  magic := by decide +kernel
  elfClass := by decide +kernel
  elfData := by decide +kernel
  header := by
    rw [length_twoNeeded]
    decide
  phoff := ⟨by decide, by decide +kernel⟩
  phentsize := ⟨by decide, by decide +kernel⟩
  phnum := ⟨by decide, by decide +kernel⟩
  stride := by decide
  table := by
    rw [length_twoNeeded]
    decide
  headers := by
    have hheld : ∀ p ∈ twoNeeded.headers.zipIdx, HoldsHeader twoNeededBytes .little elf64 (64 + p.2 * 64) p.1 := by
      decide +kernel
    exact fun i h hi => hheld (h, i) (List.mem_zipIdx_iff_getElem?.2 hi)
  entries := by
    have hheld : ∀ p ∈ twoNeeded.entries.zipIdx, HoldsEntry twoNeededBytes .little elf64 (256 + p.2 * 16) p.1 := by
      decide +kernel
    exact fun i e hi => hheld (e, i) (List.mem_zipIdx_iff_getElem?.2 hi)

theorem twoNeeded_sound : Sound twoNeeded twoNeededBytes.length where
  dynamic := ⟨[⟨kPtLoad, 0, 4096, 256, 256⟩], [⟨kPtLoad, 256, 8448, 124, 200⟩], rfl, rfl, by simp [kPtLoad, kPtDynamic]⟩
  inside := by
    rw [length_twoNeeded]
    decide
  count := by decide
  loads := by
    rw [length_twoNeeded]
    simp [twoNeeded, kPtLoad, kPtDynamic]

theorem twoNeeded_names : Names twoNeeded twoNeededBytes twoNames where
  table := ⟨8560, ⟨kPtLoad, 256, 8448, 124, 200⟩, by decide, rfl,
    .cons ⟨by decide +kernel, by decide +kernel, by decide +kernel, by decide, by decide⟩
      (.cons ⟨by decide +kernel, by decide +kernel, by decide +kernel, by decide, by decide⟩ .nil)⟩
  total := by
    rw [length_twoNeeded]
    decide

theorem lists_needed_two : listDependenciesFromBytes .big twoNeededBytes = .ok twoNames :=
  lists_needed .big twoNeeded_encodes twoNeeded_sound twoNeeded_names

end sample

end TheSeed.ElfDependencies
