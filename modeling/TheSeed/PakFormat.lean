import Mathlib.Data.Nat.Digits.Defs
import Mathlib.Data.List.Nodup
import Mathlib.Algebra.BigOperators.Group.List.Basic
import TheSeed.PakDescription

namespace TheSeed.PakFormat

open Bytes Checked PakDescription
open PakLoader (PakStamp PakEntry ReadFailure)

/-! The format of a resource pak: which files `PakIndexRead` accepts, and how the index it gives divides the file. -/

variable {file : PakFile} {bytes : List UInt8} {p : Nat}

theorem damagedIf_eq_ok {c : Prop} [Decidable c] {what : String} {u : Unit} : damagedIf c what = .ok u ↔ ¬c := by
  rw [damagedIf]
  split
  · simp [damaged, *]
  · simp [*]

@[simp] theorem damaged_ne_ok {α : Type} (what : String) (a : α) : (damaged what : Outcome α) = .ok a ↔ False := by
  simp [damaged]

/-! The description line -/

/-- Where the line ends. -/
structure FirstNewline (bytes : List UInt8) (p : Nat) : Prop where
  here : bytes[p]? = some kNewline
  before : ∀ i < p, bytes[i]? ≠ some kNewline

theorem FirstNewline.unique {q : Nat} (hp : FirstNewline bytes p) (hq : FirstNewline bytes q) : p = q := by
  obtain hlt | heq | hgt := Nat.lt_trichotomy p q
  · exact absurd hp.here (hq.before p hlt)
  · exact heq
  · exact absurd hq.here (hp.before q hgt)

theorem readAt_of_le {offset count : Nat} (h : offset + count ≤ file.bytes.length) :
    catchShortRead (file.readAt offset count) = .ok (slice file.bytes offset count) := by
  rw [PakFile.readAt, if_pos h]
  rfl

theorem take_append_slice (bs : List UInt8) (position count : Nat) :
    bs.take position ++ slice bs position count = bs.take (position + count) := List.take_add.symm

/-- A newline in a chunk with none before it. -/
theorem firstNewline_of_chunk {position count length : Nat} (hbefore : ∀ i < position, bytes[i]? ≠ some kNewline)
    (h : (slice bytes position count).findIdx? (· == kNewline) = some length) :
    length < count ∧ FirstNewline bytes (position + length) := by
  rw [List.findIdx?_eq_some_iff_getElem] at h
  obtain ⟨hlt, hhere, hearlier⟩ := h
  have hshort : length < count := hlt.trans_le ((length_slice bytes position count).trans_le (Nat.min_le_left _ _))
  have hbytes : ∀ i ≤ length, (slice bytes position count)[i]? = bytes[position + i]? := by
    intro i hi
    rw [getElem?_slice, if_pos (by omega)]
  refine ⟨hshort, ?_, fun i hi => ?_⟩
  · rw [← hbytes length le_rfl, List.getElem?_eq_getElem hlt]
    exact congrArg some (eq_of_beq hhere)
  · by_cases hp : i < position
    · exact hbefore i hp
    · intro hnewline
      have hin : i - position < length := by omega
      have hchunk := hbytes (i - position) (by omega)
      rw [show position + (i - position) = i by omega, hnewline, List.getElem?_eq_getElem (hin.trans hlt),
        Option.some.injEq] at hchunk
      exact hearlier (i - position) hin (beq_iff_eq.2 hchunk)

theorem no_newline_of_chunk {position count : Nat} (hbefore : ∀ i < position, bytes[i]? ≠ some kNewline)
    (h : (slice bytes position count).findIdx? (· == kNewline) = none) :
    ∀ i < position + count, bytes[i]? ≠ some kNewline := by
  rw [List.findIdx?_eq_none_iff] at h
  intro i hi hnewline
  by_cases hp : i < position
  · exact hbefore i hp hnewline
  · have hchunk : (slice bytes position count)[i - position]? = some kNewline := by
      rw [getElem?_slice, if_pos (by omega), show position + (i - position) = i by omega, hnewline]
    have hother := h _ (List.mem_of_getElem? hchunk)
    exact absurd rfl (beq_eq_false_iff_ne.1 hother)

/-- What the scan finds when there is no newline before `position`. -/
theorem descriptionScan_spec {scan : Nat} (hscan : scan ≤ file.bytes.length) : ∀ (chunks position : Nat),
    position ≤ scan → scan - position ≤ chunks → (∀ i < position, file.bytes[i]? ≠ some kNewline) →
      ∃ found, descriptionScan file scan chunks position (file.bytes.take position) = .ok found ∧
        ∀ line stop, found = some (line, stop) ↔
          ∃ p < scan, FirstNewline file.bytes p ∧ line = file.bytes.take p ∧ stop = p + 1
  | chunks, position, hle, hmany, hbefore => by
      have hnone : scan ≤ position → ∀ line stop, (none : Option (List UInt8 × Nat)) = some (line, stop) ↔
          ∃ p < scan, FirstNewline file.bytes p ∧ line = file.bytes.take p ∧ stop = p + 1 := by
        refine fun hend line stop => ⟨fun h => (Option.some_ne_none _ h.symm).elim, ?_⟩
        rintro ⟨p, hp, hfirst, -⟩
        exact absurd hfirst.here (hbefore p (by omega))
      cases chunks with
      | zero => exact ⟨none, rfl, hnone (by omega)⟩
      | succ chunks =>
          by_cases hmore : position < scan
          swap
          · exact ⟨none, by rw [descriptionScan, if_neg hmore], hnone (by omega)⟩
          have hcount : 0 < min kChunkSize (scan - position) := lt_min (by decide) (by omega)
          have hchunk : position + min kChunkSize (scan - position) ≤ scan := by omega
          rw [descriptionScan, if_pos hmore]
          simp only [readAt_of_le (hchunk.trans hscan), ok_bind]
          cases hfound : (slice file.bytes position (min kChunkSize (scan - position))).findIdx? (· == kNewline) with
          | some length =>
              obtain ⟨hlt, hfirst⟩ := firstNewline_of_chunk hbefore hfound
              have hline : file.bytes.take position ++
                  (slice file.bytes position (min kChunkSize (scan - position))).take length =
                    file.bytes.take (position + length) := by
                rw [slice, List.take_take, min_eq_left hlt.le]
                exact take_append_slice _ _ _
              refine ⟨_, rfl, fun line stop => ?_⟩
              rw [hline, Option.some.injEq, Prod.mk.injEq]
              constructor
              · rintro ⟨rfl, rfl⟩
                exact ⟨position + length, by omega, hfirst, rfl, rfl⟩
              · rintro ⟨q, -, hq, rfl, rfl⟩
                rw [hq.unique hfirst]
                exact ⟨rfl, rfl⟩
          | none =>
              rw [take_append_slice]
              exact descriptionScan_spec hscan chunks _ hchunk (by omega) (no_newline_of_chunk hbefore hfound)

theorem descriptionRead_eq_ok {found : List UInt8 × Nat} : descriptionRead file file.stamp.size = .ok found ↔
    ∃ p < min file.bytes.length kDescriptionLimit, FirstNewline file.bytes p ∧ found = (file.bytes.take p, p + 1) := by
  obtain ⟨line, stop⟩ := found
  obtain ⟨seen, hscan, hseen⟩ := @descriptionScan_spec file (min file.bytes.length kDescriptionLimit)
    (Nat.min_le_left _ _) _ 0 (Nat.zero_le _) le_rfl (fun i hi => absurd hi (Nat.not_lt_zero i))
  rw [List.take_zero, Nat.sub_zero] at hscan
  rw [descriptionRead, file.size_eq]
  simp only [hscan, ok_bind, Prod.mk.injEq]
  rw [← hseen line stop]
  cases seen with
  | none => simp [bind_eq_ok]
  | some found => simp

theorem descriptionParse_eq_ok {parse : JsonParse} {line : List UInt8} {description : Json} :
    descriptionParse parse line = .ok description ↔ ∃ depth ≤ kNestingLimit, parse line = .ok (description, depth) := by
  rw [descriptionParse]
  cases parse line with
  | error what => simp
  | ok parsed =>
      obtain ⟨value, depth⟩ := parsed
      simp only [bind_eq_ok, damagedIf_eq_ok, not_lt, pure_eq_ok, Except.ok.injEq, Prod.mk.injEq]
      constructor
      · rintro ⟨-, hdepth, rfl⟩
        exact ⟨depth, hdepth, rfl, rfl⟩
      · rintro ⟨_, hdepth, rfl, rfl⟩
        exact ⟨(), hdepth, rfl⟩

/-! The stated size of the description -/

/-- The number that decimal digits stand for. -/
def decimal (digits : List Char) : Nat := Nat.ofDigits 10 (digits.reverse.map digitOf)

structure DecimalText (text : String) (n : Nat) : Prop where
  some : 1 ≤ text.length
  few : text.length ≤ 20
  digits : ∀ c ∈ text.toList, isDigit c = true
  value : decimal text.toList = n

theorem decimal_eq_foldl (digits : List Char) :
    decimal digits = digits.foldl (fun value c => value * 10 + digitOf c) 0 := by
  rw [decimal, Nat.ofDigits_eq_foldr, List.foldr_map, List.foldr_reverse]
  congr 1
  funext value c
  simp only [Nat.cast_id]
  omega

theorem foldl_digits_ge (digits : List Char) (value : Nat) :
    value ≤ digits.foldl (fun value c => value * 10 + digitOf c) value := by
  induction digits generalizing value with
  | nil => exact le_refl value
  | cons c rest ih => exact le_trans (by omega) (ih (value * 10 + digitOf c))

theorem digitOf_le {c : Char} (h : isDigit c = true) : digitOf c ≤ 9 := by
  simp only [isDigit, Bool.and_eq_true, decide_eq_true_eq] at h
  have hle : c.toNat ≤ '9'.toNat := h.2
  have hnine : '9'.toNat = 57 := rfl
  have hzero : '0'.toNat = 48 := rfl
  rw [digitOf]
  omega

/-- The loop fails exactly when the number does not fit, at whatever digit that shows. -/
theorem digitsRead_eq_ok {digits : List Char} {value n : Nat} (hd : ∀ c ∈ digits, isDigit c = true) (hv : value ≤ kUint64Max) :
    digitsRead digits value = .ok n ↔
      digits.foldl (fun value c => value * 10 + digitOf c) value = n ∧ n ≤ kUint64Max := by
  induction digits generalizing value with
  | nil =>
      simp only [digitsRead, Except.ok.injEq, List.foldl_nil]
      exact ⟨fun h => ⟨h, h ▸ hv⟩, And.left⟩
  | cons c rest ih =>
      have hc := digitOf_le (hd c List.mem_cons_self)
      have hmax : 9 ≤ kUint64Max := by decide
      have hrest := fun c hc => hd c (List.mem_cons_of_mem _ hc)
      rw [digitsRead, List.foldl_cons]
      split
      · rename_i hover
        have hlarge := foldl_digits_ge rest (value * 10 + digitOf c)
        rw [damaged_ne_ok, false_iff]
        rintro ⟨rfl, hn⟩
        omega
      · rename_i hfits
        exact ih hrest (by omega)

theorem utf8ByteSize_of_digits {text : String} (h : ∀ c ∈ text.toList, isDigit c = true) :
    text.utf8ByteSize = text.length := by
  obtain ⟨l, rfl⟩ := text.exists_eq_ofList
  rw [String.toList_ofList] at h
  induction l with
  | nil => rfl
  | cons c l ih =>
      have hc : c.utf8Size = 1 := by
        have hdigit := h c List.mem_cons_self
        simp only [isDigit, Bool.and_eq_true, decide_eq_true_eq] at hdigit
        have hle : c.val ≤ '9'.val := hdigit.2
        have hnine : '9'.val ≤ 127 := by decide
        exact Char.utf8Size_eq_one_iff.2 (UInt32.le_trans hle hnine)
      have hl := ih fun c hc => h c (List.mem_cons_of_mem _ hc)
      rw [String.ofList_cons, String.utf8ByteSize_append, String.utf8ByteSize_singleton, hc, hl]
      simp [Nat.add_comm]

theorem headerSizeRead_eq_ok {members : List (String × Json)} {n : Nat} : headerSizeRead members = .ok n ↔
    ∃ text, members.lookup "headerSize" = some (.string text) ∧ DecimalText text n ∧ n ≤ kUint64Max := by
  rw [headerSizeRead]
  cases hl : members.lookup "headerSize" with
  | none => simp
  | some value =>
      cases value with
      | string text =>
          simp only [bind_eq_ok, damagedIf_eq_ok, Option.some.injEq, Json.string.injEq, exists_eq_left']
          rw [not_or, not_or, Bool.not_eq_false, List.all_eq_true, not_lt]
          constructor
          · rintro ⟨-, ⟨hsome, hfew, hdigits⟩, hread⟩
            rw [digitsRead_eq_ok hdigits (Nat.zero_le _), ← decimal_eq_foldl] at hread
            rw [utf8ByteSize_of_digits hdigits] at hfew
            exact ⟨⟨Nat.one_le_iff_ne_zero.2 (by simpa using hsome), hfew, hdigits, hread.1⟩, hread.2⟩
          · rintro ⟨⟨hsome, hfew, hdigits, hvalue⟩, hn⟩
            refine ⟨(), ⟨?_, ?_, hdigits⟩, ?_⟩
            · rintro rfl
              exact absurd hsome (by decide)
            · rwa [utf8ByteSize_of_digits hdigits]
            · rw [digitsRead_eq_ok hdigits (Nat.zero_le _), ← decimal_eq_foldl]
              exact ⟨hvalue, hn⟩
      | _ => simp

/-! The resources -/

/-- An integer of the library. -/
def IsSize (size : Nat) : Json → Prop
  | .numberUnsigned value => value.toNat = size
  | .numberInteger value => value.toInt = size
  | _ => False

structure IsResource (value : Json) (resource : String × Nat) : Prop where
  described : ∃ members size, value = .object members ∧ members.lookup "name" = some (.string resource.1) ∧
    members.lookup "size" = some size ∧ IsSize resource.2 size

theorem sizeRead_eq_ok {members : List (String × Json)} {name : String} {size : Nat} :
    sizeRead members name = .ok size ↔ ∃ value, members.lookup "size" = some value ∧ IsSize size value := by
  rw [sizeRead]
  cases members.lookup "size" with
  | none => simp
  | some value =>
      simp only [Option.some.injEq, exists_eq_left']
      cases value with
      | numberUnsigned value => simp [IsSize]
      | numberInteger value =>
          simp only [bind_eq_ok, damagedIf_eq_ok, pure_eq_ok, Except.ok.injEq, IsSize]
          constructor
          · rintro ⟨-, hpos, hsize⟩
            omega
          · intro hsize
            exact ⟨(), by omega, by omega⟩
      | _ => simp [IsSize]

/-- The resources at their places, from an offset on. -/
def placed : Nat → List (String × Nat) → List PakEntry
  | _, [] => []
  | offset, (name, size) :: rest => ⟨name, offset, size⟩ :: placed (offset + size) rest

def sizes (resources : List (String × Nat)) : Nat := (resources.map Prod.snd).sum

theorem sizes_cons (name : String) (size : Nat) (resources : List (String × Nat)) :
    sizes ((name, size) :: resources) = size + sizes resources := rfl

theorem resourceRead_eq_ok {value : Json} {position : Nat} {s s' : Reading} :
    resourceRead value position s = .ok s' ↔ ∃ name size, IsResource value (name, size) ∧
      s.byName.lookup name = none ∧ s.running + size ≤ kUint64Max ∧
        s' = ⟨s.entries ++ [⟨name, s.running, size⟩], s.byName ++ [(name, s.entries.length)], s.running + size⟩ := by
  constructor
  · intro h
    cases value with
    | object members =>
        rw [resourceRead] at h
        split at h
        · cases h
        · rename_i name hname
          simp only [bind_eq_ok, sizeRead_eq_ok, damagedIf_eq_ok, pure_eq_ok, Except.ok.injEq, not_or, not_lt,
            Option.not_isSome_iff_eq_none] at h
          obtain ⟨size, ⟨value, hvalue, hsize⟩, -, hnew, -, ⟨hfits, hroom⟩, rfl⟩ := h
          refine ⟨name, size, ⟨members, value, rfl, hname, hvalue, hsize⟩, hnew, ?_, rfl⟩
          have hmax : kSizeMax = kUint64Max := rfl
          omega
        · cases h
    | _ => cases h
  · rintro ⟨name, size, ⟨members, value, rfl, hname, hvalue, hsize⟩, hnew, hroom, rfl⟩
    have hread : sizeRead members name = .ok size := sizeRead_eq_ok.2 ⟨value, hvalue, hsize⟩
    have hmax : kSizeMax = kUint64Max := rfl
    rw [resourceRead]
    simp only [hname, hread, ok_bind, hnew]
    rw [damagedIf, if_neg (by simp), damagedIf, if_neg (by omega)]
    rfl

/-- Names that are new, each once, and sizes that add up to an offset of 64 bits. -/
theorem resourcesRead_eq_ok {values : List Json} {position : Nat} {s s' : Reading} (hs : s.running ≤ kUint64Max) :
    resourcesRead values position s = .ok s' ↔ ∃ resources, List.Forall₂ IsResource values resources ∧
      (resources.map Prod.fst).Nodup ∧ (∀ resource ∈ resources, s.byName.lookup resource.1 = none) ∧
        s.running + sizes resources ≤ kUint64Max ∧
          s' = ⟨s.entries ++ placed s.running resources,
            s.byName ++ (resources.map Prod.fst).zipIdx s.entries.length, s.running + sizes resources⟩ := by
  induction values generalizing position s with
  | nil =>
      simp only [resourcesRead, Except.ok.injEq, List.forall₂_nil_left_iff, exists_eq_left]
      simp only [List.map_nil, List.nodup_nil, List.not_mem_nil, false_imp_iff, implies_true, sizes, List.sum_nil,
        Nat.add_zero, placed, List.append_nil, List.zipIdx_nil, true_and, hs]
      exact eq_comm
  | cons value values ih =>
      simp only [resourcesRead, bind_eq_ok, resourceRead_eq_ok]
      constructor
      · rintro ⟨mid, ⟨name, size, hresource, hnew, hroom, rfl⟩, hrest⟩
        obtain ⟨resources, hall, hnodup, hothers, hfits, rfl⟩ := (ih hroom).1 hrest
        simp only [List.lookup_append, Option.or_eq_none_iff] at hothers
        have hname : name ∉ resources.map Prod.fst := by
          intro hmem
          obtain ⟨resource, hin, rfl⟩ := List.mem_map.1 hmem
          simpa using (hothers resource hin).2
        refine ⟨(name, size) :: resources, .cons hresource hall, List.nodup_cons.2 ⟨hname, hnodup⟩, ?_, ?_, ?_⟩
        · exact List.forall_mem_cons.2 ⟨hnew, fun resource hin => (hothers resource hin).1⟩
        · rw [sizes_cons, ← Nat.add_assoc]
          exact hfits
        · simp only [placed, sizes_cons, List.map_cons, List.zipIdx_cons, List.append_assoc, List.cons_append,
            List.nil_append, List.length_append, List.length_singleton, Nat.add_assoc]
      · rintro ⟨resources, hall, hnodup, hothers, hfits, rfl⟩
        cases hall with
        | cons hresource hall =>
            rename_i resource resources
            obtain ⟨name, size⟩ := resource
            rw [List.map_cons, List.nodup_cons] at hnodup
            rw [sizes_cons, ← Nat.add_assoc] at hfits
            have hroom : s.running + size ≤ kUint64Max := le_trans (Nat.le_add_right _ _) hfits
            refine ⟨_, ⟨name, size, hresource, hothers _ List.mem_cons_self, hroom, rfl⟩, ?_⟩
            refine (ih hroom).2 ⟨resources, hall, hnodup.2, fun other hin => ?_, hfits, ?_⟩
            · have hne : other.1 ≠ name := by
                intro heq
                have hmem : other.1 ∈ resources.map Prod.fst := List.mem_map_of_mem hin
                exact hnodup.1 (heq ▸ hmem)
              rw [List.lookup_append, hothers other (List.mem_cons_of_mem _ hin)]
              simp [hne]
            · simp only [placed, sizes_cons, List.map_cons, List.zipIdx_cons, List.append_assoc, List.cons_append,
                List.nil_append, List.length_append, List.length_singleton, Nat.add_assoc]

/-! The format -/

/-- A pak whose description line ends at `p` and names these resources. -/
structure Describes (parse : JsonParse) (bytes : List UInt8) (p : Nat) (resources : List (String × Nat)) : Prop where
  line : FirstNewline bytes p
  early : p < min bytes.length kDescriptionLimit
  description : ∃ members depth text values, parse (bytes.take p) = .ok (.object members, depth) ∧ depth ≤ kNestingLimit ∧
    members.lookup "headerSize" = some (.string text) ∧ DecimalText text (p + 1) ∧
      members.lookup "resources" = some (.array values) ∧ List.Forall₂ IsResource values resources
  distinct : (resources.map Prod.fst).Nodup
  whole : p + 1 + sizes resources = bytes.length

/-- The index of such a pak. -/
def indexOf (stamp : PakStamp) (p : Nat) (resources : List (String × Nat)) : PakIndex where
  stamp
  entries := placed (p + 1) resources
  descriptionSize := p + 1
  byName := (resources.map Prod.fst).zipIdx

theorem descriptionCheck_eq_ok {members : List (String × Json)} {stop : Nat} {stamp : PakStamp} {index : PakIndex} :
    descriptionCheck members stop stamp = .ok index ↔
      ∃ text values s, members.lookup "headerSize" = some (.string text) ∧ DecimalText text stop ∧ stop ≤ kUint64Max ∧
        members.lookup "resources" = some (.array values) ∧ resourcesRead values 0 { running := stop } = .ok s ∧
          s.running = stamp.size ∧
            index = { stamp, entries := s.entries, descriptionSize := stop, byName := s.byName } := by
  rw [descriptionCheck]
  simp only [bind_eq_ok, headerSizeRead_eq_ok, damagedIf_eq_ok, not_not]
  constructor
  · rintro ⟨headerSize, ⟨text, hheader, htext, hmax⟩, -, rfl, h⟩
    split at h
    · cases h
    · rename_i values hvalues
      simp only [bind_eq_ok, damagedIf_eq_ok, not_lt, pure_eq_ok, Except.ok.injEq] at h
      obtain ⟨s, hs, -, hlow, -, hhigh, rfl⟩ := h
      exact ⟨text, values, s, hheader, htext, hmax, hvalues, hs, le_antisymm hlow hhigh, rfl⟩
    · cases h
  · rintro ⟨text, values, s, hheader, htext, hmax, hvalues, hs, hwhole, rfl⟩
    refine ⟨stop, ⟨text, hheader, htext, hmax⟩, (), rfl, ?_⟩
    simp only [hvalues, hs, hwhole, damagedIf, lt_irrefl, if_false, ok_bind, pure_eq_ok]

theorem pakIndexRead_eq_ok {parse : JsonParse} {index : PakIndex} : pakIndexRead parse file = .ok index ↔
    ∃ p resources, Describes parse file.bytes p resources ∧ index = indexOf file.stamp p resources := by
  have hsize := file.size_le
  have hlimit : kDescriptionLimit < kUint64Max := by decide
  rw [pakIndexRead]
  simp only [bind_eq_ok, descriptionRead_eq_ok, descriptionParse_eq_ok]
  constructor
  · rintro ⟨found, ⟨p, hearly, hline, rfl⟩, description, ⟨depth, hdepth, hparse⟩, h⟩
    split at h
    swap
    · cases h
    rename_i members
    obtain ⟨text, values, s, hheader, htext, hmax, hvalues, hs, hwhole, rfl⟩ := descriptionCheck_eq_ok.1 h
    obtain ⟨resources, hall, hnodup, -, -, rfl⟩ := (resourcesRead_eq_ok hmax).1 hs
    refine ⟨p, resources, ⟨hline, hearly, ⟨members, depth, text, values, hparse, hdepth, hheader, htext, hvalues, hall⟩,
      hnodup, ?_⟩, ?_⟩
    · rw [← file.size_eq, ← hwhole]
    · simp [indexOf]
  · rintro ⟨p, resources, ⟨hline, hearly, ⟨members, depth, text, values, hparse, hdepth, hheader, htext, hvalues, hall⟩,
      hnodup, hwhole⟩, rfl⟩
    have hmax : p + 1 ≤ kUint64Max := by omega
    refine ⟨_, ⟨p, hearly, hline, rfl⟩, .object members, ⟨depth, hdepth, hparse⟩, ?_⟩
    refine descriptionCheck_eq_ok.2 ⟨text, values,
      ⟨placed (p + 1) resources, (resources.map Prod.fst).zipIdx, p + 1 + sizes resources⟩,
      hheader, htext, hmax, hvalues, ?_, ?_, rfl⟩
    · refine (resourcesRead_eq_ok hmax).2 ⟨resources, hall, hnodup, fun _ _ => rfl, ?_, ?_⟩
      · exact hwhole.trans_le hsize
      · simp
    · rw [file.size_eq]
      exact hwhole

/-! The index divides the file -/

structure Tiles (bytes : List UInt8) (p : Nat) (resources : List (String × Nat)) (index : PakIndex) : Prop where
  descriptionSize : index.descriptionSize = p + 1
  count : index.entries.length = resources.length
  entry : ∀ k name size, resources[k]? = some (name, size) →
    index.entries[k]? = some (PakEntry.mk name (p + 1 + sizes (resources.take k)) size)
  byName : ∀ name k, index.byName.lookup name = some k ↔ ∃ size, resources[k]? = some (name, size)
  apart : index.entries.Pairwise fun a b => a.offset + a.size ≤ b.offset
  inside : ∀ entry ∈ index.entries, p + 1 ≤ entry.offset ∧ entry.offset + entry.size ≤ bytes.length
  cover : ∀ i, p + 1 ≤ i → i < bytes.length → ∃ entry ∈ index.entries, entry.offset ≤ i ∧ i < entry.offset + entry.size

theorem length_placed (offset : Nat) (resources : List (String × Nat)) :
    (placed offset resources).length = resources.length := by
  induction resources generalizing offset with
  | nil => rfl
  | cons resource rest ih => simp only [placed, List.length_cons, ih]

theorem map_placed (offset : Nat) (resources : List (String × Nat)) :
    (placed offset resources).map (fun entry => (entry.name, entry.size)) = resources := by
  induction resources generalizing offset with
  | nil => rfl
  | cons resource rest ih => rw [placed, List.map_cons, ih]

theorem getElem?_placed {resources : List (String × Nat)} {offset k : Nat} {name : String} {size : Nat}
    (h : resources[k]? = some (name, size)) :
    (placed offset resources)[k]? = some ⟨name, offset + sizes (resources.take k), size⟩ := by
  induction resources generalizing offset k with
  | nil => simp at h
  | cons resource rest ih =>
      obtain ⟨first, length⟩ := resource
      cases k with
      | zero =>
          rw [List.getElem?_cons_zero, Option.some.injEq, Prod.mk.injEq] at h
          obtain ⟨rfl, rfl⟩ := h
          rfl
      | succ k =>
          rw [List.getElem?_cons_succ] at h
          rw [placed, List.getElem?_cons_succ, ih h, List.take_succ_cons, sizes_cons, Nat.add_assoc]

/-- The places lie between the ends. -/
theorem placed_inside {resources : List (String × Nat)} {offset : Nat} :
    ∀ entry ∈ placed offset resources, offset ≤ entry.offset ∧ entry.offset + entry.size ≤ offset + sizes resources := by
  induction resources generalizing offset with
  | nil => simp [placed]
  | cons resource rest ih =>
      obtain ⟨name, size⟩ := resource
      rw [placed, List.forall_mem_cons, sizes_cons]
      refine ⟨⟨le_refl _, by simp⟩, fun entry hin => ?_⟩
      have hentry := ih entry hin
      omega

theorem placed_apart {resources : List (String × Nat)} {offset : Nat} :
    (placed offset resources).Pairwise fun a b => a.offset + a.size ≤ b.offset := by
  induction resources generalizing offset with
  | nil => exact .nil
  | cons resource rest ih =>
      obtain ⟨name, size⟩ := resource
      exact .cons (fun entry hin => (placed_inside entry hin).1) ih

theorem placed_cover {resources : List (String × Nat)} {offset i : Nat} (hlow : offset ≤ i)
    (hhigh : i < offset + sizes resources) :
    ∃ entry ∈ placed offset resources, entry.offset ≤ i ∧ i < entry.offset + entry.size := by
  induction resources generalizing offset with
  | nil => exact absurd hhigh (by simpa [sizes] using hlow)
  | cons resource rest ih =>
      obtain ⟨name, size⟩ := resource
      rw [sizes_cons] at hhigh
      by_cases hi : i < offset + size
      · exact ⟨_, List.mem_cons_self, hlow, hi⟩
      · obtain ⟨entry, hin, hentry⟩ := @ih (offset + size) (by omega) (by omega)
        exact ⟨entry, List.mem_cons_of_mem _ hin, hentry⟩

/-- Of distinct names each is found at its position. -/
theorem lookup_zipIdx {names : List String} {name : String} {start k : Nat} (h : names.Nodup) :
    (names.zipIdx start).lookup name = some k ↔ start ≤ k ∧ names[k - start]? = some name := by
  induction names generalizing start with
  | nil => simp
  | cons first rest ih =>
      obtain ⟨hfirst, hrest⟩ := List.nodup_cons.1 h
      rw [List.zipIdx_cons, List.lookup_cons]
      by_cases heq : name = first
      · subst heq
        rw [beq_self_eq_true, Option.some.injEq]
        constructor
        · rintro rfl
          exact ⟨le_refl _, by rw [Nat.sub_self, List.getElem?_cons_zero]⟩
        · rintro ⟨hle, hk⟩
          by_contra hne
          obtain ⟨d, hd⟩ := Nat.exists_eq_add_of_lt (lt_of_le_of_ne hle hne)
          rw [show k - start = d + 1 by omega, List.getElem?_cons_succ] at hk
          exact hfirst (List.mem_of_getElem? hk)
      · rw [beq_false_of_ne heq, ih hrest]
        constructor
        · rintro ⟨hle, hk⟩
          rw [show k - start = k - (start + 1) + 1 by omega, List.getElem?_cons_succ]
          exact ⟨by omega, hk⟩
        · rintro ⟨hle, hk⟩
          by_cases hstart : k = start
          · rw [hstart, Nat.sub_self, List.getElem?_cons_zero, Option.some.injEq] at hk
            exact absurd hk.symm heq
          · rw [show k - start = k - (start + 1) + 1 by omega, List.getElem?_cons_succ] at hk
            exact ⟨by omega, hk⟩

theorem indexOf_tiles {parse : JsonParse} {resources : List (String × Nat)} (stamp : PakStamp)
    (h : Describes parse bytes p resources) : Tiles bytes p resources (indexOf stamp p resources) := by
  have hwhole := h.whole
  refine ⟨rfl, length_placed _ _, fun k name size hk => getElem?_placed hk, fun name k => ?_, placed_apart,
    fun entry hin => ?_, fun i hlow hhigh => placed_cover hlow (by omega)⟩
  · rw [indexOf, lookup_zipIdx h.distinct]
    simp only [Nat.zero_le, true_and, Nat.sub_zero, List.getElem?_map, Option.map_eq_some_iff, Prod.exists,
      exists_and_right, exists_eq_right]
  · rw [← hwhole]
    exact placed_inside entry hin

/-- What is accepted is the format and nothing else, and its index divides the rest of the file among the resources. -/
theorem pak_reader_exact (parse : JsonParse) (file : PakFile) :
    ((∃ index, pakIndexRead parse file = .ok index) ↔ ∃ p resources, Describes parse file.bytes p resources) ∧
      ∀ index, pakIndexRead parse file = .ok index → ∃ p resources, Describes parse file.bytes p resources ∧
        index.stamp = file.stamp ∧ Tiles file.bytes p resources index := by
  simp only [pakIndexRead_eq_ok]
  constructor
  · constructor
    · rintro ⟨index, p, resources, hd, -⟩
      exact ⟨p, resources, hd⟩
    · rintro ⟨p, resources, hd⟩
      exact ⟨_, p, resources, hd, rfl⟩
  · rintro index ⟨p, resources, hd, rfl⟩
    exact ⟨p, resources, hd, rfl, indexOf_tiles _ hd⟩

/-- A pak is described in one way only, so what its index holds is what it was described with. -/
theorem Describes.of_read {parse : JsonParse} {resources : List (String × Nat)} {index : PakIndex}
    (h : Describes parse file.bytes p resources) (hread : pakIndexRead parse file = .ok index) :
    p + 1 = index.descriptionSize ∧ resources = index.entries.map fun entry => (entry.name, entry.size) := by
  have hsame : pakIndexRead parse file = .ok (indexOf file.stamp p resources) := pakIndexRead_eq_ok.2 ⟨p, resources, h, rfl⟩
  rw [hread, Except.ok.injEq] at hsame
  subst hsame
  exact ⟨rfl, (map_placed (p + 1) resources).symm⟩

/-- A description of two resources, of one byte and of two. -/
def smallLine : List UInt8 :=
  ("\x7b\"headerSize\":\"78\",\"resources\":[\x7b\"name\":\"a\",\"size\":1\x7d,\x7b\"name\":\"b\",\"size\":2\x7d]\x7d").toList.map
    fun c => UInt8.ofNat c.toNat

def smallResource (name : String) (size : UInt64) : Json := .object [("name", .string name), ("size", .numberUnsigned size)]

def smallParse : JsonParse := fun line =>
  if line = smallLine then
    .ok (.object [("headerSize", .string "78"), ("resources", .array [smallResource "a" 1, smallResource "b" 2])], 3)
  else .error "parse error"

def smallPak : PakFile where
  bytes := smallLine ++ [kNewline, 7, 8, 9]
  stamp := ⟨0, 0, 81, 0⟩
  size_eq := by decide +kernel
  size_le := by decide +kernel

def smallIndex : PakIndex where
  stamp := smallPak.stamp
  entries := [⟨"a", 78, 1⟩, ⟨"b", 79, 2⟩]
  descriptionSize := 78
  byName := [("a", 0), ("b", 1)]

set_option maxRecDepth 4000 in
theorem smallIndex_read : pakIndexRead smallParse smallPak = .ok smallIndex := by
  with_unfolding_all rfl

theorem smallPak_read : Describes smallParse smallPak.bytes 77 [("a", 1), ("b", 2)] ∧
    Tiles smallPak.bytes 77 [("a", 1), ("b", 2)] smallIndex := by
  obtain ⟨p, resources, hd, -, ht⟩ := (pak_reader_exact smallParse smallPak).2 smallIndex smallIndex_read
  obtain ⟨hp, rfl⟩ := hd.of_read smallIndex_read
  obtain rfl : p = 77 := Nat.succ.inj hp
  exact ⟨hd, ht⟩

end TheSeed.PakFormat
