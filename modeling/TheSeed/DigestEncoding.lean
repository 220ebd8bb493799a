import TheSeed.DigestField

namespace TheSeed.DigestEncoding

open Bytes Checked BoundedBytes MsiSigner DigestField

/-! The encodings of a signed-data structure, and what the reader of the digest field finds in them. -/

/-! Elements -/

/-- The bytes of a definite length, which need not be the fewest. -/
inductive IsLength : Nat → List UInt8 → Prop
  | short {n : Nat} (h : n < 0x80) : IsLength n [UInt8.ofNat n]
  | long {n count : Nat} (hcount : 1 ≤ count) (hmax : count ≤ 4) (h : n < 256 ^ count) :
      IsLength n (UInt8.ofNat (0x80 + count) :: beBytes count n)

def IsElement (tag : Nat) (content bytes : List UInt8) : Prop :=
  ∃ length, IsLength content.length length ∧ bytes = UInt8.ofNat tag :: (length ++ content)

/-- The tag is one byte. -/
structure ShortTag (tag : Nat) : Prop where
  byte : tag < 256
  short : tag % 0x20 ≠ 0x1F

def WellFormed (bytes : List UInt8) : Prop := ∃ tag content, ShortTag tag ∧ IsElement tag content bytes

/-- An element with these children and anything after them. -/
def Holds (tag : Nat) (children : List (List UInt8)) (bytes : List UInt8) : Prop :=
  ∃ rest, IsElement tag (children.flatten ++ rest) bytes

variable {span : ByteSpan} {before field after content bytes rest : List UInt8} {tag n offset : Nat} {parent : Element}
  {children : List (List UInt8)} {what : String}

theorem read_field {order : ByteOrder} (h : span.bytes = before ++ field ++ after) :
    span.read field.length before.length order what = .ok (order.value field) := by
  refine ByteSpan.read_eq_ok.2 ⟨?_, ?_⟩
  · rw [h, List.length_append, List.length_append]
    omega
  · rw [h, List.append_assoc, slice_append_right (Nat.le_refl _), Nat.sub_self,
      slice_append_left (by rw [Nat.zero_add]), slice_all]

theorem read_byte {b : UInt8} (h : span.bytes = before ++ b :: after) (hoffset : offset = before.length) :
    span.read 1 offset .big what = .ok b.toNat := by
  have hread := @read_field span before [b] after what .big (by rw [h, List.append_assoc]; rfl)
  rw [hoffset]
  simpa [ByteOrder.value, beValue, leValue] using hread

theorem beValue_concat (bs : List UInt8) (b : UInt8) : beValue (bs ++ [b]) = beValue bs * 256 + b.toNat := by
  rw [beValue, List.reverse_append, List.reverse_singleton, List.singleton_append, leValue, beValue]
  omega

/-- The loop over the bytes of a length gathers their number. -/
theorem length_loop (h : span.bytes = before ++ field ++ after) (k : Nat) (hk : k ≤ field.length) :
    (List.range k).foldlM (fun length i => do
      let byte ← span.read 1 (before.length + i) .big what
      return length * 256 + byte) 0 = (.ok (beValue (field.take k)) : Outcome Nat) := by
  induction k with
  | zero => rfl
  | succ k ih =>
      have hsplit : span.bytes = (before ++ field.take k) ++ field.get ⟨k, hk⟩ :: (field.drop (k + 1) ++ after) := by
        rw [h, List.append_assoc, List.append_assoc, ← List.cons_append, List.get_eq_getElem,
          ← List.drop_eq_getElem_cons, ← List.append_assoc (field.take k), List.take_append_drop]
      have hplace : before.length + k = (before ++ field.take k).length := by
        rw [List.length_append, List.length_take, Nat.min_eq_left (Nat.le_of_succ_le hk)]
      have hread : span.read 1 (before.length + k) .big what = .ok _ := read_byte hsplit hplace
      rw [List.range_succ, List.foldlM_append, ih (Nat.le_of_succ_le hk), ok_bind, List.foldlM_cons, hread, ok_bind,
        ← List.take_concat_get' _ _ hk, beValue_concat]
      rfl

theorem readLength_eq {length : List UInt8} (hlength : IsLength n length)
    (h : span.bytes = before ++ UInt8.ofNat tag :: (length ++ after)) :
    readLength span before.length = .ok (n, 1 + length.length) := by
  cases hlength with
  | short hn =>
      have hspan : span.bytes = (before ++ [UInt8.ofNat tag]) ++ UInt8.ofNat n :: after := by
        rw [h]
        simp
      have hread : span.read 1 (before.length + 1) .big "length" = .ok _ := read_byte hspan (by simp)
      have hvalue : (UInt8.ofNat n).toNat = n := by
        rw [UInt8.toNat_ofNat', Nat.mod_eq_of_lt (hn.trans (by decide))]
      rw [readLength, hread, ok_bind, hvalue]
      simp only [if_pos hn]
      rfl
  | @long count hcount hmax hn =>
      have hvalue : (UInt8.ofNat (0x80 + count)).toNat = 0x80 + count := by
        rw [UInt8.toNat_ofNat', Nat.mod_eq_of_lt (by omega)]
      have hspan : span.bytes = (before ++ [UInt8.ofNat tag]) ++ UInt8.ofNat (0x80 + count) ::
          (beBytes count n ++ after) := by
        rw [h]
        simp
      have hread : span.read 1 (before.length + 1) .big "length" = .ok _ := read_byte hspan (by simp)
      rw [hvalue] at hread
      have hsplit : span.bytes = (before ++ [UInt8.ofNat tag, UInt8.ofNat (0x80 + count)]) ++ beBytes count n ++ after := by
        rw [h]
        simp
      have hloop := @length_loop _ _ _ _ "length byte" hsplit count (by rw [length_beBytes])
      rw [List.take_of_length_le (by rw [length_beBytes]), beValue_beBytes_of_lt hn, List.length_append] at hloop
      have hmod : (0x80 + count) % 0x80 = count := by omega
      rw [readLength, hread, ok_bind, if_neg (by omega)]
      simp only [hmod]
      rw [rejectIf_of_not (by rw [kMaxLengthBytes]; omega), ok_bind]
      simp only [List.length_cons, List.length_nil] at hloop
      rw [hloop, ok_bind, List.length_cons, length_beBytes]
      simp only [pure_eq_ok, Except.ok.injEq, Prod.mk.injEq, true_and]
      omega

theorem readElement_eq (htag : ShortTag tag) (hbytes : IsElement tag content bytes)
    (h : span.bytes = before ++ bytes ++ after) :
    readElement span before.length = .ok ⟨tag, ⟨content, span.format, "element"⟩, bytes.length⟩ := by
  obtain ⟨length, hlength, rfl⟩ := hbytes
  have hvalue : (UInt8.ofNat tag).toNat = tag := by rw [UInt8.toNat_ofNat', Nat.mod_eq_of_lt htag.byte]
  have hspan : span.bytes = before ++ UInt8.ofNat tag :: (length ++ (content ++ after)) := by
    rw [h]
    simp
  have hread : span.read 1 before.length .big "tag" = .ok tag := by
    rw [← hvalue]
    exact read_byte hspan rfl
  have hsub : span.sub (before.length + (1 + length.length)) content.length "element" =
      .ok ⟨content, span.format, "element"⟩ := by
    have hplace : before.length + (1 + length.length) = (before ++ UInt8.ofNat tag :: length).length := by
      rw [List.length_append, List.length_cons]
      omega
    refine ByteSpan.sub_eq_ok.2 ⟨?_, ?_⟩
    · rw [hspan]
      simp only [List.length_append, List.length_cons]
      omega
    · have hwhole : span.bytes = (before ++ UInt8.ofNat tag :: length) ++ (content ++ after) := by
        rw [hspan]
        simp
      rw [hwhole, hplace, slice_append_right (Nat.le_refl _), Nat.sub_self, slice_append_left (by rw [Nat.zero_add]),
        slice_all]
  rw [readElement, hread, ok_bind, rejectIf_of_not htag.short, ok_bind, readLength_eq hlength hspan, ok_bind]
  simp only
  rw [hsub, ok_bind]
  simp only [pure_eq_ok, List.length_cons, List.length_append, Except.ok.injEq, Element.mk.injEq, true_and]
  omega

theorem flatten_at {k : Nat} (hk : k < children.length) :
    children.flatten = (children.take k).flatten ++ children[k] ++ (children.drop (k + 1)).flatten := by
  calc children.flatten = (children.take k ++ children.drop k).flatten := by rw [List.take_append_drop]
    _ = _ := by rw [List.drop_eq_getElem_cons hk, List.flatten_append, List.flatten_cons, List.append_assoc]

/-- The loop over the siblings comes to the end of the first `k` children. -/
theorem skip_loop (hbytes : span.bytes = children.flatten ++ rest) (hall : ∀ c ∈ children, WellFormed c) (k : Nat)
    (hk : k ≤ children.length) :
    (List.range k).foldlM (fun offset _ => do
      let sibling ← readElement span offset
      return offset + sibling.total) 0 = (.ok (children.take k).flatten.length : Outcome Nat) := by
  induction k with
  | zero => rfl
  | succ k ih =>
      obtain ⟨tag, content, htag, helement⟩ := hall _ (List.getElem_mem (h := hk))
      have hsplit : span.bytes = (children.take k).flatten ++ children[k] ++ ((children.drop (k + 1)).flatten ++ rest) := by
        rw [hbytes, flatten_at hk, List.append_assoc _ _ rest]
      rw [List.range_succ, List.foldlM_append, ih (Nat.le_of_succ_le hk), ok_bind, List.foldlM_cons,
        readElement_eq htag helement hsplit, ok_bind, ← List.take_concat_get' _ _ hk, List.flatten_append,
        List.length_append]
      simp

/-- The child that is asked for, behind siblings of any kind. -/
theorem child_eq (hparent : parent.content.bytes = children.flatten ++ rest) (hall : ∀ c ∈ children, WellFormed c)
    (hn : children[n]? = some bytes) (htag : ShortTag tag) (helement : IsElement tag content bytes)
    (hfew : n ≤ kMaxSkippedSiblings) (what : String) :
    child parent n tag what = .ok ⟨tag, ⟨content, parent.content.format, "element"⟩, bytes.length⟩ := by
  obtain ⟨hlt, rfl⟩ := List.getElem?_eq_some_iff.1 hn
  have hsplit : parent.content.bytes =
      (children.take n).flatten ++ children[n] ++ ((children.drop (n + 1)).flatten ++ rest) := by
    rw [hparent, flatten_at hlt, List.append_assoc _ _ rest]
  rw [child, rejectIf_of_not (Nat.not_lt.2 hfew), ok_bind, skip_loop hparent hall n (Nat.le_of_lt hlt), ok_bind,
    readElement_eq htag helement hsplit, ok_bind, rejectIf_of_not (by simp), ok_bind]
  rfl

/-! Object identifiers -/

/-- The groups of seven bits of a number before its last one, each with the bit that says that more follow. -/
def highGroups : Nat → Nat → List UInt8
  | 0, _ => []
  | bound + 1, n => if n = 0 then [] else highGroups bound (n / 0x80) ++ [UInt8.ofNat (0x80 + n % 0x80)]

/-- The fewest groups of seven bits. -/
def groups (n : Nat) : List UInt8 := highGroups n (n / 0x80) ++ [UInt8.ofNat (n % 0x80)]

/-- An object identifier by its arcs. -/
structure Oid where
  root : Nat
  second : Nat
  arcs : List Nat
  root_le : root ≤ 2
  second_lt : root < 2 → second < 40

/-- The first number stands for two arcs. -/
def Oid.subIdentifiers (oid : Oid) : List Nat := (oid.root * 40 + oid.second) :: oid.arcs

def Oid.encoded (oid : Oid) : List UInt8 := oid.subIdentifiers.flatMap groups

def Oid.dotted (oid : Oid) : String := ".".intercalate ((oid.root :: oid.second :: oid.arcs).map toString)

/-- What the reader takes. -/
structure Oid.Small (oid : Oid) : Prop where
  few : oid.encoded.length ≤ kMaxOidBytes
  small : ∀ n ∈ oid.subIdentifiers, n < 2 ^ 63

theorem highGroups_loop {bound : Nat} {text : Option String} (hbound : n ≤ bound) (hsmall : n ≤ 0xFFFFFFFFFFFFFF)
    (hrest : rest ≠ []) (h : span.bytes = before ++ highGroups bound n ++ rest) (remaining : Nat) :
    decodeOidFrom span ((highGroups bound n).length + remaining) before.length text 0 =
      decodeOidFrom span remaining (before ++ highGroups bound n).length text n := by
  induction bound generalizing n rest remaining with
  | zero =>
      obtain rfl := Nat.le_zero.1 hbound
      simp [highGroups]
  | succ bound ih =>
      by_cases hzero : n = 0
      · simp [highGroups, hzero]
      · rw [highGroups, if_neg hzero] at h ⊢
        have hless : n / 0x80 ≤ bound := by omega
        have hsplit : span.bytes = before ++ highGroups bound (n / 0x80) ++ ([UInt8.ofNat (0x80 + n % 0x80)] ++ rest) := by
          rw [h]
          simp
        have hread : span.read 1 (before ++ highGroups bound (n / 0x80)).length .big "object identifier" = .ok _ :=
          read_byte (by rw [hsplit, List.singleton_append]) rfl
        have hvalue : (UInt8.ofNat (0x80 + n % 0x80)).toNat = 0x80 + n % 0x80 := by
          rw [UInt8.toNat_ofNat', Nat.mod_eq_of_lt (by omega)]
        have hnext : n / 0x80 * 0x80 + (0x80 + n % 0x80) % 0x80 = n := by omega
        have hmore : (before ++ highGroups bound (n / 0x80)).length + 1 ≠ span.size := by
          have hlong := List.length_pos_iff.2 hrest
          simp only [ByteSpan.size, hsplit, List.length_append, List.length_singleton]
          omega
        rw [List.length_append, List.length_singleton, Nat.add_assoc, ih hless (by omega) (by simp) hsplit,
          Nat.add_comm 1 remaining, decodeOidFrom, hread, ok_bind, hvalue]
        simp only [hnext]
        rw [if_pos (by omega), rejectIf_of_not (by simp only [not_or]; exact ⟨hmore, by omega⟩), ok_bind]
        congr 1
        simp [Nat.add_assoc]

/-- The text with one more number. -/
def withNumber (text : Option String) (n : Nat) : String :=
  match text with
  | none =>
      let head := if n < 80 then n / 40 else 2
      toString head ++ "." ++ toString (n - head * 40)
  | some text => text ++ "." ++ toString n

theorem groups_loop {text : Option String} (hsmall : n < 2 ^ 63) (h : span.bytes = before ++ groups n ++ rest)
    (remaining : Nat) :
    decodeOidFrom span ((groups n).length + remaining) before.length text 0 =
      decodeOidFrom span remaining (before ++ groups n).length (some (withNumber text n)) 0 := by
  have hsplit : span.bytes = before ++ highGroups n (n / 0x80) ++ ([UInt8.ofNat (n % 0x80)] ++ rest) := by
    rw [h, groups]
    simp
  have hread : span.read 1 (before ++ highGroups n (n / 0x80)).length .big "object identifier" = .ok _ :=
    read_byte (by rw [hsplit, List.singleton_append]) rfl
  have hvalue : (UInt8.ofNat (n % 0x80)).toNat = n % 0x80 := by
    rw [UInt8.toNat_ofNat', Nat.mod_eq_of_lt (by omega)]
  have hnext : n / 0x80 * 0x80 + n % 0x80 % 0x80 = n := by omega
  have hplace : (before ++ highGroups n (n / 0x80)).length + 1 = (before ++ groups n).length := by
    rw [groups]
    simp [Nat.add_assoc]
  have hbound : n / 0x80 ≤ n := Nat.div_le_self _ _
  rw [groups, List.length_append, List.length_singleton, Nat.add_assoc,
    highGroups_loop hbound (by omega) (by simp) hsplit, Nat.add_comm 1 remaining, decodeOidFrom, hread, ok_bind, hvalue]
  simp only [hnext]
  rw [if_neg (by omega), hplace, groups]
  cases text <;> rfl

theorem numbers_loop {numbers : List Nat} {text : Option String} (hsmall : ∀ n ∈ numbers, n < 2 ^ 63)
    (h : span.bytes = before ++ numbers.flatMap groups) :
    decodeOidFrom span (numbers.flatMap groups).length before.length text 0 =
      .ok ((numbers.foldl (fun text n => some (withNumber text n)) text).getD "") := by
  induction numbers generalizing before text with
  | nil => rfl
  | cons n numbers ih =>
      rw [List.flatMap_cons] at h ⊢
      rw [List.length_append, groups_loop (hsmall n List.mem_cons_self) (by rw [h, List.append_assoc]),
        ih (fun other hother => hsmall other (List.mem_cons_of_mem n hother)) (by rw [h, List.append_assoc]),
        List.foldl_cons]

theorem withNumber_first (oid : Oid) : withNumber none (oid.root * 40 + oid.second) =
    toString oid.root ++ "." ++ toString oid.second := by
  have hroot := oid.root_le
  have hhead : (if oid.root * 40 + oid.second < 80 then (oid.root * 40 + oid.second) / 40 else 2) = oid.root := by
    by_cases h : oid.root < 2
    · have hsecond := oid.second_lt h
      rw [if_pos (by omega)]
      omega
    · rw [if_neg (by omega)]
      omega
  rw [withNumber]
  simp only [hhead]
  rw [Nat.add_sub_cancel_left]

theorem dotted_eq (oid : Oid) : oid.dotted =
    (oid.subIdentifiers.foldl (fun text n => some (withNumber text n)) none).getD "" := by
  have hjoin : ∀ (arcs : List Nat) (text : String), (arcs.foldl (fun text n => some (withNumber text n)) (some text)).getD "" =
      ".".intercalate (text :: arcs.map toString) := by
    intro arcs
    induction arcs with
    | nil => exact fun text => String.intercalate_singleton.symm
    | cons n arcs ih =>
        intro text
        rw [List.foldl_cons, List.map_cons, String.intercalate_cons_cons, ← String.intercalate_cons_append]
        exact ih (text ++ "." ++ toString n)
  rw [Oid.subIdentifiers, List.foldl_cons, withNumber_first, hjoin, String.intercalate_cons_append,
    ← String.intercalate_cons_cons]
  rfl

theorem decodeOid_eq {oid : Oid} (hs : oid.Small) (h : span.bytes = oid.encoded) : decodeOid span = .ok oid.dotted := by
  have hsize : span.size = oid.encoded.length := by rw [ByteSpan.size, h]
  have hpos : 0 < oid.encoded.length := by
    rw [Oid.encoded, Oid.subIdentifiers, List.flatMap_cons, List.length_append, groups, List.length_append,
      List.length_singleton]
    omega
  have hloop := @numbers_loop span [] oid.subIdentifiers none hs.small h
  have hfew := hs.few
  rw [decodeOid, hsize, rejectIf_of_not (by omega), ok_bind, dotted_eq]
  exact hloop

/-! The signed-data structure -/

def signedDataOid : Oid := ⟨1, 2, [840, 113549, 1, 7, 2], by decide, by decide⟩

def indirectDataOid : Oid := ⟨1, 3, [6, 1, 4, 1, 311, 2, 1, 4], by decide, by decide⟩

def IsOid (oid : Oid) (bytes : List UInt8) : Prop := IsElement kTagOid oid.encoded bytes

/-- The parameters are what follows the identifier. -/
def IsAlgorithm (algorithm : Oid) (bytes : List UInt8) : Prop :=
  ∃ identifier, IsOid algorithm identifier ∧ Holds kTagSequence [identifier] bytes

def IsDigestInfo (algorithm : Oid) (digest bytes : List UInt8) : Prop :=
  ∃ algorithmBytes digestBytes, IsAlgorithm algorithm algorithmBytes ∧ IsElement kTagOctetString digest digestBytes ∧
    Holds kTagSequence [algorithmBytes, digestBytes] bytes

def IsIndirectData (algorithm : Oid) (digest bytes : List UInt8) : Prop :=
  ∃ first info, WellFormed first ∧ IsDigestInfo algorithm digest info ∧ Holds kTagSequence [first, info] bytes

/-- A sequence of the identifier of a type, and a value under an explicit tag. -/
def IsTyped (type : Oid) (IsValue : List UInt8 → Prop) (bytes : List UInt8) : Prop :=
  ∃ typeBytes value tagged, IsOid type typeBytes ∧ IsValue value ∧ Holds kTagContext0 [value] tagged ∧
    Holds kTagSequence [typeBytes, tagged] bytes

def IsSignedData (algorithm : Oid) (digest bytes : List UInt8) : Prop :=
  ∃ version algorithms content, (∃ number, IsElement kTagInteger number version) ∧
    (∃ members, IsElement kTagSet members algorithms) ∧
    IsTyped indirectDataOid (IsIndirectData algorithm digest) content ∧
    Holds kTagSequence [version, algorithms, content] bytes

def IsContentInfo (algorithm : Oid) (digest bytes : List UInt8) : Prop :=
  IsTyped signedDataOid (IsSignedData algorithm digest) bytes

theorem Holds.wellFormed (htag : ShortTag tag) (h : Holds tag children bytes) : WellFormed bytes := by
  obtain ⟨rest, h⟩ := h
  exact ⟨tag, _, htag, h⟩

/-- The content of an element begins with these children. -/
def Begins (e : Element) (children : List (List UInt8)) : Prop := ∃ rest, e.content.bytes = children.flatten ++ rest

theorem child_of_element (hparent : Begins parent children) (hall : ∀ c ∈ children, WellFormed c)
    (hn : children[n]? = some bytes) (htag : ShortTag tag) (h : IsElement tag content bytes)
    (hfew : n ≤ kMaxSkippedSiblings) (what : String) :
    ∃ e, child parent n tag what = .ok e ∧ e.content.bytes = content := by
  obtain ⟨rest, hrest⟩ := hparent
  exact ⟨_, child_eq hrest hall hn htag h hfew what, rfl⟩

theorem child_of_holds {inner : List (List UInt8)} (hparent : Begins parent children)
    (hall : ∀ c ∈ children, WellFormed c) (hn : children[n]? = some bytes) (htag : ShortTag tag)
    (h : Holds tag inner bytes) (hfew : n ≤ kMaxSkippedSiblings) (what : String) :
    ∃ e, child parent n tag what = .ok e ∧ Begins e inner := by
  obtain ⟨rest, h⟩ := h
  obtain ⟨e, he, hcontent⟩ := child_of_element hparent hall hn htag h hfew what
  exact ⟨e, he, rest, hcontent⟩

theorem child_of_oid {oid : Oid} (hparent : Begins parent children) (hall : ∀ c ∈ children, WellFormed c)
    (hn : children[n]? = some bytes) (h : IsOid oid bytes) (hs : oid.Small) (hfew : n ≤ kMaxSkippedSiblings)
    (what : String) : ∃ e, child parent n kTagOid what = .ok e ∧ oidOf e = .ok oid.dotted := by
  obtain ⟨e, he, hcontent⟩ := child_of_element hparent hall hn ⟨by decide, by decide⟩ h hfew what
  exact ⟨e, he, decodeOid_eq hs hcontent⟩

theorem IsOid.wellFormed {oid : Oid} (h : IsOid oid bytes) : WellFormed bytes := ⟨_, _, ⟨by decide, by decide⟩, h⟩

theorem IsTyped.wellFormed {type : Oid} {IsValue : List UInt8 → Prop} (h : IsTyped type IsValue bytes) :
    WellFormed bytes := by
  obtain ⟨_, _, _, -, -, -, h⟩ := h
  exact h.wellFormed ⟨by decide, by decide⟩

theorem IsDigestInfo.wellFormed {algorithm : Oid} {digest : List UInt8} (h : IsDigestInfo algorithm digest bytes) :
    WellFormed bytes := by
  obtain ⟨_, _, -, -, h⟩ := h
  exact h.wellFormed ⟨by decide, by decide⟩

theorem signedDataOid_small : signedDataOid.Small := ⟨by decide, by decide⟩

theorem indirectDataOid_small : indirectDataOid.Small := ⟨by decide, by decide⟩

theorem walk_eq {algorithm : Oid} {digest : List UInt8} (h : IsContentInfo algorithm digest bytes)
    (hs : algorithm.Small) : walk (bytes ++ after) = .ok (algorithm.dotted, digest) := by
  obtain ⟨contentType, signedBytes, signedTagged, hcontentType, hsigned, hsignedTagged, rest, hcontentInfo⟩ := h
  obtain ⟨version, algorithms, inner, ⟨number, hversion⟩, ⟨members, halgorithms⟩, hinner, hsignedData⟩ := hsigned
  have hinnerFormed := hinner.wellFormed
  obtain ⟨innerType, dataBytes, dataTagged, hinnerType, hdataBytes, hdataTagged, hinner⟩ := hinner
  obtain ⟨first, info, hfirst, hinfo, hdata⟩ := hdataBytes
  have hinfoFormed := hinfo.wellFormed
  obtain ⟨algorithmBytes, digestBytes, ⟨identifier, hidentifier, halgorithm⟩, hdigest, hinfo⟩ := hinfo
  -- the outer element, then the two members of each typed sequence
  have hinfoElement : readElement ⟨bytes ++ after, DigestField.kFormat, "the signature"⟩ 0 = .ok _ :=
    readElement_eq ⟨by decide, by decide⟩ hcontentInfo (by simp : _ = [] ++ bytes ++ after)
  have hbegins : Begins ⟨kTagSequence, ⟨[contentType, signedTagged].flatten ++ rest, DigestField.kFormat, "element"⟩,
      bytes.length⟩ [contentType, signedTagged] := ⟨rest, rfl⟩
  have houter : ∀ c ∈ [contentType, signedTagged], WellFormed c := by
    simp [hcontentType.wellFormed, hsignedTagged.wellFormed ⟨by decide, by decide⟩]
  obtain ⟨e₁, he₁, hoid₁⟩ := child_of_oid hbegins houter rfl hcontentType signedDataOid_small (Nat.zero_le _) "content type"
  obtain ⟨e₂, he₂, hb₂⟩ := child_of_holds hbegins houter rfl ⟨by decide, by decide⟩ hsignedTagged
    (by decide : 1 ≤ kMaxSkippedSiblings) "signed data"
  obtain ⟨e₃, he₃, hb₃⟩ := child_of_holds hb₂ (by simp [hsignedData.wellFormed ⟨by decide, by decide⟩]) rfl
    ⟨by decide, by decide⟩ hsignedData (Nat.zero_le _) "signed data body"
  have hmembers : ∀ c ∈ [version, algorithms, inner], WellFormed c := by
    simp only [List.forall_mem_cons, List.not_mem_nil, false_imp_iff, implies_true, and_true]
    exact ⟨⟨_, _, ⟨by decide, by decide⟩, hversion⟩, ⟨_, _, ⟨by decide, by decide⟩, halgorithms⟩, hinnerFormed⟩
  obtain ⟨e₄, he₄, -⟩ := child_of_element hb₃ hmembers rfl ⟨by decide, by decide⟩ hversion (Nat.zero_le _)
    "signed data version"
  obtain ⟨e₅, he₅, -⟩ := child_of_element hb₃ hmembers rfl ⟨by decide, by decide⟩ halgorithms
    (by decide : 1 ≤ kMaxSkippedSiblings) "digest algorithms"
  obtain ⟨e₆, he₆, hb₆⟩ := child_of_holds hb₃ hmembers rfl ⟨by decide, by decide⟩ hinner
    (by decide : 2 ≤ kMaxSkippedSiblings) "signed content"
  have htyped : ∀ c ∈ [innerType, dataTagged], WellFormed c := by
    simp [hinnerType.wellFormed, hdataTagged.wellFormed ⟨by decide, by decide⟩]
  obtain ⟨e₇, he₇, hoid₇⟩ := child_of_oid hb₆ htyped rfl hinnerType indirectDataOid_small (Nat.zero_le _)
    "signed content type"
  obtain ⟨e₈, he₈, hb₈⟩ := child_of_holds hb₆ htyped rfl ⟨by decide, by decide⟩ hdataTagged
    (by decide : 1 ≤ kMaxSkippedSiblings) "indirect data"
  obtain ⟨e₉, he₉, hb₉⟩ := child_of_holds hb₈ (by simp [hdata.wellFormed ⟨by decide, by decide⟩]) rfl
    ⟨by decide, by decide⟩ hdata (Nat.zero_le _) "indirect data body"
  -- the digest information and its two members
  obtain ⟨e₁₀, he₁₀, hb₁₀⟩ := child_of_holds hb₉ (by simp [hfirst, hinfoFormed]) rfl ⟨by decide, by decide⟩ hinfo
    (by decide : 1 ≤ kMaxSkippedSiblings) "digest information"
  have hfields : ∀ c ∈ [algorithmBytes, digestBytes], WellFormed c := by
    simp only [List.forall_mem_cons, List.not_mem_nil, false_imp_iff, implies_true, and_true]
    exact ⟨halgorithm.wellFormed ⟨by decide, by decide⟩, _, _, ⟨by decide, by decide⟩, hdigest⟩
  obtain ⟨e₁₁, he₁₁, hb₁₁⟩ := child_of_holds hb₁₀ hfields rfl ⟨by decide, by decide⟩ halgorithm (Nat.zero_le _)
    "digest algorithm"
  obtain ⟨e₁₂, he₁₂, hoid₁₂⟩ := child_of_oid hb₁₁ (by simp [hidentifier.wellFormed]) rfl hidentifier hs (Nat.zero_le _)
    "digest algorithm identifier"
  obtain ⟨e₁₃, he₁₃, hcontent⟩ := child_of_element hb₁₀ hfields rfl ⟨by decide, by decide⟩ hdigest
    (by decide : 1 ≤ kMaxSkippedSiblings) "digest"
  have hsignedDotted : signedDataOid.dotted = "1.2.840.113549.1.7.2" := rfl
  have hindirectDotted : indirectDataOid.dotted = "1.3.6.1.4.1.311.2.1.4" := rfl
  rw [walk, hinfoElement, ok_bind, rejectIf_of_not (by simp), ok_bind, he₁, ok_bind, hoid₁, ok_bind,
    rejectIf_of_not (by simp [hsignedDotted]), ok_bind, he₂, ok_bind, he₃, ok_bind, he₄, ok_bind, he₅, ok_bind, he₆,
    ok_bind, he₇, ok_bind, hoid₇, ok_bind, rejectIf_of_not (by simp [hindirectDotted]), ok_bind, he₈, ok_bind, he₉,
    ok_bind, he₁₀, ok_bind, he₁₁, ok_bind, he₁₂, ok_bind, hoid₁₂, ok_bind, he₁₃, ok_bind, hcontent]
  rfl

/-- The reader gives back the algorithm and the digest that any encoding holds. -/
theorem digest_field_recovered {algorithm : Oid} {digest : List UInt8} (h : IsContentInfo algorithm digest bytes)
    (hs : algorithm.Small) : readAuthenticodeDigestField (bytes ++ after) =
      { readable := true, algorithm := algorithm.dotted, digest } := by
  rw [readAuthenticodeDigestField, walk_eq h hs]

def sha256Oid : Oid := ⟨2, 16, [840, 1, 101, 3, 4, 2, 1], by decide, by decide⟩

theorem sha256Oid_small : sha256Oid.Small := ⟨by decide, by decide⟩

def shortElement (tag : Nat) (content : List UInt8) : List UInt8 :=
  UInt8.ofNat tag :: ([UInt8.ofNat content.length] ++ content)

theorem isElement_short (h : content.length < 0x80) : IsElement tag content (shortElement tag content) :=
  ⟨_, .short h, rfl⟩

theorem holds_short (h : children.flatten.length < 0x80) : Holds tag children (shortElement tag children.flatten) := by
  refine ⟨[], ?_⟩
  rw [List.append_nil]
  exact isElement_short h

def sampleAlgorithm : List UInt8 := shortElement kTagSequence [shortElement kTagOid sha256Oid.encoded].flatten

def sampleInfo (digest : List UInt8) : List UInt8 :=
  shortElement kTagSequence [sampleAlgorithm, shortElement kTagOctetString digest].flatten

def sampleData (digest : List UInt8) : List UInt8 := shortElement kTagSequence [shortElement 0x05 [], sampleInfo digest].flatten

def sampleContent (digest : List UInt8) : List UInt8 :=
  shortElement kTagSequence
    [shortElement kTagOid indirectDataOid.encoded, shortElement kTagContext0 [sampleData digest].flatten].flatten

def sampleSignedData (digest : List UInt8) : List UInt8 :=
  shortElement kTagSequence [shortElement kTagInteger [1], shortElement kTagSet [], sampleContent digest].flatten

def sampleMembers (digest : List UInt8) : List (List UInt8) :=
  [shortElement kTagOid signedDataOid.encoded, shortElement kTagContext0 [sampleSignedData digest].flatten]

/-- The length of the outer element takes four bytes, and something follows the members. -/
def sampleSignature (digest : List UInt8) : List UInt8 :=
  UInt8.ofNat kTagSequence :: ((UInt8.ofNat (0x80 + 4) :: beBytes 4 ((sampleMembers digest).flatten ++ [9]).length) ++
    ((sampleMembers digest).flatten ++ [9]))

theorem sampleSignature_recovered : readAuthenticodeDigestField (sampleSignature (List.replicate 32 7) ++ [0, 0]) =
    { readable := true, algorithm := "2.16.840.1.101.3.4.2.1", digest := List.replicate 32 7 } := by
  have hinfo : IsDigestInfo sha256Oid (List.replicate 32 7) (sampleInfo _) :=
    ⟨_, _, ⟨_, isElement_short (by decide), holds_short (by decide)⟩, isElement_short (by decide), holds_short (by decide)⟩
  have hdata : IsIndirectData sha256Oid (List.replicate 32 7) (sampleData _) :=
    ⟨_, _, ⟨0x05, [], ⟨by decide, by decide⟩, isElement_short (by decide)⟩, hinfo, holds_short (by decide)⟩
  have hcontent : IsTyped indirectDataOid (IsIndirectData sha256Oid (List.replicate 32 7)) (sampleContent _) :=
    ⟨_, _, _, isElement_short (by decide), hdata, holds_short (by decide), holds_short (by decide)⟩
  have hsigned : IsSignedData sha256Oid (List.replicate 32 7) (sampleSignedData _) :=
    ⟨_, _, _, ⟨_, isElement_short (by decide)⟩, ⟨_, isElement_short (by decide)⟩, hcontent, holds_short (by decide)⟩
  have hlength : ((sampleMembers (List.replicate 32 7)).flatten ++ [9]).length < 256 ^ 4 := by decide
  exact digest_field_recovered ⟨_, _, _, isElement_short (by decide), hsigned, holds_short (by decide), [9], _,
    .long (by decide) (by decide) hlength, rfl⟩ sha256Oid_small

end TheSeed.DigestEncoding
