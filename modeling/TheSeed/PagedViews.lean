import Mathlib.Data.List.Forall2
import TheSeed.PagedFile

namespace TheSeed.PagedViews

open Bytes Checked BoundedBytes PagedFile

/-! Views of a file that is read in pages, beside views of the same bytes in memory. -/

def kScanStep : Nat := 4096

variable {file : List UInt8}

/-- A `ByteSpan` of a part of a paged file. -/
structure PagedSpan (file : List UInt8) where
  base : Nat
  size : Nat
  format : String
  scope : String
  inside : base + size ≤ file.length

namespace PagedSpan

def whole (file : List UInt8) (format scope : String) : PagedSpan file where
  base := 0
  size := file.length
  format
  scope
  inside := by rw [Nat.zero_add]

/-- `At` -/
def bytesAt (span : PagedSpan file) (offset length : Nat) (pages : Pages) : List UInt8 × Pages :=
  ensure file (span.base + offset) length pages

def read (span : PagedSpan file) (width offset : Nat) (order : ByteOrder) (field : String) (pages : Pages) :
    Outcome Nat × Pages :=
  if rangeFits offset width span.size then
    let found := span.bytesAt offset width pages
    (.ok (order.value found.1), found.2)
  else (throwMalformed span.format (pastTheEnd field offset span.scope span.size), pages)

/-- No page is read. -/
def sub (span : PagedSpan file) (offset length : Nat) (structureName : String) : Outcome (PagedSpan file) :=
  if h : rangeFits offset length span.size then
    .ok { base := span.base + offset, size := length, format := span.format, scope := structureName
          inside := by
            have hfits := rangeFits_iff.1 h
            have hinside := span.inside
            omega }
  else
    throwMalformed span.format (structurePastTheEnd structureName offset length span.scope span.size)

/-- The text before the first NUL of the `limit` bytes from `offset` on, looked for a step at a time. The first
argument bounds the number of steps. -/
def scanSteps (span : PagedSpan file) (offset limit : Nat) : Nat → Nat → List UInt8 → Pages →
    Option (List UInt8) × Pages
  | 0, _, _, pages => (none, pages)
  | steps + 1, done, text, pages =>
      if done < limit then
        let step := min (limit - done) kScanStep
        let found := span.bytesAt (offset + done) step pages
        match found.1.findIdx? (· == 0) with
        | some i => (some (text ++ found.1.take i), found.2)
        | none => scanSteps span offset limit steps (done + step) (text ++ found.1) found.2
      else (none, pages)

def cString (span : PagedSpan file) (offset maxLength : Nat) (structureName : String) (pages : Pages) :
    Outcome (List UInt8) × Pages :=
  if span.size ≤ offset then
    (throwMalformed span.format
      (structureName ++ " at offset " ++ toString offset ++ " is outside " ++ span.scope ++ " (" ++
        toString span.size ++ " bytes)"), pages)
  else
    let available := span.size - offset
    let limit := if maxLength < available then maxLength else available
    let found := span.scanSteps offset limit limit 0 [] pages
    match found.1 with
    | some text => (.ok text, found.2)
    | none =>
        if limit = maxLength ∧ maxLength < available then
          (throwMalformed span.format
            (structureName ++ " at offset " ++ toString offset ++ " is longer than " ++ toString maxLength ++
              " bytes"), found.2)
        else
          (throwMalformed span.format
            (structureName ++ " at offset " ++ toString offset ++ " is unterminated before the end of " ++
              span.scope ++ " (" ++ toString span.size ++ " bytes)"), found.2)

def data (span : PagedSpan file) (pages : Pages) : List UInt8 × Pages := span.bytesAt 0 span.size pages

end PagedSpan

/-! Sequences of operations -/

inductive Call
  | sub (offset length : Nat) (structureName : String)
  | read (width offset : Nat) (order : ByteOrder) (field : String)
  | cString (offset maxLength : Nat) (structureName : String)
  | data
  | size

/-- A new view of the whole file, or a call on a view made before. -/
inductive Operation
  | whole (format scope : String)
  | call (view : Nat) (call : Call)

/-- What an operation returns; of a view, what it says of itself. -/
inductive Returned
  | view (size : Nat) (format scope : String)
  | number (value : Nat)
  | bytes (value : List UInt8)
  deriving DecidableEq

/-- The result of an operation; none when the view was never made. -/
abbrev Answer := Option (Outcome Returned)

def callMemory (view : ByteSpan) (views : List ByteSpan) : Call → Answer × List ByteSpan
  | .sub offset length structureName =>
      match view.sub offset length structureName with
      | .ok made => (some (.ok (.view made.size made.format made.scope)), views ++ [made])
      | .error what => (some (.error what), views)
  | .read width offset order field => (some ((view.read width offset order field).map .number), views)
  | .cString offset maxLength structureName =>
      (some ((view.cString offset maxLength structureName).map .bytes), views)
  | .data => (some (.ok (.bytes view.bytes)), views)
  | .size => (some (.ok (.number view.size)), views)

def stepMemory (file : List UInt8) (views : List ByteSpan) : Operation → Answer × List ByteSpan
  | .whole format scope =>
      (some (.ok (.view file.length format scope)), views ++ [{ bytes := file, format, scope }])
  | .call view call =>
      match views[view]? with
      | none => (none, views)
      | some view => callMemory view views call

def runMemory (file : List UInt8) : List ByteSpan → List Operation → List Answer
  | _, [] => []
  | views, operation :: rest =>
      let stepped := stepMemory file views operation
      stepped.1 :: runMemory file stepped.2 rest

/-- The views made so far, with the pages of their file. -/
structure Paged (file : List UInt8) where
  views : List (PagedSpan file) := []
  pages : Pages := .none

def callPaged (view : PagedSpan file) (s : Paged file) : Call → Answer × Paged file
  | .sub offset length structureName =>
      match view.sub offset length structureName with
      | .ok made => (some (.ok (.view made.size made.format made.scope)), { s with views := s.views ++ [made] })
      | .error what => (some (.error what), s)
  | .read width offset order field =>
      let found := view.read width offset order field s.pages
      (some (found.1.map .number), { s with pages := found.2 })
  | .cString offset maxLength structureName =>
      let found := view.cString offset maxLength structureName s.pages
      (some (found.1.map .bytes), { s with pages := found.2 })
  | .data =>
      let found := view.data s.pages
      (some (.ok (.bytes found.1)), { s with pages := found.2 })
  | .size => (some (.ok (.number view.size)), s)

def stepPaged (s : Paged file) : Operation → Answer × Paged file
  | .whole format scope =>
      (some (.ok (.view file.length format scope)), { s with views := s.views ++ [.whole file format scope] })
  | .call view call =>
      match s.views[view]? with
      | none => (none, s)
      | some view => callPaged view s call

def runPaged : Paged file → List Operation → List Answer
  | _, [] => []
  | s, operation :: rest =>
      let stepped := stepPaged s operation
      stepped.1 :: runPaged stepped.2 rest

/-! The simulation -/

variable {span : PagedSpan file} {memory : ByteSpan} {pages : Pages} {offset length : Nat}

/-- A paged view and a view in memory of one range. -/
structure Same (span : PagedSpan file) (memory : ByteSpan) : Prop where
  bytes : memory.bytes = slice file span.base span.size
  format : memory.format = span.format
  scope : memory.scope = span.scope

theorem Same.size (h : Same span memory) : memory.size = span.size := by
  rw [ByteSpan.size, h.bytes, length_slice_of_le span.inside]

/-- The bytes a paged view fetches are those of the view in memory. -/
theorem Same.fetched (h : Same span memory) (hs : Sound file pages) (hfits : offset + length ≤ span.size) :
    (span.bytesAt offset length pages).1 = slice memory.bytes offset length ∧
      Sound file (span.bytesAt offset length pages).2 := by
  obtain ⟨hbytes, hsound⟩ := ensure_sound hs (span.base + offset) length
  refine ⟨?_, hsound⟩
  rw [h.bytes, slice_slice hfits]
  exact hbytes

theorem Same.read (h : Same span memory) (hs : Sound file pages) (width offset : Nat) (order : ByteOrder)
    (field : String) : (span.read width offset order field pages).1 = memory.read width offset order field ∧
      Sound file (span.read width offset order field pages).2 := by
  rw [PagedSpan.read, ByteSpan.read, h.size, h.format, h.scope]
  by_cases hfits : rangeFits offset width span.size = true
  · obtain ⟨hbytes, hsound⟩ := h.fetched hs (rangeFits_iff.1 hfits)
    rw [if_pos hfits, if_pos hfits]
    exact ⟨by simp only [hbytes], hsound⟩
  · rw [if_neg hfits, if_neg hfits]
    exact ⟨rfl, hs⟩

/-- The text before the first NUL, of bytes that have none and bytes that have one. -/
theorem text_of_findIdx? {text bs rest : List UInt8} {i : Nat} (htext : 0 ∉ text)
    (h : bs.findIdx? (· == 0) = some i) :
    0 ∈ text ++ bs ++ rest ∧ (text ++ bs ++ rest).takeWhile (fun b => b != 0) = text ++ bs.take i := by
  obtain ⟨hlt, hi⟩ := List.findIdx?_eq_some_iff_findIdx_eq.1 h
  have hzero : bs[i] = 0 := by
    have hfound := List.findIdx?_eq_some_iff_getElem.1 h
    obtain ⟨_, hhere, -⟩ := hfound
    exact eq_of_beq hhere
  have hall : ∀ b ∈ text, (b != 0) = true := by
    intro b hb
    rw [bne_iff_ne]
    rintro rfl
    exact htext hb
  have hwhole : (bs ++ rest).findIdx? (· == 0) = some i := by
    rw [List.findIdx?_append, h]
    rfl
  refine ⟨?_, ?_⟩
  · rw [← hzero]
    simp
  · have hidx := (List.findIdx?_eq_some_iff_findIdx_eq.1 hwhole).2
    rw [List.append_assoc, List.takeWhile_append_of_pos hall, List.takeWhile_eq_take_findIdx_not]
    simp only [bne, Bool.not_not]
    rw [hidx, List.take_append_of_le_length hlt.le]

/-- What the scan finds from the bytes before `done` on, none of which is NUL. -/
theorem Same.scan (h : Same span memory) {limit : Nat} (hfits : offset + limit ≤ span.size) :
    ∀ (steps done : Nat) (pages : Pages), Sound file pages → done ≤ limit → limit - done ≤ steps →
      0 ∉ slice memory.bytes offset done →
        (span.scanSteps offset limit steps done (slice memory.bytes offset done) pages).1 =
            (if 0 ∈ slice memory.bytes offset limit then
              some ((slice memory.bytes offset limit).takeWhile fun b => b != 0) else none) ∧
          Sound file (span.scanSteps offset limit steps done (slice memory.bytes offset done) pages).2
  | steps, done, pages, hs, hle, hmany, hnone => by
      by_cases hmore : done < limit
      swap
      · have hend : done = limit := le_antisymm hle (not_lt.1 hmore)
        subst hend
        rw [if_neg hnone]
        cases steps with
        | zero => exact ⟨rfl, hs⟩
        | succ steps =>
            rw [PagedSpan.scanSteps, if_neg hmore]
            exact ⟨rfl, hs⟩
      cases steps with
      | zero => omega
      | succ steps =>
          have hstep : 0 < min (limit - done) kScanStep := lt_min (by omega) (by decide)
          have hin : offset + done + min (limit - done) kScanStep ≤ span.size := by omega
          obtain ⟨hbytes, hsound⟩ := h.fetched hs hin
          have hnext := slice_append_slice memory.bytes offset done (min (limit - done) kScanStep)
          rw [PagedSpan.scanSteps, if_pos hmore]
          simp only [hbytes]
          cases hfound : (slice memory.bytes (offset + done) (min (limit - done) kScanStep)).findIdx? (· == 0) with
          | some i =>
              have hrest := slice_append_slice memory.bytes offset (done + min (limit - done) kScanStep)
                (limit - (done + min (limit - done) kScanStep))
              rw [Nat.add_sub_cancel' (by omega), ← hnext] at hrest
              obtain ⟨hmem, htext⟩ := text_of_findIdx? hnone hfound
              rw [← hrest, if_pos hmem, htext]
              exact ⟨rfl, hsound⟩
          | none =>
              rw [hnext]
              refine h.scan hfits steps _ _ hsound (by omega) (by omega) ?_
              rw [← hnext, List.mem_append, not_or]
              refine ⟨hnone, fun hmem => ?_⟩
              exact absurd rfl (beq_eq_false_iff_ne.1 (List.findIdx?_eq_none_iff.1 hfound 0 hmem))

theorem Same.cString (h : Same span memory) (hs : Sound file pages) (offset maxLength : Nat) (structureName : String) :
    (span.cString offset maxLength structureName pages).1 = memory.cString offset maxLength structureName ∧
      Sound file (span.cString offset maxLength structureName pages).2 := by
  rw [PagedSpan.cString, ByteSpan.cString, h.size, h.format, h.scope]
  by_cases hout : span.size ≤ offset
  · rw [if_pos hout, rejectIf, if_pos hout]
    exact ⟨rfl, hs⟩
  · rw [if_neg hout, rejectIf, if_neg hout, ok_bind]
    simp only
    generalize hlimit : (if maxLength < span.size - offset then maxLength else span.size - offset) = limit
    have hfits : offset + limit ≤ span.size := by
      rw [← hlimit]
      split <;> omega
    have hempty : slice memory.bytes offset 0 = [] := slice_zero_length _ _
    obtain ⟨hscan, hsound⟩ := h.scan hfits limit 0 pages hs (Nat.zero_le _) le_rfl (by simp [hempty])
    rw [hempty] at hscan hsound
    rw [hscan]
    by_cases hnul : 0 ∈ slice memory.bytes offset limit
    · simp only [if_pos hnul]
      exact ⟨rfl, hsound⟩
    · simp only [if_neg hnul, rejectIf]
      by_cases hlong : limit = maxLength ∧ maxLength < span.size - offset
      · simp only [if_pos hlong]
        exact ⟨rfl, hsound⟩
      · simp only [if_neg hlong]
        exact ⟨rfl, hsound⟩

theorem Same.data (h : Same span memory) (hs : Sound file pages) :
    (span.data pages).1 = memory.bytes ∧ Sound file (span.data pages).2 := by
  obtain ⟨hbytes, hsound⟩ := @Same.fetched file span memory pages 0 span.size h hs (by omega)
  refine ⟨?_, hsound⟩
  rw [PagedSpan.data, hbytes, ← h.size]
  exact slice_all memory.bytes

theorem Same.whole (file : List UInt8) (format scope : String) :
    Same (PagedSpan.whole file format scope) { bytes := file, format, scope } :=
  ⟨(slice_all file).symm, rfl, rfl⟩

/-- A part of a view is a view of that part, or both refuse it with one text. -/
theorem Same.sub (h : Same span memory) (offset length : Nat) (structureName : String) :
    (∃ part partInMemory, span.sub offset length structureName = .ok part ∧
      memory.sub offset length structureName = .ok partInMemory ∧ Same part partInMemory) ∨
    ∃ what, span.sub offset length structureName = .error what ∧ memory.sub offset length structureName = .error what := by
  rw [PagedSpan.sub, ByteSpan.sub, h.size, h.format, h.scope]
  by_cases hfits : rangeFits offset length span.size = true
  · left
    rw [dif_pos hfits, if_pos hfits]
    refine ⟨_, _, rfl, rfl, ?_, rfl, rfl⟩
    rw [h.bytes, slice_slice (rangeFits_iff.1 hfits)]
  · right
    rw [dif_neg hfits, if_neg hfits]
    exact ⟨_, rfl, rfl⟩

/-- The views made so far are the same, and every page read holds the bytes of the file. -/
structure Alike (s : Paged file) (views : List ByteSpan) : Prop where
  views : List.Forall₂ Same s.views views
  pages : Sound file s.pages

variable {s : Paged file} {views : List ByteSpan}

theorem Alike.add (ha : Alike s views) (h : Same span memory) :
    Alike { s with views := s.views ++ [span] } (views ++ [memory]) :=
  ⟨List.rel_append ha.views (.cons h .nil), ha.pages⟩

/-- One call gives one answer on both sides and keeps them alike. -/
theorem Alike.call (ha : Alike s views) (h : Same span memory) (call : Call) :
    (callPaged span s call).1 = (callMemory memory views call).1 ∧
      Alike (callPaged span s call).2 (callMemory memory views call).2 := by
  cases call with
  | sub offset length structureName =>
      rw [callPaged, callMemory]
      obtain ⟨part, partInMemory, hpart, hmemory, hsame⟩ | ⟨what, hpart, hmemory⟩ := h.sub offset length structureName
      · rw [hpart, hmemory]
        refine ⟨?_, ha.add hsame⟩
        simp only [hsame.size, hsame.format, hsame.scope]
      · rw [hpart, hmemory]
        exact ⟨rfl, ha⟩
  | read width offset order field =>
      obtain ⟨hread, hsound⟩ := h.read ha.pages width offset order field
      rw [callPaged, callMemory]
      simp only [hread]
      exact ⟨trivial, ha.views, hsound⟩
  | cString offset maxLength structureName =>
      obtain ⟨htext, hsound⟩ := h.cString ha.pages offset maxLength structureName
      rw [callPaged, callMemory]
      simp only [htext]
      exact ⟨trivial, ha.views, hsound⟩
  | data =>
      obtain ⟨hbytes, hsound⟩ := h.data ha.pages
      rw [callPaged, callMemory]
      simp only [hbytes]
      exact ⟨trivial, ha.views, hsound⟩
  | size =>
      rw [callPaged, callMemory]
      simp only [h.size]
      exact ⟨trivial, ha⟩

theorem Alike.step (ha : Alike s views) (operation : Operation) :
    (stepPaged s operation).1 = (stepMemory file views operation).1 ∧
      Alike (stepPaged s operation).2 (stepMemory file views operation).2 := by
  cases operation with
  | whole format scope => exact ⟨rfl, ha.add (Same.whole file format scope)⟩
  | call view call =>
      rw [stepPaged, stepMemory]
      cases hspan : s.views[view]? with
      | none =>
          have hshort : views.length ≤ view := ha.views.length_eq ▸ List.getElem?_eq_none_iff.1 hspan
          rw [List.getElem?_eq_none hshort]
          exact ⟨rfl, ha⟩
      | some span =>
          obtain ⟨memory, hmemory, hsame⟩ := forall₂_getElem? ha.views hspan
          rw [hmemory]
          exact ha.call hsame call

theorem Alike.run (ha : Alike s views) (operations : List Operation) :
    runPaged s operations = runMemory file views operations := by
  induction operations generalizing s views with
  | nil => rfl
  | cons operation rest ih =>
      obtain ⟨hanswer, hnext⟩ := ha.step operation
      rw [runPaged, runMemory]
      simp only [hanswer, ih hnext]

/-- Any sequence of operations gives the same answers on a file that is read in pages as on its bytes in memory. -/
theorem paged_indistinguishable (file : List UInt8) (operations : List Operation) :
    runPaged ({} : Paged file) operations = runMemory file [] operations :=
  Alike.run ⟨.nil, Sound.none file⟩ operations

end TheSeed.PagedViews
