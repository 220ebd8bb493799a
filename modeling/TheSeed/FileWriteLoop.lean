import TheSeed.FileReplaceRuns

namespace TheSeed.FileWriteLoop

open FileReplace

/-! The loops that fill the working file, on each platform, under every behaviour of the write hook. -/

/-- What a write call reports. It writes no more than it is offered. -/
inductive Answer (offered : Nat)
  | wrote (count : Nat) (h : count ≤ offered)
  | failed (code : Nat)

/-- The answers of the calls of one loop, by the number of the call and the bytes it offers. -/
abbrev Hook := Nat → (offered : Nat) → Answer offered

structure Filling where
  offset : Nat := 0
  /-- the bytes that the working file holds -/
  file : List UInt8 := []
  /-- the calls made so far -/
  calls : Nat := 0
  deriving DecidableEq

/-- One round of a loop. -/
inductive Turn
  | again (s : Filling)
  | left (s : Filling)
  | threw (text : String)
  deriving DecidableEq

inductive Platform
  | posix
  | windows
  deriving DecidableEq

/-- The state behind a call that wrote the first `count` bytes that were left. -/
def Filling.wrote (s : Filling) (c : Call) (count : Nat) : Filling :=
  ⟨s.offset + count, s.file ++ (c.bytes.drop s.offset).take count, s.calls + 1⟩

def posixTurn (c : Call) (hook : Hook) (s : Filling) : Turn :=
  if s.offset < c.bytes.length then
    match hook s.calls (c.bytes.length - s.offset) with
    | .failed code =>
        if code = EINTR then .again { s with calls := s.calls + 1 } else .threw (failText c "Unable to write" code)
    | .wrote count _ => if count = 0 then .threw (failText c "Unable to write" ENOSPC) else .again (s.wrote c count)
  else .left s

/-- No call offers more than this. -/
def kChunk : Nat := 0x40000000

def windowsTurn (c : Call) (hook : Hook) (s : Filling) : Turn :=
  if s.offset < c.bytes.length then
    match hook s.calls (min (c.bytes.length - s.offset) kChunk) with
    | .failed code => .threw (failText c "Unable to write" code)
    | .wrote count _ => .again (s.wrote c count)
  else .left s

def turn : Platform → Call → Hook → Filling → Turn
  | .posix => posixTurn
  | .windows => windowsTurn

/-- What a call offers when so many bytes are left. -/
def offered : Platform → Nat → Nat
  | .posix, rest => rest
  | .windows, rest => min rest kChunk

/-- The loop: the state it is left with, or the text it throws. -/
def fill (platform : Platform) (c : Call) (hook : Hook) : Nat → Filling → Option (Except String Filling)
  | 0, _ => none
  | fuel + 1, s =>
      match turn platform c hook s with
      | .again s => fill platform c hook fuel s
      | .left s => some (.ok s)
      | .threw text => some (.error text)

/-- Interruptions are not reported forever. -/
def Interrupts (hook : Hook) : Prop := ∀ i offered, ∃ j, i ≤ j ∧ hook j offered ≠ .failed EINTR

/-- The states that the loop comes to. -/
inductive Reached (platform : Platform) (c : Call) (hook : Hook) : Filling → Prop
  | start : Reached platform c hook {}
  | again {s after : Filling} : Reached platform c hook s → turn platform c hook s = .again after →
      Reached platform c hook after

/-- What the next call of the loop reports. -/
def answer (platform : Platform) (c : Call) (hook : Hook) (s : Filling) :
    Answer (offered platform (c.bytes.length - s.offset)) :=
  hook s.calls (offered platform (c.bytes.length - s.offset))

/-- No call of the loop reports a success that wrote nothing. -/
def NoEmptySuccess (platform : Platform) (c : Call) (hook : Hook) : Prop :=
  ∀ s, Reached platform c hook s → s.offset < c.bytes.length → ∀ h, answer platform c hook s ≠ .wrote 0 h

/-- The loop ends; each call that reports a success advances the offset or ends the loop with an exception; and when
the loop is left the working file holds the bytes. -/
structure Fills (platform : Platform) (c : Call) (hook : Hook) : Prop where
  ends : ∃ fuel outcome, fill platform c hook fuel {} = some outcome
  advances : ∀ s, Reached platform c hook s → s.offset < c.bytes.length →
    ∀ count h, answer platform c hook s = .wrote count h →
      (∃ text, turn platform c hook s = .threw text) ∨
        ∃ after, turn platform c hook s = .again after ∧ s.offset < after.offset
  holds : ∀ fuel s, fill platform c hook fuel {} = some (.ok s) → s.file = c.bytes

variable {platform : Platform} {c : Call} {hook : Hook} {s after : Filling}

/-- All that one round of a loop can do. -/
theorem turn_cases (platform : Platform) (c : Call) (hook : Hook) (s : Filling) :
    c.bytes.length ≤ s.offset ∧ turn platform c hook s = .left s ∨
    s.offset < c.bytes.length ∧
      ((∃ code text, answer platform c hook s = .failed code ∧ turn platform c hook s = .threw text) ∨
        answer platform c hook s = .failed EINTR ∧ turn platform c hook s = .again { s with calls := s.calls + 1 } ∨
        (∃ text h, platform = .posix ∧ answer platform c hook s = .wrote 0 h ∧
          turn platform c hook s = .threw text) ∨
        ∃ count h, (platform = .posix → count ≠ 0) ∧ answer platform c hook s = .wrote count h ∧
          turn platform c hook s = .again (s.wrote c count)) := by
  by_cases hmore : s.offset < c.bytes.length
  · refine .inr ⟨hmore, ?_⟩
    cases platform with
    | posix =>
      have hturn : turn .posix c hook s =
          match answer .posix c hook s with
          | .failed code =>
              if code = EINTR then .again { s with calls := s.calls + 1 } else .threw (failText c "Unable to write" code)
          | .wrote count _ =>
              if count = 0 then .threw (failText c "Unable to write" ENOSPC) else .again (s.wrote c count) := if_pos hmore
      cases hanswer : answer .posix c hook s with
      | failed code =>
        simp only [hanswer] at hturn
        by_cases hint : code = EINTR
        · subst hint
          exact .inr (.inl ⟨rfl, hturn.trans (if_pos rfl)⟩)
        · exact .inl ⟨code, _, rfl, hturn.trans (if_neg hint)⟩
      | wrote count h =>
        simp only [hanswer] at hturn
        by_cases hzero : count = 0
        · subst hzero
          exact .inr (.inr (.inl ⟨_, h, rfl, rfl, hturn.trans (if_pos rfl)⟩))
        · exact .inr (.inr (.inr ⟨count, h, fun _ => hzero, rfl, hturn.trans (if_neg hzero)⟩))
    | windows =>
      have hturn : turn .windows c hook s =
          match answer .windows c hook s with
          | .failed code => .threw (failText c "Unable to write" code)
          | .wrote count _ => .again (s.wrote c count) := if_pos hmore
      cases hanswer : answer .windows c hook s with
      | failed code =>
        simp only [hanswer] at hturn
        exact .inl ⟨code, _, rfl, hturn⟩
      | wrote count h =>
        simp only [hanswer] at hturn
        exact .inr (.inr (.inr ⟨count, h, by simp, rfl, hturn⟩))
  · refine .inl ⟨Nat.le_of_not_lt hmore, ?_⟩
    cases platform <;> exact if_neg hmore

theorem offered_le (platform : Platform) (rest : Nat) : offered platform rest ≤ rest := by
  cases platform with
  | posix => exact Nat.le_refl rest
  | windows => exact Nat.min_le_left rest kChunk

/-- The working file holds the bytes before the offset. -/
structure Holds (c : Call) (s : Filling) : Prop where
  file : s.file = c.bytes.take s.offset
  offset : s.offset ≤ c.bytes.length

theorem holds_turn (h : Holds c s) (hturn : turn platform c hook s = .again after) : Holds c after := by
  obtain ⟨-, hleft⟩ | ⟨hmore, ⟨_, _, -, hthrew⟩ | ⟨-, hagain⟩ | ⟨_, _, -, -, hthrew⟩ | ⟨count, hcount, -, -, hagain⟩⟩ :=
    turn_cases platform c hook s
  · rw [hleft] at hturn
    cases hturn
  · rw [hthrew] at hturn
    cases hturn
  · rw [hagain] at hturn
    cases hturn
    exact ⟨h.file, h.offset⟩
  · rw [hthrew] at hturn
    cases hturn
  · rw [hagain] at hturn
    cases hturn
    refine ⟨?_, ?_⟩
    · rw [Filling.wrote, h.file, List.take_add]
    · have hle := Nat.le_trans hcount (offered_le platform (c.bytes.length - s.offset))
      have hoffset := h.offset
      change s.offset + count ≤ c.bytes.length
      omega

theorem Reached.holds (h : Reached platform c hook s) : Holds c s := by
  induction h with
  | start => exact ⟨rfl, Nat.zero_le _⟩
  | again _ hturn ih => exact holds_turn ih hturn

theorem fill_holds (fuel : Nat) : ∀ {s left : Filling}, Reached platform c hook s →
    fill platform c hook fuel s = some (.ok left) → left.file = c.bytes := by
  induction fuel with
  | zero => exact fun _ h => nomatch h
  | succ fuel ih =>
    intro s left hs h
    unfold fill at h
    cases hturn : turn platform c hook s with
    | again after =>
      rw [hturn] at h
      exact ih (hs.again hturn) h
    | threw text =>
      rw [hturn] at h
      cases h
    | left final =>
      rw [hturn] at h
      cases h
      obtain ⟨hdone, hleft⟩ | ⟨-, ⟨_, _, -, hthrew⟩ | ⟨-, hagain⟩ | ⟨_, _, -, -, hthrew⟩ | ⟨_, _, -, -, hagain⟩⟩ :=
        turn_cases platform c hook s
      · rw [hturn] at hleft
        cases hleft
        rw [hs.holds.file, List.take_of_length_le hdone]
      · cases hturn.symm.trans hthrew
      · cases hturn.symm.trans hagain
      · cases hturn.symm.trans hthrew
      · cases hturn.symm.trans hagain

theorem fill_again (hturn : turn platform c hook s = .again after)
    (h : ∃ fuel outcome, fill platform c hook fuel after = some outcome) :
    ∃ fuel outcome, fill platform c hook fuel s = some outcome := by
  obtain ⟨fuel, outcome, hfill⟩ := h
  exact ⟨fuel + 1, outcome, by rw [fill, hturn]; exact hfill⟩

/-- Either the next call is interrupted, or the loop ends when it ends from every state with fewer bytes left. -/
theorem fill_or_interrupted (hempty : platform = .windows → NoEmptySuccess platform c hook)
    (hs : Reached platform c hook s)
    (hfewer : ∀ after, Reached platform c hook after → c.bytes.length - after.offset < c.bytes.length - s.offset →
      ∃ fuel outcome, fill platform c hook fuel after = some outcome) :
    (∃ fuel outcome, fill platform c hook fuel s = some outcome) ∨
      answer platform c hook s = .failed EINTR ∧ turn platform c hook s = .again { s with calls := s.calls + 1 } := by
  obtain ⟨-, hleft⟩ | ⟨hmore, ⟨_, _, -, hthrew⟩ | hint | ⟨_, _, -, -, hthrew⟩ |
    ⟨count, hcount, hposix, hwrote, hagain⟩⟩ := turn_cases platform c hook s
  · exact .inl ⟨1, _, by rw [fill, hleft]⟩
  · exact .inl ⟨1, _, by rw [fill, hthrew]⟩
  · exact .inr hint
  · exact .inl ⟨1, _, by rw [fill, hthrew]⟩
  · have hpos : count ≠ 0 := by
      cases platform with
      | posix => exact hposix rfl
      | windows =>
        rintro rfl
        exact hempty rfl s hs hmore hcount hwrote
    have hafter := hs.again hagain
    have hbound := hafter.holds.offset
    have hoffset : (s.wrote c count).offset = s.offset + count := rfl
    exact .inl (fill_again hagain (hfewer _ hafter (by omega)))

/-- By induction on the bytes that are left, and for each offset on the calls until one is not interrupted. -/
theorem fill_ends (hint : Interrupts hook) (hempty : platform = .windows → NoEmptySuccess platform c hook) (n : Nat) :
    ∀ s, Reached platform c hook s → c.bytes.length - s.offset = n →
      ∃ fuel outcome, fill platform c hook fuel s = some outcome := by
  induction n using Nat.strongRecOn with
  | ind n ih =>
    have hwait : ∀ d s, Reached platform c hook s → c.bytes.length - s.offset = n →
        hook (s.calls + d) (offered platform n) ≠ .failed EINTR →
        ∃ fuel outcome, fill platform c hook fuel s = some outcome := by
      intro d
      induction d with
      | zero =>
        intro s hs hn hanswer
        subst hn
        rcases fill_or_interrupted hempty hs (fun after hafter hless => ih _ hless after hafter rfl) with h | ⟨hstop, -⟩
        · exact h
        · exact absurd hstop hanswer
      | succ d ihd =>
        intro s hs hn hanswer
        rcases fill_or_interrupted hempty hs (fun after hafter hless => ih _ (hn ▸ hless) after hafter rfl) with
          h | ⟨-, hagain⟩
        · exact h
        · have hlater : s.calls + 1 + d = s.calls + (d + 1) := by omega
          exact fill_again hagain (ihd _ (hs.again hagain) hn (by rwa [hlater]))
    intro s hs hn
    obtain ⟨j, hj, hanswer⟩ := hint s.calls (offered platform n)
    obtain ⟨d, rfl⟩ := Nat.exists_eq_add_of_le hj
    exact hwait d s hs hn hanswer

theorem turn_wrote {count : Nat} {h : count ≤ offered platform (c.bytes.length - s.offset)}
    (hmore : s.offset < c.bytes.length) (hwrote : answer platform c hook s = .wrote count h) :
    (platform = .posix ∧ count = 0 ∧ ∃ text, turn platform c hook s = .threw text) ∨
      (platform = .posix → count ≠ 0) ∧ turn platform c hook s = .again (s.wrote c count) := by
  obtain ⟨hdone, -⟩ | ⟨-, ⟨_, _, hfailed, -⟩ | ⟨hfailed, -⟩ | ⟨_, _, hposix, hzero, hthrew⟩ |
    ⟨other, _, hposix, hother, hagain⟩⟩ := turn_cases platform c hook s
  · exact absurd hmore (Nat.not_lt.mpr hdone)
  · cases hwrote.symm.trans hfailed
  · cases hwrote.symm.trans hfailed
  · cases hwrote.symm.trans hzero
    exact .inl ⟨hposix, rfl, _, hthrew⟩
  · cases hwrote.symm.trans hother
    exact .inr ⟨hposix, hagain⟩

/-- The loops do what they are for, except that the one on Windows goes round again after a success without progress. -/
theorem fills_iff (platform : Platform) (c : Call) (hook : Hook) (hint : Interrupts hook) :
    Fills platform c hook ↔ (platform = .windows → NoEmptySuccess platform c hook) := by
  constructor
  · rintro h rfl s hs hmore hle hwrote
    obtain ⟨hposix, -⟩ | ⟨-, hsame⟩ := turn_wrote hmore hwrote
    · cases hposix
    · rcases h.advances s hs hmore 0 hle hwrote with ⟨text, hthrew⟩ | ⟨after, hagain, hless⟩
      · cases hsame.symm.trans hthrew
      · cases hsame.symm.trans hagain
        exact Nat.lt_irrefl _ hless
  · intro hempty
    refine ⟨fill_ends hint hempty _ _ .start rfl, fun s hs hmore count hle hwrote => ?_, fun fuel s h =>
      fill_holds fuel .start h⟩
    obtain ⟨-, -, hthrew⟩ | ⟨hposix, hagain⟩ := turn_wrote hmore hwrote
    · exact .inl hthrew
    · refine .inr ⟨_, hagain, Nat.lt_add_of_pos_right (Nat.pos_of_ne_zero ?_)⟩
      cases platform with
      | posix => exact hposix rfl
      | windows =>
        rintro rfl
        exact hempty rfl s hs hmore hle hwrote

def oneByte : Call := ⟨"/a", ⟨"/", "a"⟩, [0x4D], "1", fun _ => "error", fun _ => true⟩

/-- Every other call is interrupted, the others write all they are offered. -/
def everyOther : Hook := fun i offered => if i % 2 = 0 then .failed EINTR else .wrote offered (Nat.le_refl offered)

theorem everyOther_fills : Fills .posix oneByte everyOther :=
  (fills_iff .posix oneByte everyOther fun i offered => ⟨2 * i + 1, by omega, by
    rw [everyOther, if_neg (by omega)]
    exact fun h => nomatch h⟩).mpr fun h => nomatch h

/-- Each call reports a success that wrote nothing. -/
def idle : Hook := fun _ _ => .wrote 0 (Nat.zero_le _)

theorem idle_hangs : (∀ fuel, fill .windows oneByte idle fuel {} = none) ∧ Interrupts idle ∧
    ¬Fills .windows oneByte idle := by
  have hnone : ∀ fuel calls, fill .windows oneByte idle fuel ⟨0, [], calls⟩ = none := by
    intro fuel
    induction fuel with
    | zero => exact fun _ => rfl
    | succ fuel ih => exact fun calls => ih (calls + 1)
  refine ⟨fun fuel => hnone fuel 0, fun i offered => ⟨i, Nat.le_refl i, fun h => nomatch h⟩, fun h => ?_⟩
  obtain ⟨fuel, outcome, hend⟩ := h.ends
  rw [hnone fuel 0] at hend
  cases hend

section refines

variable {state : State} {info : Stat} {fd : Path} {f : File}

/-- The state of the process at the loop with so many bytes written. -/
def atLoop (state : State) (info : Stat) (fd : Path) (f : File) (s : Filling) : State :=
  { state with fs := put state.fs fd { f with content := s.file }, point := .write info s.offset }

/-- A round of the loop is what the steps of a replacement allow. -/
theorem posixTurn_step (hfd : state.working.fd = some fd) (hturn : turn .posix c hook s = .again after) :
    Step c (atLoop state info fd f s) (atLoop state info fd f after) := by
  obtain ⟨-, hleft⟩ | ⟨hmore, ⟨_, _, -, hthrew⟩ | ⟨-, hagain⟩ | ⟨_, _, -, -, hthrew⟩ |
    ⟨count, hcount, hpos, -, hagain⟩⟩ := turn_cases .posix c hook s
  · cases hturn.symm.trans hleft
  · cases hturn.symm.trans hthrew
  · cases hturn.symm.trans hagain
    exact .writeInterrupted _ info s.offset rfl hmore
  · cases hturn.symm.trans hthrew
  · cases hturn.symm.trans hagain
    have hfile : put state.fs fd { f with content := s.file } fd = some (.regular { f with content := s.file }) :=
      Function.update_self ..
    have hstep := Step.written (atLoop state info fd f s) info s.offset count fd { f with content := s.file } rfl hmore
      hfd hfile (Nat.pos_of_ne_zero (hpos rfl)) hcount
    have hput : put (put state.fs fd { f with content := s.file }) fd
        { f with content := s.file ++ (c.bytes.drop s.offset).take count } =
        put state.fs fd { f with content := s.file ++ (c.bytes.drop s.offset).take count } :=
      Function.update_idem _ _ _
    have hafter : atLoop state info fd f (s.wrote c count) =
        { atLoop state info fd f s with
          fs := put (put state.fs fd { f with content := s.file }) fd
            { f with content := s.file ++ (c.bytes.drop s.offset).take count }
          point := .write info (s.offset + count) } := by
      rw [hput]
      rfl
    rw [hafter]
    exact hstep

end refines

end TheSeed.FileWriteLoop
