import Mathlib.Data.List.Chain
import TheSeed.ResourcePak

namespace TheSeed.ResourcePakRuns

open TheSeed.Transition Function PakDescription ResourcePak Checked
open PakLoader (PakStamp PakEntry ReadFailure)
open PakRequest (LoadError pakEntryRead)
open PluginCache (CallId)
open PakFormat (smallParse smallPak smallIndex smallIndex_read)

/-! Every interleaving of calls on a shared `ResourcePak` and of replacements of its file: the remembered description
is never seen by a caller. -/

variable {parse : JsonParse} {s t : State} {i j : CallId} {c d : Call} {pc pc₀ : Pc} {file read : PakFile}
  {index : PakIndex} {entry : PakEntry} {entries before rest : List PakEntry} {got others added : Resources}
  {request : Request} {failure : Failure} {versions more : List PakFile} {filename : String}

/-- What a call gives that no other call shares anything with: the description is read, and then its entries. -/
def alone (index : Outcome PakIndex) (file : PakFile) (request : Request) : Except Failure Resources := do
  let index ← index.mapError .read
  let entries ← entriesFor index request
  readAll file entries

theorem readAll_append (h : readAll file before = .ok got) :
    readAll file (before ++ rest) = (readAll file rest).map fun others => got ++ others := by
  induction before generalizing got with
  | nil =>
      cases h
      cases hrest : readAll file rest <;> rw [List.nil_append, hrest] <;> rfl
  | cons entry before ih =>
      rw [readAll] at h
      obtain ⟨bytes, hbytes, h⟩ := bind_eq_ok.1 h
      obtain ⟨others, hothers, h⟩ := bind_eq_ok.1 h
      cases h
      rw [List.cons_append, readAll, hbytes, ih hothers]
      cases readAll file rest <;> rfl

theorem readAll_one {bytes : List UInt8} (h : pakEntryRead file entry = .ok bytes) :
    readAll file [entry] = .ok [(entry.name, bytes)] := by
  rw [readAll, h]
  rfl

theorem readAll_cons_error {failure : ReadFailure} (h : pakEntryRead file entry = .error failure) :
    readAll file (entry :: rest) = .error (.read failure) := by
  rw [readAll, h]
  rfl

/-- The description that a call goes by: of a file with the stamp of its own. -/
structure Described (parse : JsonParse) (versions : List PakFile) (file read : PakFile) (index : PakIndex) : Prop where
  known : read ∈ versions
  stamp : read.stamp = file.stamp
  index : pakIndexRead parse read = .ok index

/-- What a call relies on, with what it has put in its container. -/
def Backed (parse : JsonParse) (versions : List PakFile) (request : Request) (added : Resources) : Pc → Prop
  | .start => added = []
  | .opened file | .locked file => file ∈ versions ∧ added = []
  | .reading file rest got => file ∈ versions ∧ added = [] ∧ ∃ read index before,
      Described parse versions file read index ∧ entriesFor index request = .ok (before ++ rest) ∧
        readAll file before = .ok got
  | .adding file rest got => file ∈ versions ∧ request.container = true ∧ added ++ rest = got ∧ ∃ read index,
      Described parse versions file read index ∧ alone (.ok index) file request = .ok got
  | .done file got => file ∈ versions ∧ added = (if request.container then got else []) ∧ ∃ read index,
      Described parse versions file read index ∧ alone (.ok index) file request = .ok got
  | .named names => added = [] ∧ ∃ read index, Described parse versions read read index ∧
      names = index.entries.map PakEntry.name
  | .threw file failure => added = [] ∧ (failure.Refused ∨ ∃ own, file = some own ∧ own ∈ versions ∧ ∃ read ∈ versions,
      read.stamp = own.stamp ∧ alone (pakIndexRead parse read) own request = .error failure)

structure Sound (parse : JsonParse) (s : State) : Prop where
  disk : ∀ file, s.disk = some file → file ∈ s.versions
  remembered : ∃ read index, s.remembered = some index ∧ Described parse s.versions read read index ∧
    s.validated.head? = some index.stamp
  changed : s.validated.IsChain (· ≠ ·)
  holder : ∀ i, s.mutex = some i ↔ ∃ c file, s.At i c (.locked file)
  backed : ∀ i c, s.calls i = some c → Backed parse s.versions c.request (s.added i) c.pc
  unused : ∀ i, s.calls i = none → s.added i = []

theorem Sound.at (h : Sound parse s) (hat : s.At i c pc) : Backed parse s.versions c.request (s.added i) pc :=
  hat.2 ▸ h.backed i c hat.1

theorem Described.mono (h : Described parse versions file read index) (hmore : ∀ file ∈ versions, file ∈ more) :
    Described parse more file read index :=
  ⟨hmore _ h.known, h.stamp, h.index⟩

/-- A later list of versions backs as much. -/
theorem Backed.mono (h : Backed parse versions request added pc) (hmore : ∀ file ∈ versions, file ∈ more) :
    Backed parse more request added pc := by
  cases pc with
  | start => exact h
  | opened file => exact ⟨hmore _ h.1, h.2⟩
  | locked file => exact ⟨hmore _ h.1, h.2⟩
  | reading file rest got =>
      obtain ⟨hfile, hadded, read, index, before, hread, hrest⟩ := h
      exact ⟨hmore _ hfile, hadded, read, index, before, hread.mono hmore, hrest⟩
  | adding file rest got =>
      obtain ⟨hfile, hcontainer, hadded, read, index, hread, hgot⟩ := h
      exact ⟨hmore _ hfile, hcontainer, hadded, read, index, hread.mono hmore, hgot⟩
  | done file got =>
      obtain ⟨hfile, hadded, read, index, hread, hgot⟩ := h
      exact ⟨hmore _ hfile, hadded, read, index, hread.mono hmore, hgot⟩
  | named names =>
      obtain ⟨hadded, read, index, hread, hnames⟩ := h
      exact ⟨hadded, read, index, hread.mono hmore, hnames⟩
  | threw file failure =>
      obtain ⟨hadded, hrefused | ⟨own, hown, hfile, read, hread, hstamp, halone⟩⟩ := h
      · exact ⟨hadded, .inl hrefused⟩
      · exact ⟨hadded, .inr ⟨own, hown, hmore _ hfile, read, hmore _ hread, hstamp, halone⟩⟩

/-- One call moved on, to where what it relies on is backed. -/
theorem Sound.moved (h : Sound parse s) (i : CallId) (c : Call) (pc : Pc) (added : CallId → Resources)
    (hadded : ∀ j, j ≠ i → added j = s.added j) (hback : Backed parse s.versions c.request (added i) pc) :
    (∀ j d, (s.goto i c pc).calls j = some d → Backed parse s.versions d.request (added j) d.pc) ∧
      ∀ j, (s.goto i c pc).calls j = none → added j = [] := by
  constructor
  · intro j d hd
    by_cases hij : j = i
    · subst hij
      rw [State.goto_calls, update_self] at hd
      cases hd
      exact hback
    · rw [State.goto_calls, update_of_ne hij] at hd
      rw [hadded j hij]
      exact h.backed j d hd
  · intro j hj
    by_cases hij : j = i
    · subst hij
      rw [State.goto_calls, update_self] at hj
      cases hj
    · rw [State.goto_calls, update_of_ne hij] at hj
      rw [hadded j hij]
      exact h.unused j hj

def Locked : Pc → Prop
  | .locked _ => True
  | _ => False

theorem at_goto_of_ne (hij : j ≠ i) : (s.goto i c pc).At j d pc₀ ↔ s.At j d pc₀ := by
  rw [State.At, State.At, State.goto_calls, update_of_ne hij]

/-- The mutex stays where it is when a call moves outside it. -/
theorem Sound.holder_goto (h : Sound parse s) (hat : s.At i c pc₀) (hout : ¬Locked pc₀) (hpc : ¬Locked pc) :
    ∀ j, s.mutex = some j ↔ ∃ d file, (s.goto i c pc).At j d (.locked file) := by
  intro j
  rw [h.holder]
  by_cases hij : j = i
  · subst hij
    constructor
    · rintro ⟨d, file, hd, hlocked⟩
      obtain rfl : c = d := Option.some.inj (hat.1.symm.trans hd)
      rw [← hat.2, hlocked] at hout
      exact absurd trivial hout
    · rintro ⟨d, file, hd, hlocked⟩
      rw [State.goto_calls, update_self] at hd
      cases hd
      dsimp only at hlocked
      rw [hlocked] at hpc
      exact absurd trivial hpc
  · simp only [at_goto_of_ne hij]

/-- No call is left in the mutex when the one that held it moves out of it. -/
theorem Sound.holder_out (h : Sound parse s) (hat : s.At i c (.locked file)) (hpc : ¬Locked pc) :
    ∀ j, none = some j ↔ ∃ d file, (s.goto i c pc).At j d (.locked file) := by
  intro j
  constructor
  · intro hnone
    cases hnone
  · rintro ⟨d, other, hat'⟩
    have hmutex : s.mutex = some i := (h.holder i).2 ⟨c, file, hat⟩
    by_cases hij : j = i
    · subst hij
      obtain ⟨hd, hlocked⟩ := hat'
      rw [State.goto_calls, update_self] at hd
      cases hd
      dsimp only at hlocked
      rw [hlocked] at hpc
      exact absurd trivial hpc
    · rw [at_goto_of_ne hij] at hat'
      have hother := (h.holder j).2 ⟨d, other, hat'⟩
      rw [hmutex] at hother
      exact absurd (Option.some.inj hother).symm hij

/-- A call that moves outside the mutex and changes nothing that is shared. -/
theorem Sound.move (h : Sound parse s) (hat : s.At i c pc₀) (hout : ¬Locked pc₀) (hpc : ¬Locked pc)
    (hback : Backed parse s.versions c.request (s.added i) pc) : Sound parse (s.goto i c pc) := by
  obtain ⟨hbacked, hunused⟩ := h.moved i c pc s.added (fun _ _ => rfl) hback
  exact ⟨h.disk, h.remembered, h.changed, h.holder_goto hat hout hpc, hbacked, hunused⟩

/-- A call that leaves the mutex and changes nothing else that is shared. -/
theorem Sound.leave (h : Sound parse s) (hat : s.At i c (.locked file)) (hpc : ¬Locked pc)
    (hback : Backed parse s.versions c.request (s.added i) pc) : Sound parse { s.goto i c pc with mutex := none } := by
  obtain ⟨hbacked, hunused⟩ := h.moved i c pc s.added (fun _ _ => rfl) hback
  exact ⟨h.disk, h.remembered, h.changed, h.holder_out hat hpc, hbacked, hunused⟩

theorem not_locked_afterIndex : ¬Locked (afterIndex file index request) := by
  rw [afterIndex]
  split <;> exact id

theorem alone_ok (h : entriesFor index request = .ok entries) : alone (.ok index) file request = readAll file entries := by
  rw [alone]
  show (entriesFor index request >>= fun entries => readAll file entries) = _
  rw [h]
  rfl

/-- With the description of its own version a call goes on. -/
theorem backed_afterIndex (hfile : file ∈ versions) (hread : Described parse versions file read index) :
    Backed parse versions request [] (afterIndex file index request) := by
  rw [afterIndex]
  cases hentries : entriesFor index request with
  | error failure =>
      refine ⟨rfl, .inr ⟨file, rfl, hfile, read, hread.known, hread.stamp, ?_⟩⟩
      rw [hread.index, alone]
      show (entriesFor index request >>= fun entries => readAll file entries) = _
      rw [hentries]
      rfl
  | ok entries => exact ⟨hfile, rfl, read, index, [], hread, hentries, rfl⟩

/-- The description has the stamp of the file that it was read from. -/
theorem stamp_of_read (h : pakIndexRead parse file = .ok index) : index.stamp = file.stamp := by
  obtain ⟨p, resources, -, rfl⟩ := PakFormat.pakIndexRead_eq_ok.1 h
  rfl

theorem step_sound (h : Sound parse s) (hst : Step parse s t) : Sound parse t := by
  cases hst with
  | replace disk =>
      have hmore : ∀ file ∈ s.versions, file ∈ disk.toList ++ s.versions := fun file hin => List.mem_append_right _ hin
      obtain ⟨read, index, hremembered, hread, hhead⟩ := h.remembered
      refine ⟨fun file hfile => ?_, ⟨read, index, hremembered, hread.mono hmore, hhead⟩, h.changed, h.holder,
        fun i c hc => (h.backed i c hc).mono hmore, h.unused⟩
      dsimp only at hfile
      rw [hfile]
      exact List.mem_cons_self
  | begin i request hnone =>
      have hadded := h.unused i hnone
      obtain ⟨hbacked, hunused⟩ := h.moved i ⟨request, .start⟩ .start s.added (fun _ _ => rfl) hadded
      refine ⟨h.disk, h.remembered, h.changed, fun j => ?_, hbacked, hunused⟩
      show s.mutex = some j ↔ _
      rw [h.holder]
      by_cases hij : j = i
      · subst hij
        constructor
        · rintro ⟨d, file, hd, -⟩
          rw [hnone] at hd
          cases hd
        · rintro ⟨d, file, hd, hlocked⟩
          rw [State.goto_calls, update_self] at hd
          cases hd
          cases hlocked
      · simp only [at_goto_of_ne hij]
  | names i c index hat hr free hremembered =>
      have hback := h.at hat
      obtain ⟨read, other, hother, hread, -⟩ := h.remembered
      obtain rfl := Option.some.inj (hremembered.symm.trans hother)
      exact h.move hat id id ⟨hback, read, index, hread, rfl⟩
  | openMissing i c what hat hr gone | openFails i c what hat hr =>
      have hback := h.at hat
      exact h.move hat id id ⟨hback, .inl trivial⟩
  | opens i c file hat hr found =>
      have hback := h.at hat
      exact h.move hat id id ⟨h.disk file found, hback⟩
  | stampFails i c file what hat =>
      have hback := h.at hat
      exact h.move hat id id ⟨hback.2, .inl trivial⟩
  | lock i c file hat free =>
      have hback := h.at hat
      obtain ⟨hbacked, hunused⟩ := h.moved i c (.locked file) s.added (fun _ _ => rfl) hback
      refine ⟨h.disk, h.remembered, h.changed, fun j => ?_, hbacked, hunused⟩
      dsimp only
      by_cases hij : j = i
      · subst hij
        exact ⟨fun _ => ⟨_, file, update_self .., rfl⟩, fun _ => rfl⟩
      · constructor
        · intro heq
          exact absurd (Option.some.inj heq).symm hij
        · rintro ⟨d, other, hd⟩
          have hheld := (h.holder j).2 ⟨d, other, (at_goto_of_ne hij).1 hd⟩
          rw [free] at hheld
          cases hheld
  | hit i c file index hat hit =>
      have hback := h.at hat
      obtain ⟨read, other, hother, hread, -⟩ := h.remembered
      obtain rfl := Option.some.inj (hit.1.symm.trans hother)
      have hown : Described parse s.versions file read index :=
        ⟨hread.known, (stamp_of_read hread.index).symm.trans hit.2, hread.index⟩
      refine h.leave hat not_locked_afterIndex ?_
      rw [hback.2]
      exact backed_afterIndex hback.1 hown
  | validates i c file index hat miss hread =>
      have hback := h.at hat
      have hown : Described parse s.versions file file index := ⟨hback.1, rfl, hread⟩
      obtain ⟨hbacked, hunused⟩ := h.moved i c (afterIndex file index c.request) s.added (fun _ _ => rfl) (by
        rw [hback.2]
        exact backed_afterIndex hback.1 hown)
      obtain ⟨-, other, hother, -, hhead⟩ := h.remembered
      -- the version that was remembered is another one
      have hnew : index.stamp ≠ other.stamp := by
        intro heq
        exact miss other ⟨hother, heq.symm.trans (stamp_of_read hread)⟩
      refine ⟨h.disk, ⟨file, index, rfl, hown, rfl⟩, ?_, h.holder_out hat not_locked_afterIndex, hbacked, hunused⟩
      refine List.isChain_cons.2 ⟨fun stamp hstamp => ?_, h.changed⟩
      rw [hhead, Option.mem_some] at hstamp
      rwa [← hstamp]
  | rejects i c file failure hat miss hread =>
      have hback := h.at hat
      refine h.leave hat id ⟨hback.2, .inr ⟨file, rfl, hback.1, file, hback.1, rfl, ?_⟩⟩
      rw [hread]
      rfl
  | validationBreaks i c file failure hat miss refused =>
      have hback := h.at hat
      exact h.leave hat id ⟨hback.2, .inl refused⟩
  | reads i c file entry rest got bytes hat hread =>
      have hback := h.at hat
      obtain ⟨hfile, hadded, read, index, before, hdescribed, hentries, hgot⟩ := hback
      refine h.move hat id id ⟨hfile, hadded, read, index, before ++ [entry], hdescribed, ?_, ?_⟩
      · rwa [List.append_assoc, List.singleton_append]
      · rw [readAll_append hgot, readAll_one hread]
        rfl
  | readFails i c file entry rest got failure hat hread =>
      have hback := h.at hat
      obtain ⟨hfile, hadded, read, index, before, hdescribed, hentries, hgot⟩ := hback
      refine h.move hat id id ⟨hadded, .inr ⟨file, rfl, hfile, read, hdescribed.known, hdescribed.stamp, ?_⟩⟩
      rw [hdescribed.index, alone_ok hentries, readAll_append hgot, readAll_cons_error hread]
      rfl
  | readBreaks i c file entry rest got failure hat refused =>
      have hback := h.at hat
      exact h.move hat id id ⟨hback.2.1, .inl refused⟩
  | collected i c file got hat =>
      have hback := h.at hat
      obtain ⟨hfile, hadded, read, index, before, hdescribed, hentries, hgot⟩ := hback
      rw [List.append_nil] at hentries
      have halone : alone (.ok index) file c.request = .ok got := (alone_ok hentries).trans hgot
      by_cases hcontainer : c.request.container = true
      · rw [if_pos hcontainer]
        exact h.move hat id id ⟨hfile, hcontainer, by rw [hadded, List.nil_append], read, index, hdescribed, halone⟩
      · rw [if_neg hcontainer]
        exact h.move hat id id ⟨hfile, by rw [hadded, if_neg hcontainer], read, index, hdescribed, halone⟩
  | adds i c file resource rest got hat =>
      have hback := h.at hat
      obtain ⟨hfile, hcontainer, hadded, hrest⟩ := hback
      obtain ⟨hbacked, hunused⟩ := h.moved i c (.adding file rest got) (update s.added i (s.added i ++ [resource]))
        (fun j hij => update_of_ne hij _ _) ⟨hfile, hcontainer, by rw [update_self, List.append_assoc, List.singleton_append, hadded],
          hrest⟩
      exact ⟨h.disk, h.remembered, h.changed, h.holder_goto hat id id, hbacked, hunused⟩
  | returns i c file got hat =>
      have hback := h.at hat
      obtain ⟨hfile, hcontainer, hadded, hrest⟩ := hback
      rw [List.append_nil] at hadded
      exact h.move hat id id ⟨hfile, by rw [hadded, if_pos hcontainer], hrest⟩

theorem constructed_sound (h : s.Constructed parse) : Sound parse s := by
  obtain ⟨file, index, hdisk, hread, hremembered, hversions, hvalidated⟩ := h.described
  have hknown : file ∈ s.versions := by
    rw [hversions]
    exact List.mem_cons_self
  refine ⟨fun other hother => ?_, ⟨file, index, hremembered, ⟨hknown, rfl, hread⟩, by rw [hvalidated]; rfl⟩, ?_, fun i => ?_,
    fun i c hc => ?_, fun i _ => h.added i⟩
  · rw [hdisk, Option.some.injEq] at hother
    rwa [← hother]
  · rw [hvalidated]
    exact .singleton _
  · rw [h.mutex]
    constructor
    · intro hnone
      cases hnone
    · rintro ⟨c, other, hc, -⟩
      rw [h.calls] at hc
      cases hc
  · rw [h.calls] at hc
    cases hc

theorem sound : (resourcePak parse).Invariant (Sound parse) where
  init _ h := constructed_sound h
  step _ _ h hst := step_sound h hst

/-- One stamp, one version. -/
def StampsTell (versions : List PakFile) : Prop :=
  ∀ a ∈ versions, ∀ b ∈ versions, a.stamp = b.stamp → a = b

/-- What every call on the pak can count on. -/
structure Served (parse : JsonParse) (filename : String) (s : State) : Prop where
  single : ∀ i j c d file other, s.At i c (.locked file) → s.At j d (.locked other) → i = j
  remembered : ∃ read index, s.remembered = some index ∧ Described parse s.versions read read index
  changed : s.validated.IsChain (· ≠ ·)
  outcome : ∀ i c o, s.calls i = some c → c.result filename = some o →
    (∃ failure : Failure, failure.Refused ∧ o = .error (failureThrow filename failure)) ∨
      ∃ own ∈ s.versions, c.file = some own ∧ ∃ read ∈ s.versions, read.stamp = own.stamp ∧
        (StampsTell s.versions → read = own) ∧
        o = (alone (pakIndexRead parse read) own c.request).mapError (failureThrow filename)
  filled : ∀ i c got, s.calls i = some c → c.result filename = some (.ok got) →
    s.added i = if c.request.container then got else []
  untouched : ∀ i c error, s.calls i = some c → c.result filename = some (.error error) → s.added i = []
  names : ∀ i c names, s.At i c (.named names) → ∃ read index, Described parse s.versions read read index ∧
    names = index.entries.map PakEntry.name

theorem result_eq_ok (h : c.result filename = some (.ok got)) : ∃ file, c.pc = .done file got := by
  rw [Call.result] at h
  split at h
  · rename_i file other hpc
    rw [Option.some.injEq, Except.ok.injEq] at h
    exact ⟨file, h ▸ hpc⟩
  · cases h
  · cases h

theorem result_eq_error {error : LoadError} (h : c.result filename = some (.error error)) :
    ∃ file failure, c.pc = .threw file failure ∧ failureThrow filename failure = error := by
  rw [Call.result] at h
  split at h
  · cases h
  · rename_i file failure hpc
    rw [Option.some.injEq, Except.error.injEq] at h
    exact ⟨file, failure, hpc, h⟩
  · cases h

/-- Whatever the threads and the other program do in between, a call gives what it would give on its own on the version
of the file that it opened, or the system refused something. -/
theorem calls_served_as_alone (h : (resourcePak parse).Reachable s) : Served parse filename s := by
  have hs : Sound parse s := sound.reachable h
  have htell : ∀ read ∈ s.versions, ∀ own ∈ s.versions, read.stamp = own.stamp → StampsTell s.versions → read = own :=
    fun read hread own hown hstamp hstamps => hstamps read hread own hown hstamp
  refine ⟨?_, ?_, hs.changed, ?_, ?_, ?_, ?_⟩
  · intro i j c d file other hi hj
    have hheld := (hs.holder i).2 ⟨c, file, hi⟩
    rw [(hs.holder j).2 ⟨d, other, hj⟩] at hheld
    exact (Option.some.inj hheld).symm
  · obtain ⟨read, index, hremembered, hread, -⟩ := hs.remembered
    exact ⟨read, index, hremembered, hread⟩
  · intro i c o hc ho
    have hback := hs.backed i c hc
    cases o with
    | ok got =>
        obtain ⟨file, hpc⟩ := result_eq_ok ho
        rw [hpc] at hback
        obtain ⟨hfile, -, read, index, hread, halone⟩ := hback
        refine .inr ⟨file, hfile, by rw [Call.file, hpc], read, hread.known, hread.stamp,
          htell read hread.known file hfile hread.stamp, ?_⟩
        rw [hread.index, halone]
        rfl
    | error error =>
        obtain ⟨file, failure, hpc, rfl⟩ := result_eq_error ho
        rw [hpc] at hback
        obtain ⟨-, hrefused | ⟨own, rfl, hown, read, hread, hstamp, halone⟩⟩ := hback
        · exact .inl ⟨failure, hrefused, rfl⟩
        · refine .inr ⟨own, hown, by rw [Call.file, hpc], read, hread, hstamp, htell read hread own hown hstamp, ?_⟩
          rw [halone]
          rfl
  · intro i c got hc ho
    have hback := hs.backed i c hc
    obtain ⟨file, hpc⟩ := result_eq_ok ho
    rw [hpc] at hback
    exact hback.2.1
  · intro i c error hc ho
    have hback := hs.backed i c hc
    obtain ⟨file, failure, hpc, -⟩ := result_eq_error ho
    rw [hpc] at hback
    exact hback.1
  · intro i c names hat
    have hback := hs.at hat
    exact hback.2

def sampleStart : State :=
  ⟨some smallPak, some smallIndex, none, fun _ => none, fun _ => [], [smallPak], [smallIndex.stamp]⟩

theorem calls_served_as_alone_sample : ∃ s, (resourcePak smallParse).Reachable s ∧
    s.calls 0 = some ⟨.loadAll, .done smallPak [("a", [7]), ("b", [8, 9])]⟩ ∧ s.disk.isNone = true ∧
    Served smallParse "small.pak" s := by
  have h0 : (resourcePak smallParse).Reachable sampleStart :=
    .start ⟨⟨_, _, rfl, smallIndex_read, rfl, rfl, rfl⟩, rfl, fun _ => rfl, fun _ => rfl⟩
  have h1 := h0.next (.begin _ 0 .loadAll rfl)
  have h2 := h1.next (.opens _ 0 _ smallPak ⟨rfl, rfl⟩ Request.noConfusion rfl)
  -- the file is deleted while the call has it open
  have h3 := h2.next (.replace _ none)
  have h4 := h3.next (.begin _ 1 (.load "a" false) rfl)
  have h5 := h4.next (.openMissing _ 1 _ "No such file or directory" ⟨rfl, rfl⟩ Request.noConfusion rfl)
  have h6 := h5.next (.lock _ 0 _ smallPak ⟨rfl, rfl⟩ rfl)
  have h7 := h6.next (.hit _ 0 _ smallPak smallIndex ⟨rfl, rfl⟩ ⟨rfl, rfl⟩)
  have h8 := h7.next (.reads _ 0 _ smallPak ⟨"a", 78, 1⟩ _ [] [7] ⟨rfl, rfl⟩ (by with_unfolding_all rfl))
  have h9 := h8.next (.reads _ 0 _ smallPak ⟨"b", 79, 2⟩ [] _ [8, 9] ⟨rfl, rfl⟩ (by with_unfolding_all rfl))
  have h10 := h9.next (.collected _ 0 _ smallPak _ ⟨rfl, rfl⟩)
  have h11 := h10.next (.adds _ 0 _ smallPak _ _ _ ⟨rfl, rfl⟩)
  have h12 := h11.next (.adds _ 0 _ smallPak _ _ _ ⟨rfl, rfl⟩)
  have h13 := h12.next (.returns _ 0 _ smallPak _ ⟨rfl, rfl⟩)
  exact ⟨_, h13, rfl, rfl, calls_served_as_alone h13⟩

end TheSeed.ResourcePakRuns
