import Mathlib.Data.List.Nodup
import TheSeed.Library.Bytes
import TheSeed.FileReplaceRuns
import TheSeed.SharedFiles

namespace TheSeed.SharedFilesRuns

open TheSeed.Transition FileReplace SharedFiles Function Bytes
open BoundedBytes (Outcome)

/-! Whatever calls read and replace files at a time, each of them sees one content of its file, and a file never holds
anything but what one call made of such a content. -/

variable {α : Type} {allowed : Job α → Prop} {job : Job α} {content bytes : List UInt8} {parts : Parts}
  {verdict : Verdict α} {d d' d₀ : Disk} {s t : State α} {i j : CallId} {c : Run α} {w w' : Writer} {p path : Path}
  {file : Inode} {versions more : List Version} {point : Point α} {value : α} {r : Reader} {created : Bool}
  {fd : Option Inode}

/-- The reads of a job, of a file that holds `content` all the time. -/
inductive Agrees (job : Job α) (content : List UInt8) : Parts → Prop
  | start : Agrees job content []
  | read {parts : Parts} {offset count : Nat} (h : Agrees job content parts)
      (hnext : job.next content.length parts = .read offset count) :
      Agrees job content (parts ++ [(offset, slice content offset count)])

/-- What a job comes to on a file that holds `content` all the time. -/
def Decides (job : Job α) (content : List UInt8) (verdict : Verdict α) : Prop :=
  ∃ parts, Agrees job content parts ∧ job.next content.length parts = .decide verdict

/-- A name that a replacement by the job can give its working file. -/
def Working (job : Job α) (p : Path) : Prop := ∃ suffix, p = workingName (job.replacement []) suffix

/-- A path that no call takes for a working file. -/
def Plain (allowed : Job α → Prop) (p : Path) : Prop := ∀ job, allowed job → ¬Working job p

/-- A content that the file had at some moment after a call began. -/
structure Seen (versions : List Version) (began k : Nat) (v : Version) : Prop where
  at_index : versions[k]? = some v
  after : began ≤ k + 1

def NotWritten (versions : List Version) (i : CallId) : Prop := ∀ v ∈ versions, v.writer ≠ some i

/-- How a call came by what it returned: it took effect at one moment between its begin and its end. -/
inductive Accounted (versions : List Version) (i : CallId) (job : Job α) (began ended : Nat) : Outcome α → Prop
  | answered {k : Nat} {v : Version} {result : Outcome α} (hseen : Seen versions began k v) (hended : k < ended)
      (hdecides : Decides job v.content (.finish result)) (hnone : NotWritten versions i) :
      Accounted versions i job began ended result
  | replaced {k n : Nat} {v : Version} {file : Inode} {bytes : List UInt8} {value : α} (hseen : Seen versions began k v)
      (hdecides : Decides job v.content (.replace bytes value)) (hlater : k < n) (hbegan : began ≤ n) (hended : n < ended)
      (hwritten : versions[n]? = some ⟨some i, file, bytes⟩) : Accounted versions i job began ended (.ok value)
  | failed (text : String) (hnone : NotWritten versions i) : Accounted versions i job began ended (.error (job.raise text))

/-- The call `i` created the file and named it, and it holds `content`. -/
structure Owned (s : State α) (i : CallId) (job : Job α) (path : Path) (file : Inode) (content : List UInt8) : Prop where
  name : s.disk.names path = some file
  owner : s.owner file = some i
  working : Working job path
  holds : ∃ f, s.disk.files file = some (.regular f) ∧ f.content = content

/-- What a replacement relies on, at each point before its rename. -/
def Writes (s : State α) (i : CallId) (job : Job α) (bytes : List UInt8) (created : Bool) (path : Path)
    (fd : Option Inode) : FileReplace.Point → Prop
  | .symlinkStatus | .canonical _ | .status | .stat | .accessTarget _ | .accessFolder _ | .openWorking _ _ =>
      created = false ∧ fd = none
  | .write _ offset => created = true ∧ ∃ file, Owned s i job path file (bytes.take offset) ∧ fd = some file
  | .fchown _ | .fchmod _ | .fsync | .close => created = true ∧ ∃ file, Owned s i job path file bytes ∧ fd = some file
  | .rename => created = true ∧ fd = none ∧ ∃ file, Owned s i job path file bytes
  | .fsyncFolder => False
  | .destroyClose result => (∃ e, result = .error e) ∧
      (created = false ∨ ∃ file content, Owned s i job path file content)
  | .destroyUnlink result => (∃ e, result = .error e) ∧ fd = none ∧
      (created = false ∨ ∃ file content, Owned s i job path file content)
  | .done result => (∃ e, result = .error e) ∧ fd = none

/-- The points of a replacement that has taken effect. -/
def Committed : FileReplace.Point → Prop
  | .fsyncFolder => True
  | .destroyClose result | .destroyUnlink result | .done result => result = .ok ()
  | _ => False

/-- What a call relies on. -/
def Backed (s : State α) (i : CallId) (c : Run α) : Point α → Prop
  | .openFile => NotWritten (s.versions c.job.target) i
  | .sizing file => NotWritten (s.versions c.job.target) i ∧ ∃ k v, Seen (s.versions c.job.target) c.began k v ∧ v.file = file
  | .deciding r => NotWritten (s.versions c.job.target) i ∧ r.size ≤ kOffsetLimit ∧ ∃ k v,
      Seen (s.versions c.job.target) c.began k v ∧ v.file = r.file ∧ r.size = v.content.length ∧
      Agrees c.job v.content r.parts
  | .reading r offset count done => NotWritten (s.versions c.job.target) i ∧ r.size ≤ kOffsetLimit ∧
      c.job.next r.size r.parts = .read offset count ∧ done.length ≤ count ∧ ∃ k v,
      Seen (s.versions c.job.target) c.began k v ∧ v.file = r.file ∧ r.size = v.content.length ∧
      Agrees c.job v.content r.parts ∧ done = slice v.content offset done.length
  | .shortRead .. => False
  | .replacing _ bytes value w => ∃ k v, Seen (s.versions c.job.target) c.began k v ∧
      Decides c.job v.content (.replace bytes value) ∧
      ((w.committed = false ∧ NotWritten (s.versions c.job.target) i ∧
          Writes s i c.job bytes w.created w.path w.fd w.point) ∨
        (w.committed = true ∧ Committed w.point ∧ ∃ n file, k < n ∧ c.began ≤ n ∧
          (s.versions c.job.target)[n]? = some ⟨some i, file, bytes⟩))
  | .returned ended result => Accounted (s.versions c.job.target) i c.job c.began ended result
  | .killed => True

/-- The points of a call that will write nothing more. -/
def Settled : Point α → Prop
  | .replacing _ _ _ w => w.committed = true
  | .returned _ _ | .killed => True
  | _ => False

/-- A name that is left when a call is where it is. -/
def Leaves (p : Path) (c : Run α) : Point α → Prop
  | .replacing _ _ _ w => w.created = true ∧ w.committed = false ∧ w.path = p ∧
      ∀ result, w.point = .done result → w.unlinkFailed = true
  | .returned _ _ => c.unlinkFailed = true
  | .killed => True
  | _ => False

/-- A content that a call made of one that the file had before, after the call began. -/
def Derived (s : State α) (p : Path) (n : Nat) (v : Version) : Prop :=
  ∃ i c k u value, v.writer = some i ∧ s.calls i = some c ∧ c.job.target = p ∧ c.began ≤ n ∧ k < n ∧
    Seen (s.versions p) c.began k u ∧ Decides c.job u.content (.replace v.content value)

structure Sound (allowed : Job α → Prop) (d₀ : Disk) (s : State α) : Prop where
  used : ∀ file i, s.owner file = some i → s.disk.files file ≠ none ∧ s.calls i ≠ none
  permitted : ∀ i c, s.calls i = some c → allowed c.job
  began : ∀ i c, s.calls i = some c → c.began ≤ (s.versions c.job.target).length
  present : ∀ p, Plain allowed p → ∀ v, (s.versions p).getLast? = some v → s.disk.names p = some v.file
  version : ∀ p, Plain allowed p → ∀ v ∈ s.versions p,
    s.owner v.file = v.writer ∧ ∃ f, s.disk.files v.file = some (.regular f) ∧ f.content = v.content
  writers : ∀ p, ((s.versions p).map Version.writer).Nodup
  settled : ∀ p, ∀ v ∈ s.versions p, ∀ i, v.writer = some i →
    ∃ c, s.calls i = some c ∧ c.job.target = p ∧ Settled c.point
  first : ∀ p, ∃ more, s.versions p = firstVersions d₀ p ++ more
  derived : ∀ p n v, (s.versions p)[n]? = some v → 0 < n → Derived s p n v
  backed : ∀ i c, s.calls i = some c → Backed s i c c.point
  left : ∀ p, s.disk.names p ≠ none → d₀.names p ≠ none ∨
    ∃ i c, s.calls i = some c ∧ Working c.job p ∧ Leaves p c c.point

/-! What the steps of other calls leave to a call -/

structure Keeps (allowed : Job α → Prop) (s t : State α) (i : CallId) : Prop where
  versions : ∀ p, ∃ more, t.versions p = s.versions p ++ more ∧ NotWritten more i
  owned : ∀ file, s.owner file = some i → t.owner file = some i ∧ t.disk.files file = s.disk.files file
  name : ∀ {job : Job α} {path file}, allowed job → Working job path → s.owner file = some i →
    s.disk.names path = some file → t.disk.names path = some file

theorem Seen.append {began k : Nat} {v : Version} (h : Seen versions began k v) (more : List Version) :
    Seen (versions ++ more) began k v := by
  obtain ⟨hk, -⟩ := List.getElem?_eq_some_iff.mp h.at_index
  exact ⟨by rw [List.getElem?_append_left hk, h.at_index], h.after⟩

theorem Seen.lt {began k : Nat} {v : Version} (h : Seen versions began k v) : k < versions.length := by
  obtain ⟨hk, -⟩ := List.getElem?_eq_some_iff.mp h.at_index
  exact hk

theorem Seen.mem {began k : Nat} {v : Version} (h : Seen versions began k v) : v ∈ versions :=
  List.mem_of_getElem? h.at_index

theorem NotWritten.append (h : NotWritten versions i) (hmore : NotWritten more i) : NotWritten (versions ++ more) i := by
  intro v hv
  rcases List.mem_append.mp hv with hv | hv
  · exact h v hv
  · exact hmore v hv

theorem getElem?_more {n : Nat} {v : Version} (h : versions[n]? = some v) (more : List Version) :
    (versions ++ more)[n]? = some v := by
  obtain ⟨hn, -⟩ := List.getElem?_eq_some_iff.mp h
  rw [List.getElem?_append_left hn, h]

theorem Accounted.append {began ended : Nat} {result : Outcome α} (h : Accounted versions i job began ended result)
    (hmore : NotWritten more i) : Accounted (versions ++ more) i job began ended result := by
  cases h with
  | answered hseen hended hdecides hnone => exact .answered (hseen.append more) hended hdecides (hnone.append hmore)
  | replaced hseen hdecides hlater hbegan hended hwritten =>
      exact .replaced (hseen.append more) hdecides hlater hbegan hended (getElem?_more hwritten more)
  | failed text hnone => exact .failed text (hnone.append hmore)

theorem Owned.keeps (h : Owned s i job path file content) (hk : Keeps allowed s t i) (hjob : allowed job) :
    Owned t i job path file content := by
  obtain ⟨howner, hfiles⟩ := hk.owned file h.owner
  exact ⟨hk.name hjob h.working h.owner h.name, howner, h.working, by rw [hfiles]; exact h.holds⟩

/-- The content of the file that a call has created. -/
theorem Owned.content_eq (h : Owned s i job path file content) (hf : s.disk.files file = some (.regular f)) :
    f.content = content := by
  obtain ⟨g, hg, hcontent⟩ := h.holds
  obtain rfl := Entry.regular.inj (Option.some.inj (hf.symm.trans hg))
  exact hcontent

theorem Writes.keeps {q : FileReplace.Point} (h : Writes s i job bytes created path fd q) (hk : Keeps allowed s t i)
    (hjob : allowed job) : Writes t i job bytes created path fd q := by
  cases q with
  | symlinkStatus | canonical | status | stat | accessTarget | accessFolder | openWorking | fsyncFolder | done => exact h
  | write | fchown | fchmod | fsync | close =>
      obtain ⟨hcreated, file, howned, hfd⟩ := h
      exact ⟨hcreated, file, howned.keeps hk hjob, hfd⟩
  | rename =>
      obtain ⟨hcreated, hfd, file, howned⟩ := h
      exact ⟨hcreated, hfd, file, howned.keeps hk hjob⟩
  | destroyClose result =>
      obtain ⟨herror, hcreated | ⟨file, content, howned⟩⟩ := h
      · exact ⟨herror, .inl hcreated⟩
      · exact ⟨herror, .inr ⟨file, content, howned.keeps hk hjob⟩⟩
  | destroyUnlink result =>
      obtain ⟨herror, hfd, hcreated | ⟨file, content, howned⟩⟩ := h
      · exact ⟨herror, hfd, .inl hcreated⟩
      · exact ⟨herror, hfd, .inr ⟨file, content, howned.keeps hk hjob⟩⟩

theorem Backed.keeps (h : Backed s i c point) (hk : Keeps allowed s t i) (hjob : allowed c.job) : Backed t i c point := by
  obtain ⟨more, hmore, hnone⟩ := hk.versions c.job.target
  cases point with
  | openFile =>
      rw [Backed, hmore]
      exact NotWritten.append h hnone
  | sizing file =>
      obtain ⟨hfree, k, v, hseen, hrest⟩ := h
      rw [Backed, hmore]
      exact ⟨hfree.append hnone, k, v, hseen.append more, hrest⟩
  | deciding r =>
      obtain ⟨hfree, hsize, k, v, hseen, hrest⟩ := h
      rw [Backed, hmore]
      exact ⟨hfree.append hnone, hsize, k, v, hseen.append more, hrest⟩
  | reading r offset count done =>
      obtain ⟨hfree, hsize, hnext, hdone, k, v, hseen, hrest⟩ := h
      rw [Backed, hmore]
      exact ⟨hfree.append hnone, hsize, hnext, hdone, k, v, hseen.append more, hrest⟩
  | shortRead => exact h
  | replacing r bytes value w =>
      obtain ⟨k, v, hseen, hdecides, hw⟩ := h
      rw [Backed, hmore]
      refine ⟨k, v, hseen.append more, hdecides, ?_⟩
      rcases hw with ⟨hcommitted, hfree, hwrites⟩ | ⟨hcommitted, hpoint, n, file, hk', hbegan, hn⟩
      · exact .inl ⟨hcommitted, hfree.append hnone, hwrites.keeps hk hjob⟩
      · exact .inr ⟨hcommitted, hpoint, n, file, hk', hbegan, getElem?_more hn more⟩
  | returned ended result =>
      rw [Backed, hmore]
      exact Accounted.append h hnone
  | killed => trivial

theorem Keeps.refl (hdisk : t.disk = s.disk) (howner : t.owner = s.owner) (hversions : t.versions = s.versions) :
    Keeps allowed s t i where
  versions p := ⟨[], by rw [hversions, List.append_nil], fun v hv => absurd hv List.not_mem_nil⟩
  owned file h := ⟨by rw [howner]; exact h, by rw [hdisk]⟩
  name _ _ _ h := by
    rw [hdisk]
    exact h

/-! One call moves on -/

theorem calls_cases {c' d : Run α} {j : CallId} (hcalls : t.calls = update s.calls i (some c'))
    (hd : t.calls j = some d) : j = i ∧ d = c' ∨ j ≠ i ∧ s.calls j = some d := by
  rw [hcalls] at hd
  by_cases hj : j = i
  · rw [hj, update_self] at hd
    exact .inl ⟨hj, (Option.some.inj hd).symm⟩
  · rw [update_of_ne hj] at hd
    exact .inr ⟨hj, hd⟩

/-- Every call is still there, on the same job, and writes nothing more if it was to write nothing more. -/
def Stays (s t : SharedFiles.State α) : Prop :=
  ∀ j d, s.calls j = some d → ∃ d', t.calls j = some d' ∧ d'.job = d.job ∧ d'.began = d.began ∧
    (Settled d.point → Settled d'.point)

theorem stays_of_calls {c' : Run α} (hcalls : t.calls = update s.calls i (some c'))
    (hcall : ∀ c, s.calls i = some c → c'.job = c.job ∧ c'.began = c.began ∧ (Settled c.point → Settled c'.point)) :
    Stays s t := by
  intro j d hd
  rw [hcalls]
  by_cases hj : j = i
  · rw [hj] at hd ⊢
    exact ⟨c', update_self .., hcall d hd⟩
  · exact ⟨d, by rw [update_of_ne hj]; exact hd, rfl, rfl, id⟩

theorem Stays.used (h : Stays s t) (hi : s.calls i ≠ none) : t.calls i ≠ none := by
  obtain ⟨d, hd⟩ := Option.ne_none_iff_exists'.mp hi
  obtain ⟨d', hd', -⟩ := h i d hd
  rw [hd']
  exact Option.some_ne_none d'

theorem Stays.settled {j : CallId} (h : Stays s t)
    (hsettled : ∃ d, s.calls j = some d ∧ d.job.target = p ∧ Settled d.point) :
    ∃ d, t.calls j = some d ∧ d.job.target = p ∧ Settled d.point := by
  obtain ⟨d, hd, htarget, hpoint⟩ := hsettled
  obtain ⟨d', hd', hjob, -, hstill⟩ := h j d hd
  exact ⟨d', hd', by rw [hjob]; exact htarget, hstill hpoint⟩

theorem Stays.derived {n : Nat} {v : Version} (h : Stays s t) (hmore : ∃ more, t.versions p = s.versions p ++ more)
    (hderived : Derived s p n v) : Derived t p n v := by
  obtain ⟨j, d, k, u, value, hwriter, hd, htarget, hbegan, hk, hseen, hdecides⟩ := hderived
  obtain ⟨d', hd', hjob, hbegan', -⟩ := h j d hd
  obtain ⟨more, heq⟩ := hmore
  refine ⟨j, d', k, u, value, hwriter, hd', by rw [hjob]; exact htarget, by rw [hbegan']; exact hbegan, hk, ?_, ?_⟩
  · rw [heq, hbegan']
    exact hseen.append more
  · rw [hjob]
    exact hdecides

/-! Steps without a rename -/

/-- A call begins or moves on, and touches no file but those it created. -/
structure Acts (allowed : Job α → Prop) (s t : SharedFiles.State α) (i : CallId) (c' : Run α) : Prop where
  calls : t.calls = update s.calls i (some c')
  call : ∀ c, s.calls i = some c → c'.job = c.job ∧ c'.began = c.began ∧ (Settled c.point → Settled c'.point)
  permitted : allowed c'.job
  began : c'.began ≤ (s.versions c'.job.target).length
  versions : t.versions = s.versions
  names : ∀ path file, s.disk.names path = some file → s.owner file ≠ some i → t.disk.names path = some file
  files : ∀ file, s.disk.files file ≠ none → s.owner file ≠ some i → t.disk.files file = s.disk.files file
  owner : ∀ file, s.disk.files file ≠ none → t.owner file = s.owner file
  fresh : ∀ file j, t.owner file = some j → t.disk.files file ≠ none ∧ (s.owner file = some j ∨ j = i)
  same : t.disk = s.disk ∨ ∀ c, s.calls i = some c → ¬Settled c.point
  backed : Backed t i c' c'.point
  leaves : ∀ p, t.disk.names p ≠ none → (s.disk.names p ≠ none ∧
    ∀ c, s.calls i = some c → Leaves p c c.point → Leaves p c' c'.point) ∨ Working c'.job p ∧ Leaves p c' c'.point

theorem Acts.self {c' : Run α} (ha : Acts allowed s t i c') : t.calls i = some c' := by
  rw [ha.calls, update_self]

theorem Acts.stays {c' : Run α} (ha : Acts allowed s t i c') : Stays s t := stays_of_calls ha.calls ha.call

theorem Acts.keeps {c' : Run α} (ha : Acts allowed s t i c') (h : Sound allowed d₀ s) (hj : j ≠ i) :
    Keeps allowed s t j := by
  have hne : ∀ file, s.owner file = some j → s.owner file ≠ some i := by
    intro file hfile heq
    exact hj (Option.some.inj (hfile.symm.trans heq))
  refine ⟨fun p => ⟨[], by rw [ha.versions, List.append_nil], fun v hv => absurd hv List.not_mem_nil⟩, ?_, ?_⟩
  · intro file hfile
    have hexists := (h.used file j hfile).1
    exact ⟨by rw [ha.owner file hexists]; exact hfile, ha.files file hexists (hne file hfile)⟩
  · intro _ path file _ _ hfile hname
    exact ha.names path file hname (hne file hfile)

/-- A version that the call itself wrote is there only when the disk stays as it is. -/
theorem Acts.disk_eq {c' : Run α} (ha : Acts allowed s t i c') (h : Sound allowed d₀ s) {v : Version}
    (hv : v ∈ s.versions p) (hwriter : v.writer = some i) : t.disk = s.disk := by
  obtain ⟨c, hc, -, hsettled⟩ := h.settled p v hv i hwriter
  rcases ha.same with hsame | hnot
  · exact hsame
  · exact absurd hsettled (hnot c hc)

/-- The file of a version stays what it is, under its name. -/
theorem Acts.version_kept {c' : Run α} (ha : Acts allowed s t i c') (h : Sound allowed d₀ s) (hp : Plain allowed p)
    {v : Version} (hv : v ∈ s.versions p) : t.owner v.file = v.writer ∧ t.disk.files v.file = s.disk.files v.file ∧
      (s.disk.names p = some v.file → t.disk.names p = some v.file) := by
  obtain ⟨howner, f, hf, -⟩ := h.version p hp v hv
  have hexists : s.disk.files v.file ≠ none := by
    rw [hf]
    exact Option.some_ne_none _
  refine ⟨(ha.owner v.file hexists).trans howner, ?_⟩
  by_cases hwriter : v.writer = some i
  · rw [ha.disk_eq h hv hwriter]
    exact ⟨rfl, id⟩
  · have hother : s.owner v.file ≠ some i := by
      rw [howner]
      exact hwriter
    exact ⟨ha.files v.file hexists hother, fun hname => ha.names p v.file hname hother⟩

theorem Acts.used {c' : Run α} (ha : Acts allowed s t i c') (h : Sound allowed d₀ s) (hfile : t.owner file = some j) :
    t.disk.files file ≠ none ∧ t.calls j ≠ none := by
  obtain ⟨hexists, hold | rfl⟩ := ha.fresh file j hfile
  · exact ⟨hexists, ha.stays.used (h.used file j hold).2⟩
  · rw [ha.self]
    exact ⟨hexists, Option.some_ne_none c'⟩

theorem Acts.left {c' : Run α} (ha : Acts allowed s t i c') (h : Sound allowed d₀ s) (hp : t.disk.names p ≠ none) :
    d₀.names p ≠ none ∨ ∃ j d, t.calls j = some d ∧ Working d.job p ∧ Leaves p d d.point := by
  rcases ha.leaves p hp with ⟨hold, hmoves⟩ | ⟨hworking, hleaves⟩
  · rcases h.left p hold with hfirst | ⟨j, d, hd, hworking, hleaves⟩
    · exact .inl hfirst
    · by_cases hj : j = i
      · rw [hj] at hd
        refine .inr ⟨i, c', ha.self, ?_, hmoves d hd hleaves⟩
        rw [(ha.call d hd).1]
        exact hworking
      · exact .inr ⟨j, d, by rw [ha.calls, update_of_ne hj]; exact hd, hworking, hleaves⟩
  · exact .inr ⟨i, c', ha.self, hworking, hleaves⟩

theorem Sound.acted {c' : Run α} (h : Sound allowed d₀ s) (ha : Acts allowed s t i c') : Sound allowed d₀ t where
  used _ _ hfile := ha.used h hfile
  permitted j d hd := by
    rcases calls_cases ha.calls hd with ⟨-, rfl⟩ | ⟨-, hd⟩
    · exact ha.permitted
    · exact h.permitted j d hd
  began j d hd := by
    rw [ha.versions]
    rcases calls_cases ha.calls hd with ⟨-, rfl⟩ | ⟨-, hd⟩
    · exact ha.began
    · exact h.began j d hd
  present p hp v hv := by
    rw [ha.versions] at hv
    exact (ha.version_kept h hp (List.mem_of_getLast? hv)).2.2 (h.present p hp v hv)
  version p hp v hv := by
    rw [ha.versions] at hv
    obtain ⟨howner, hfile, -⟩ := ha.version_kept h hp hv
    rw [hfile]
    exact ⟨howner, (h.version p hp v hv).2⟩
  writers p := by
    rw [ha.versions]
    exact h.writers p
  settled p v hv j hj := by
    rw [ha.versions] at hv
    exact ha.stays.settled (h.settled p v hv j hj)
  first p := by
    rw [ha.versions]
    exact h.first p
  derived p n v hv hn := by
    rw [ha.versions] at hv
    exact ha.stays.derived ⟨[], by rw [ha.versions, List.append_nil]⟩ (h.derived p n v hv hn)
  backed j d hd := by
    rcases calls_cases ha.calls hd with ⟨rfl, rfl⟩ | ⟨hj, hd⟩
    · exact ha.backed
    · exact (h.backed j d hd).keeps (ha.keeps h hj) (h.permitted j d hd)
  left _ hp := ha.left h hp

/-- A call moves on, and the disk stays as it is. -/
theorem Sound.moved {c' : Run α} (h : Sound allowed d₀ s) (hc : s.calls i = some c) (hjob : c'.job = c.job)
    (hbegan : c'.began = c.began) (hsettled : Settled c.point → Settled c'.point) (hback : Backed s i c' c'.point)
    (hleaves : ∀ p, Leaves p c c.point → Leaves p c' c'.point) :
    Sound allowed d₀ { s with calls := update s.calls i (some c') } := by
  have hpermitted : allowed c'.job := by
    rw [hjob]
    exact h.permitted i c hc
  refine h.acted {
    calls := rfl
    call := fun d hd => ?_
    permitted := hpermitted
    began := ?_
    versions := rfl
    names := fun _ _ hname _ => hname
    files := fun _ _ _ => rfl
    owner := fun _ _ => rfl
    fresh := fun file j hfile => ⟨(h.used file j hfile).1, .inl hfile⟩
    same := .inl rfl
    backed := hback.keeps (Keeps.refl rfl rfl rfl) hpermitted
    leaves := fun p hp => .inl ⟨hp, fun d hd => ?_⟩ }
  · obtain rfl := Option.some.inj (hc.symm.trans hd)
    exact ⟨hjob, hbegan, hsettled⟩
  · rw [hbegan, hjob]
    exact h.began i c hc
  · obtain rfl := Option.some.inj (hc.symm.trans hd)
    exact hleaves p

/-- A call that cannot have written goes on. -/
theorem Sound.goes {next : Point α} (h : Sound allowed d₀ s) (hat : s.At i c point) (hnot : ¬Settled point)
    (hnone : ∀ p, ¬Leaves p c point) (hback : Backed s i c next) : Sound allowed d₀ (s.goto i c next) := by
  obtain ⟨hc, rfl⟩ := hat
  exact h.moved hc rfl rfl (fun hsettled => absurd hsettled hnot) hback fun p hleaves => absurd hleaves (hnone p)

/-! The steps of a replacement -/

theorem bind_map_fd (fd : Option Inode) (path : Path) : (fd.map fun _ => path).bind (fun _ => fd) = fd := by
  cases fd <;> rfl

theorem after_goto (w : Writer) (d : Disk) (q : FileReplace.Point) :
    w.after ((w.alone d).goto q) = { w with point := q } := by
  rw [Writer.after, Writer.alone, FileReplace.State.goto]
  dsimp only
  rw [bind_map_fd]

theorem view_of_name (d : Disk) (hname : d.names path = some file) : d.view path = d.files file := by
  rw [Disk.view, hname]
  rfl

theorem view_of_none (d : Disk) (hname : d.view path = none) : d.names path = none := by
  cases h : d.names path with
  | none => rfl
  | some file =>
      rw [view_of_name d h] at hname
      exact absurd hname (d.leads h)

/-- What a step that changes nothing on the disk leaves of a replacement that has not taken effect. -/
structure Quiet (s : State α) (i : CallId) (job : Job α) (bytes : List UInt8) (w w' : Writer) : Prop where
  committed : w'.committed = false
  created : w'.created = w.created
  path : w'.path = w.path
  unlinkFailed : w.unlinkFailed = true → w'.unlinkFailed = true
  done : ∀ result, w'.point = .done result → w.created = true → w'.unlinkFailed = true
  writes : Writes s i job bytes w.created w.path w'.fd w'.point

theorem Quiet.goto {q : FileReplace.Point} (hcommitted : w.committed = false)
    (hdone : ∀ result, q = .done result → w.created = true → w.unlinkFailed = true)
    (hwrites : Writes s i job bytes w.created w.path w.fd q) :
    Quiet s i job bytes w (w.after ((w.alone s.disk).goto q)) := by
  rw [after_goto]
  exact ⟨hcommitted, rfl, rfl, id, hdone, hwrites⟩

/-- The replacement is over. -/
def Over : FileReplace.Point → Prop
  | .done _ => True
  | _ => False

theorem not_done {q : FileReplace.Point} (h : ¬Over q) (result : FileReplace.Result) : q ≠ .done result := by
  rintro rfl
  exact h trivial

theorem Quiet.on {q : FileReplace.Point} (hcommitted : w.committed = false) (hq : ¬Over q)
    (hwrites : Writes s i job bytes w.created w.path w.fd q) :
    Quiet s i job bytes w (w.after ((w.alone s.disk).goto q)) :=
  .goto hcommitted (fun result hdone => absurd hdone (not_done hq result)) hwrites

/-- A call that fails throws; what it created is there to be removed. -/
theorem Quiet.throws {text : String} (hcommitted : w.committed = false)
    (hleft : w.created = false ∨ ∃ file content, Owned s i job w.path file content) :
    Quiet s i job bytes w (w.after ((w.alone s.disk).goto (.destroyClose (.error text)))) :=
  .on hcommitted id ⟨⟨text, rfl⟩, hleft⟩

/-- A call that fails before it has created a file is over. -/
theorem Quiet.refused {text : String} (hcommitted : w.committed = false) (h : w.created = false ∧ w.fd = none) :
    Quiet s i job bytes w (w.after ((w.alone s.disk).goto (.done (.error text)))) := by
  refine .goto hcommitted ?_ ⟨⟨text, rfl⟩, h.2⟩
  intro _ _ hcreated
  rw [h.1] at hcreated
  cases hcreated

theorem Writes.owned {offset : Nat} {info : Stat} (h : Writes s i job bytes created path fd (.write info offset)) :
    ∃ file content, Owned s i job path file content := by
  obtain ⟨-, file, howned, -⟩ := h
  exact ⟨file, _, howned⟩

theorem Writes.owned_whole (h : created = true ∧ ∃ file, Owned s i job path file bytes ∧ fd = some file) :
    ∃ file content, Owned s i job path file content := by
  obtain ⟨-, file, howned, -⟩ := h
  exact ⟨file, _, howned⟩

theorem quiet_step {u : FileReplace.State} (hcommitted : w.committed = false)
    (hw : Writes s i job bytes w.created w.path w.fd w.point)
    (hstep : FileReplace.Step (job.replacement bytes) (w.alone s.disk) u) (hfs : u.fs = s.disk.view) :
    Quiet s i job bytes w (w.after u) := by
  have hput : ∀ {p f}, put s.disk.view p f = s.disk.view → s.disk.view p = some (.regular f) := by
    intro p f hsame
    rw [← hsame]
    exact update_self ..
  have hat : ∀ {q}, (w.alone s.disk).point = q → Writes s i job bytes w.created w.path w.fd q := by
    rintro _ rfl
    exact hw
  cases hstep with
  | symlinkStatus _ h | canonical _ h | status h | accessTarget _ h | accessFolder _ h | stat _ h _
  | openExists _ _ h _ =>
      have hwrites := hat h
      exact .on hcommitted id hwrites
  | canonicalFails _ _ h | statusRefused _ h | statusFails _ h | statFails _ h | accessTargetFails _ h
  | accessFolderFails _ h => exact .refused hcommitted (hat h)
  | openExhausted _ _ h _ | openFails _ _ _ h _ _ => exact .throws hcommitted (.inl (hat h).1)
  | opened _ _ suffix uid gid h _ hnew =>
      change s.disk.view _ = none at hnew
      change put s.disk.view _ _ = s.disk.view at hfs
      rw [hput hfs] at hnew
      cases hnew
  | writeDone _ offset h hdone =>
      have hall : bytes.take offset = bytes := List.take_of_length_le hdone
      have hwrites := hat h
      rw [Writes, hall] at hwrites
      exact .on hcommitted id hwrites
  | written _ offset n fd f h hmore _ hf hpos hle =>
      change s.disk.view _ = _ at hf
      change put s.disk.view _ _ = s.disk.view at hfs
      rw [hput hfs] at hf
      have hlen := congrArg (fun g => g.content.length) (Entry.regular.inj (Option.some.inj hf))
      simp only [File.append, List.length_append, List.length_take, List.length_drop] at hlen
      omega
  | writeZero _ _ h _ | writeFails _ _ _ h _ _ => exact .throws hcommitted (.inr (hat h).owned)
  | writeInterrupted _ _ h _ =>
      refine Quiet.goto hcommitted ?_ hw
      intro result hdone
      cases h.symm.trans hdone
  | fchown info _ _ h _ _ =>
      have hwrites := hat h
      change Quiet s i job bytes w (w.after ((w.alone s.disk).goto (.fchmod info)))
      exact .on hcommitted id hwrites
  | fchmod _ _ _ h _ _ =>
      have hwrites := hat h
      change Quiet s i job bytes w (w.after ((w.alone s.disk).goto .fsync))
      exact .on hcommitted id hwrites
  | fchownFails _ h | fsync h =>
      have hwrites := hat h
      exact .on hcommitted id hwrites
  | fchmodFails _ _ h | fsyncFails _ h => exact .throws hcommitted (.inr (Writes.owned_whole (hat h)))
  | close h =>
      obtain ⟨hcreated, file, howned, -⟩ := hat h
      exact ⟨hcommitted, rfl, rfl, id, fun result hdone => absurd hdone (not_done id result), ⟨hcreated, rfl, file, howned⟩⟩
  | closeFails _ h =>
      exact ⟨hcommitted, rfl, rfl, id, fun result hdone => absurd hdone (not_done id result),
        ⟨⟨_, rfl⟩, .inr (Writes.owned_whole (hat h))⟩⟩
  | rename h hfrom =>
      change s.disk.view w.path ≠ none at hfrom
      change renamed s.disk.view w.path _ = s.disk.view at hfs
      rw [← hfs] at hfrom
      exact absurd (update_self ..) hfrom
  | renameFails _ h =>
      obtain ⟨-, -, file, howned⟩ := hat h
      exact .throws hcommitted (.inr ⟨file, _, howned⟩)
  | fsyncFolder h => exact (hat h).elim
  | destroyClose result h =>
      exact ⟨hcommitted, rfl, rfl, id, fun result hdone => absurd hdone (not_done id result), ⟨(hat h).1, rfl, (hat h).2⟩⟩
  | destroyKeep result h hkeep =>
      change (w.created && !w.committed) = false at hkeep
      refine .goto hcommitted ?_ ⟨(hat h).1, (hat h).2.1⟩
      intro _ _ hcreated
      rw [hcreated, hcommitted] at hkeep
      cases hkeep
  | destroyUnlink result h hdrop =>
      change (w.created && !w.committed) = true at hdrop
      change remove s.disk.view w.path = s.disk.view at hfs
      have hview : s.disk.view w.path = none := by
        rw [← hfs]
        exact update_self ..
      rcases (hat h).2.2 with hcreated | ⟨file, content, howned⟩
      · rw [hcreated] at hdrop
        cases hdrop
      · exact absurd (howned.name.symm.trans (view_of_none _ hview)) (Option.some_ne_none file)
  | destroyUnlinkFails result h hdrop =>
      refine ⟨hcommitted, rfl, rfl, fun _ => rfl, fun _ _ _ => rfl, (hat h).1, ?_⟩
      exact (bind_map_fd w.fd w.path).trans (hat h).2.1

theorem after_committed {u : FileReplace.State} (hcommitted : w.committed = true) (hw : Committed w.point)
    (hstep : FileReplace.Step (job.replacement bytes) (w.alone d) u) :
    (w.after u).committed = true ∧ Committed (w.after u).point := by
  have hcases : ∀ {q}, w.point = q → Committed q := by
    rintro _ rfl
    exact hw
  cases hstep with
  | symlinkStatus _ h | canonical _ h | status h | accessTarget _ h | accessFolder _ h | canonicalFails _ _ h
  | statusRefused _ h | statusFails _ h | statFails _ h | accessTargetFails _ h | accessFolderFails _ h
  | openExists _ _ h _ | openExhausted _ _ h _ | openFails _ _ _ h _ _ | opened _ _ _ _ _ h _ _ | writeDone _ _ h _
  | written _ _ _ _ _ h _ _ _ _ _ | writeZero _ _ h _ | writeFails _ _ _ h _ _ | writeInterrupted _ _ h _
  | fchown _ _ _ h _ _ | fchownFails _ h | fchmod _ _ _ h _ _ | fchmodFails _ _ h | fsync h | fsyncFails _ h | close h
  | closeFails _ h | rename h _ | renameFails _ h | stat _ h _ => exact (hcases h).elim
  | fsyncFolder h => exact ⟨hcommitted, rfl⟩
  | destroyClose result h =>
      have hresult : Committed (.destroyClose result) := hcases h
      exact ⟨hcommitted, hresult⟩
  | destroyKeep result h _ =>
      have hresult : Committed (.destroyUnlink result) := hcases h
      exact ⟨hcommitted, hresult⟩
  | destroyUnlink result h hdrop =>
      change (w.created && !w.committed) = true at hdrop
      rw [hcommitted, Bool.not_true, Bool.and_false] at hdrop
      cases hdrop
  | destroyUnlinkFails result h hdrop =>
      change (w.created && !w.committed) = true at hdrop
      rw [hcommitted, Bool.not_true, Bool.and_false] at hdrop
      cases hdrop

/-- Once a call has put its file in place it changes nothing any more. -/
theorem write_committed {d d' : Disk} (hcommitted : w.committed = true) (hdone : Committed w.point)
    (hw : Write (job.replacement bytes) d w d' w') : d' = d ∧ w'.committed = true ∧ Committed w'.point := by
  have hcases : ∀ {q}, w.point = q → Committed q := by
    rintro _ rfl
    exact hdone
  cases hw with
  | quiet u hstep hfs => exact ⟨rfl, after_committed hcommitted hdone hstep⟩
  | opened _ _ _ _ _ _ hat | written _ _ _ _ _ hat | fchown _ _ _ hat | fchmod _ _ _ hat | rename hat =>
      exact (hcases hat).elim
  | destroyUnlink result hat hdrop =>
      rw [hcommitted, Bool.not_true, Bool.and_false] at hdrop
      cases hdrop

theorem wrote_owner (hexists : s.disk.files file ≠ none) :
    (s.wrote i c r bytes value w d' w').owner file = s.owner file := by
  apply if_neg
  rintro ⟨hnone, -⟩
  exact hexists hnone

theorem wrote_versions (hcommitted : w'.committed = w.committed) :
    (s.wrote i c r bytes value w d' w').versions = s.versions := by
  apply if_neg
  rintro ⟨hbefore, hafter⟩
  rw [hcommitted, hbefore] at hafter
  cases hafter

theorem wrote_quiet (hcommitted : w'.committed = w.committed) :
    s.wrote i c r bytes value w s.disk w' = s.goto i c (.replacing r bytes value w') := by
  have howner : (s.wrote i c r bytes value w s.disk w').owner = s.owner := by
    funext file
    apply if_neg
    rintro ⟨hnone, hsome⟩
    exact hsome hnone
  have hversions := @wrote_versions α bytes s.disk s i c w w' value r hcommitted
  change (⟨_, _, (s.wrote i c r bytes value w s.disk w').owner, (s.wrote i c r bytes value w s.disk w').versions⟩ :
    SharedFiles.State α) = _
  rw [howner, hversions]
  rfl

/-- A working file that is named, and stays when the call ends where it is. -/
def Leaving (w : Writer) (p : Path) : Prop :=
  w.created = true ∧ w.path = p ∧ ∀ result, w.point = .done result → w.unlinkFailed = true

theorem leaves_replacing (hcommitted : w.committed = false) :
    Leaves p c (.replacing r bytes value w) ↔ Leaving w p := by
  constructor
  · rintro ⟨hcreated, -, hpath, hdone⟩
    exact ⟨hcreated, hpath, hdone⟩
  · rintro ⟨hcreated, hpath, hdone⟩
    exact ⟨hcreated, hcommitted, hpath, hdone⟩

theorem not_leaves_committed (hcommitted : w.committed = true) : ¬Leaves p c (.replacing r bytes value w) := by
  rintro ⟨-, hnot, -⟩
  exact Bool.false_ne_true (hnot.symm.trans hcommitted)

/-- A replacement that has not taken effect changes the files that its call created. -/
theorem Sound.filed (h : Sound allowed d₀ s) (hc : s.calls i = some c) (hpoint : c.point = .replacing r bytes value w)
    (hcommitted : w.committed = false) (hcommitted' : w'.committed = false)
    (hnames : ∀ path file, s.disk.names path = some file → s.owner file ≠ some i → d'.names path = some file)
    (hfiles : ∀ file, s.disk.files file ≠ none → s.owner file ≠ some i → d'.files file = s.disk.files file)
    (hexists : ∀ file, s.disk.files file ≠ none → d'.files file ≠ none)
    (hwrites : Writes (s.wrote i c r bytes value w d' w') i c.job bytes w'.created w'.path w'.fd w'.point)
    (hleft : ∀ p, d'.names p ≠ none → (s.disk.names p ≠ none ∧ (Leaving w p → Leaving w' p)) ∨
      Working c.job p ∧ Leaving w' p) :
    Sound allowed d₀ (s.wrote i c r bytes value w d' w') := by
  have hversions := @wrote_versions α bytes d' s i c w w' value r (hcommitted'.trans hcommitted.symm)
  have hback := h.backed i c hc
  rw [hpoint] at hback
  obtain ⟨k, v, hseen, hdecides, ⟨-, hfree, -⟩ | ⟨hother, -⟩⟩ := hback
  swap
  · rw [hcommitted] at hother
    cases hother
  have hnot : ¬Settled c.point := by
    rw [hpoint]
    intro hsettled
    exact Bool.false_ne_true (hcommitted.symm.trans hsettled)
  have hcall : ∀ d, s.calls i = some d → d = c := fun d hd => (Option.some.inj (hc.symm.trans hd)).symm
  refine h.acted {
    calls := rfl
    call := fun d hd => ?_
    permitted := h.permitted i c hc
    began := h.began i c hc
    versions := hversions
    names := hnames
    files := hfiles
    owner := fun file hfile => wrote_owner hfile
    fresh := fun file j hfile => ?_
    same := .inr fun d hd => ?_
    backed := ⟨k, v, ?_, hdecides, .inl ⟨hcommitted', ?_, hwrites⟩⟩
    leaves := fun p hp => ?_ }
  · rw [hcall d hd]
    exact ⟨rfl, rfl, fun hsettled => absurd hsettled hnot⟩
  · by_cases hnone : s.disk.files file = none ∧ d'.files file ≠ none
    · have hi : (s.wrote i c r bytes value w d' w').owner file = some i := if_pos hnone
      exact ⟨hnone.2, .inr (Option.some.inj (hfile.symm.trans hi))⟩
    · have hold : (s.wrote i c r bytes value w d' w').owner file = s.owner file := if_neg hnone
      rw [hold] at hfile
      exact ⟨hexists file (h.used file j hfile).1, .inl hfile⟩
  · rw [hcall d hd]
    exact hnot
  · rw [hversions]
    exact hseen
  · rw [hversions]
    exact hfree
  · rcases hleft p hp with ⟨hold, hmoves⟩ | ⟨hworking, hleaves⟩
    · refine .inl ⟨hold, fun d hd hleaves => ?_⟩
      rw [hcall d hd, hpoint, leaves_replacing hcommitted] at hleaves
      exact (leaves_replacing hcommitted').mpr (hmoves hleaves)
    · exact .inr ⟨hworking, (leaves_replacing hcommitted').mpr hleaves⟩

theorem Leaving.goto {q : FileReplace.Point} (hdone : ∀ result, q ≠ .done result) (h : Leaving w p) :
    Leaving { w with point := q } p :=
  ⟨h.1, h.2.1, fun result hq => absurd hq (hdone result)⟩

theorem files_change_self (d : Disk) (file : Inode) (f : File) : (d.change file f).files file = some (.regular f) :=
  update_self ..

theorem files_change_of_ne {other : Inode} (hne : other ≠ file) (d : Disk) (f : File) :
    (d.change file f).files other = d.files other :=
  update_of_ne hne _ _

theorem files_change_exists (d : Disk) (file : Inode) (f : File) {other : Inode} (h : d.files other ≠ none) :
    (d.change file f).files other ≠ none := by
  by_cases hfile : other = file
  · rw [hfile, files_change_self]
    exact Option.some_ne_none _
  · rw [files_change_of_ne hfile]
    exact h

/-- A step that writes to the working file. -/
theorem Sound.changed (h : Sound allowed d₀ s) (hc : s.calls i = some c) (hpoint : c.point = .replacing r bytes value w)
    (hcommitted : w.committed = false) (howned : Owned s i c.job w.path file content) (f : File)
    {q : FileReplace.Point} (hdone : ∀ result, q ≠ .done result)
    (hwrites : ∀ t : SharedFiles.State α, Owned t i c.job w.path file f.content →
      Writes t i c.job bytes w.created w.path w.fd q) :
    Sound allowed d₀ (s.wrote i c r bytes value w (s.disk.change file f) { w with point := q }) := by
  have hexists : s.disk.files file ≠ none := (h.used file i howned.owner).1
  refine h.filed hc hpoint hcommitted hcommitted (fun _ _ hname _ => hname) ?_ ?_ ?_ ?_
  · intro other _ hother
    apply files_change_of_ne
    rintro rfl
    exact hother howned.owner
  · intro other hother
    exact files_change_exists _ _ _ hother
  · apply hwrites
    exact ⟨howned.name, (wrote_owner hexists).trans howned.owner, howned.working, f, files_change_self .., rfl⟩
  · intro p hp
    exact .inl ⟨hp, Leaving.goto hdone⟩

theorem Sound.added {suffix : String} {f : File} {info : Stat} (h : Sound allowed d₀ s) (hc : s.calls i = some c)
    (hpoint : c.point = .replacing r bytes value w) (hcommitted : w.committed = false) (hcreated : w.created = false)
    (hcontent : f.content = [])
    (hnew : s.disk.names (workingName (c.job.replacement bytes) suffix) = none) (hfree : s.disk.files file = none) :
    Sound allowed d₀ (s.wrote i c r bytes value w (s.disk.create (workingName (c.job.replacement bytes) suffix) file f)
      ⟨workingName (c.job.replacement bytes) suffix, some file, true, false, .write info 0, w.unlinkFailed⟩) := by
  have hself : (s.disk.create (workingName (c.job.replacement bytes) suffix) file f).files file = some (.regular f) :=
    update_self ..
  have hothers : ∀ other, s.disk.files other ≠ none →
      (s.disk.create (workingName (c.job.replacement bytes) suffix) file f).files other = s.disk.files other := by
    intro other hother
    apply update_of_ne
    rintro rfl
    exact hother hfree
  refine h.filed hc hpoint hcommitted rfl ?_ (fun other hother _ => hothers other hother) ?_ ?_ ?_
  · intro path other hname _
    refine (update_of_ne ?_ _ _).trans hname
    rintro rfl
    rw [hnew] at hname
    cases hname
  · intro other hother
    rw [hothers other hother]
    exact hother
  · refine ⟨rfl, file, ⟨update_self .., ?_, ⟨suffix, rfl⟩, f, hself, ?_⟩, rfl⟩
    · apply if_pos
      refine ⟨hfree, ?_⟩
      rw [hself]
      exact Option.some_ne_none _
    · rw [hcontent, List.take_zero]
  · intro p hp
    by_cases hworking : p = workingName (c.job.replacement bytes) suffix
    · exact .inr ⟨⟨suffix, hworking⟩, rfl, hworking.symm, fun result hdone => absurd hdone (not_done id result)⟩
    · refine .inl ⟨fun hnone => hp ((update_of_ne hworking _ _).trans hnone), ?_⟩
      rintro ⟨hleaving, -⟩
      rw [hcreated] at hleaving
      cases hleaving

theorem Sound.unlinked {result : FileReplace.Result} (h : Sound allowed d₀ s) (hc : s.calls i = some c)
    (hpoint : c.point = .replacing r bytes value w) (hcommitted : w.committed = false) (herror : ∃ e, result = .error e)
    (hfd : w.fd = none) (howned : Owned s i c.job w.path file content) :
    Sound allowed d₀ (s.wrote i c r bytes value w (s.disk.unlink w.path) { w with point := .done result }) := by
  refine h.filed hc hpoint hcommitted hcommitted ?_ (fun _ _ _ => rfl) (fun _ hother => hother) ⟨herror, hfd⟩ ?_
  · intro path other hname hother
    refine (update_of_ne ?_ _ _).trans hname
    rintro rfl
    rw [howned.name] at hname
    obtain rfl := Option.some.inj hname
    exact hother howned.owner
  · intro p hp
    have hne : p ≠ w.path := by
      rintro rfl
      exact hp (update_self ..)
    refine .inl ⟨fun hnone => hp ((update_of_ne hne _ _).trans hnone), ?_⟩
    rintro ⟨-, hpath, -⟩
    exact absurd hpath.symm hne

/-! The rename -/

/-- What the calls are on: files that are there, under names that no working file is given. -/
structure Suited (allowed : Job α → Prop) (d₀ : Disk) : Prop where
  plain : ∀ job, allowed job → Plain allowed job.target
  regular : ∀ job, allowed job → ∃ f, d₀.view job.target = some (.regular f)

/-- A replacement by the call takes effect: its working file is the one under the name of the target. -/
structure Renames (s t : SharedFiles.State α) (i : CallId) (c c' : Run α) (path : Path) (file : Inode)
    (bytes : List UInt8) : Prop where
  calls : t.calls = update s.calls i (some c')
  job : c'.job = c.job
  began : c'.began = c.began
  settled : Settled c'.point
  files : t.disk.files = s.disk.files
  target : t.disk.names c.job.target = some file
  working : t.disk.names path = none
  names : ∀ p, p ≠ c.job.target → p ≠ path → t.disk.names p = s.disk.names p
  owner : t.owner = s.owner
  versions : t.versions = update s.versions c.job.target (s.versions c.job.target ++ [⟨some i, file, bytes⟩])

theorem wrote_renames (hcommitted : w.committed = false) (hname : s.disk.names w.path = some file)
    (hpath : c.job.target ≠ w.path) :
    Renames s (s.wrote i c r bytes value w (s.disk.rename w.path c.job.target)
        { w with committed := true, point := .fsyncFolder }) i c
      { c with point := .replacing r bytes value { w with committed := true, point := .fsyncFolder } } w.path file bytes := by
  have htarget : (s.disk.rename w.path c.job.target).names c.job.target = some file :=
    (update_of_ne hpath _ _).trans ((update_self ..).trans hname)
  exact {
    calls := rfl
    job := rfl
    began := rfl
    settled := rfl
    files := rfl
    target := htarget
    working := update_self ..
    names := fun p hp hworking => (update_of_ne hworking _ _).trans (update_of_ne hp _ _)
    owner := funext fun other => if_neg fun hnew => hnew.2 hnew.1
    versions := by
      refine (if_pos ⟨hcommitted, rfl⟩).trans ?_
      rw [htarget]
      rfl }

section renamed

variable {c' : Run α} {u v : Version} {k n : Nat}

theorem Renames.self (hr : Renames s t i c c' path file bytes) : t.calls i = some c' := by rw [hr.calls, update_self]

theorem Renames.versions_target (hr : Renames s t i c c' path file bytes) :
    t.versions c.job.target = s.versions c.job.target ++ [⟨some i, file, bytes⟩] := by
  rw [hr.versions, update_self]

theorem Renames.versions_of_ne (hr : Renames s t i c c' path file bytes) (hp : p ≠ c.job.target) :
    t.versions p = s.versions p := by
  rw [hr.versions, update_of_ne hp]

/-- A version is an old one, or the new one of the target. -/
theorem Renames.mem (hr : Renames s t i c c' path file bytes) (hu : u ∈ t.versions p) :
    u ∈ s.versions p ∨ p = c.job.target ∧ u = ⟨some i, file, bytes⟩ := by
  by_cases hp : p = c.job.target
  · rw [hp, hr.versions_target] at hu
    rcases List.mem_append.mp hu with hold | hnew
    · exact .inl (hp ▸ hold)
    · exact .inr ⟨hp, List.mem_singleton.mp hnew⟩
  · rw [hr.versions_of_ne hp] at hu
    exact .inl hu

theorem Renames.appended (hr : Renames s t i c c' path file bytes) (p : Path) :
    ∃ more, t.versions p = s.versions p ++ more ∧ ∀ v ∈ more, v.writer = some i := by
  by_cases hp : p = c.job.target
  · rw [hp]
    exact ⟨_, hr.versions_target, fun v hv => by rw [List.mem_singleton.mp hv]⟩
  · exact ⟨[], by rw [hr.versions_of_ne hp, List.append_nil], fun v hv => absurd hv List.not_mem_nil⟩

theorem Renames.longer (hr : Renames s t i c c' path file bytes) (p : Path) :
    (s.versions p).length ≤ (t.versions p).length := by
  obtain ⟨more, heq, -⟩ := hr.appended p
  rw [heq, List.length_append]
  exact Nat.le_add_right _ _

theorem Renames.stays (hr : Renames s t i c c' path file bytes) (hc : s.calls i = some c) : Stays s t := by
  apply stays_of_calls hr.calls
  intro d hd
  obtain rfl := Option.some.inj (hc.symm.trans hd)
  exact ⟨hr.job, hr.began, fun _ => hr.settled⟩

theorem Renames.keeps (hr : Renames s t i c c' path file bytes) (hplain : Plain allowed c.job.target)
    (hname : s.disk.names path = some file) (howner : s.owner file = some i) (hj : j ≠ i) : Keeps allowed s t j where
  versions p := by
    obtain ⟨more, heq, hwriter⟩ := hr.appended p
    exact ⟨more, heq, fun u hu hj' => hj (Option.some.inj (hj'.symm.trans (hwriter u hu)))⟩
  owned other hother := by
    rw [hr.owner, hr.files]
    exact ⟨hother, rfl⟩
  name := by
    intro other path' file' hallowed hworking hother hfile
    rw [hr.names path']
    · exact hfile
    · rintro rfl
      exact hplain other hallowed hworking
    · rintro rfl
      obtain rfl := Option.some.inj (hname.symm.trans hfile)
      exact hj (Option.some.inj (hother.symm.trans howner))

variable (h : Sound allowed d₀ s) (hr : Renames s t i c c' path file bytes)
include h hr

theorem Renames.present (howned : Owned s i c.job path file bytes) (hjob : allowed c.job) (hp : Plain allowed p)
    (hu : (t.versions p).getLast? = some u) : t.disk.names p = some u.file := by
  by_cases heq : p = c.job.target
  · subst heq
    rw [hr.versions_target, List.getLast?_append, List.getLast?_singleton, Option.some_or] at hu
    obtain rfl := Option.some.inj hu
    exact hr.target
  · rw [hr.versions_of_ne heq] at hu
    rw [hr.names p heq]
    · exact h.present p hp u hu
    · rintro rfl
      exact hp c.job hjob howned.working

theorem Renames.version (howned : Owned s i c.job path file bytes) (hp : Plain allowed p) (hu : u ∈ t.versions p) :
    t.owner u.file = u.writer ∧ ∃ f, t.disk.files u.file = some (.regular f) ∧ f.content = u.content := by
  rw [hr.owner, hr.files]
  rcases hr.mem hu with hold | ⟨-, rfl⟩
  · exact h.version p hp u hold
  · exact ⟨howned.owner, howned.holds⟩

theorem Renames.writers (hfree : NotWritten (s.versions c.job.target) i) (p : Path) :
    ((t.versions p).map Version.writer).Nodup := by
  by_cases heq : p = c.job.target
  · subst heq
    rw [hr.versions_target, List.map_append, List.map_cons, List.map_nil, ← List.concat_eq_append]
    refine List.Nodup.concat ?_ (h.writers _)
    intro hmem
    obtain ⟨u, hu, hwriter⟩ := List.mem_map.mp hmem
    exact hfree u hu hwriter
  · rw [hr.versions_of_ne heq]
    exact h.writers p

theorem Renames.written (hc : s.calls i = some c) (hu : u ∈ t.versions p) (hj : u.writer = some j) :
    ∃ d, t.calls j = some d ∧ d.job.target = p ∧ Settled d.point := by
  rcases hr.mem hu with hold | ⟨rfl, rfl⟩
  · exact (hr.stays hc).settled (h.settled p u hold j hj)
  · obtain rfl := Option.some.inj hj
    exact ⟨c', hr.self, by rw [hr.job], hr.settled⟩

theorem Renames.derived (hc : s.calls i = some c) (hseen : Seen (s.versions c.job.target) c.began k v)
    (hdecides : Decides c.job v.content (.replace bytes value)) (hu : (t.versions p)[n]? = some u) (hn : 0 < n) :
    Derived t p n u := by
  obtain ⟨more, hmore, -⟩ := hr.appended p
  by_cases hold : n < (s.versions p).length
  · rw [hmore, List.getElem?_append_left hold] at hu
    exact (hr.stays hc).derived ⟨more, hmore⟩ (h.derived p n u hu hn)
  · by_cases heq : p = c.job.target
    · subst heq
      rw [hr.versions_target, List.getElem?_append_right (Nat.not_lt.mp hold)] at hu
      obtain ⟨hlast, rfl⟩ := List.getElem?_eq_some_iff.mp hu
      rw [List.length_singleton] at hlast
      obtain rfl : n = (s.versions c.job.target).length := by omega
      have hlong := h.began i c hc
      refine ⟨i, c', k, v, value, ?_, hr.self, by rw [hr.job], by rw [hr.began]; exact hlong, hseen.lt, ?_, ?_⟩
      · simp only [Nat.sub_self, List.getElem_cons_zero]
      · rw [hr.versions_target, hr.began]
        exact hseen.append _
      · rw [hr.job]
        simp only [Nat.sub_self, List.getElem_cons_zero]
        exact hdecides
    · rw [hr.versions_of_ne heq] at hu
      exact absurd (List.getElem?_eq_some_iff.mp hu).1 hold

theorem Renames.left (hc : s.calls i = some c) (hmine : ∀ p, Leaves p c c.point → p = path)
    (hregular : ∃ f, d₀.view c.job.target = some (.regular f)) (hp : t.disk.names p ≠ none) :
    d₀.names p ≠ none ∨ ∃ j d, t.calls j = some d ∧ Working d.job p ∧ Leaves p d d.point := by
  have hne : p ≠ path := by
    rintro rfl
    exact hp hr.working
  by_cases heq : p = c.job.target
  · obtain ⟨f, hf⟩ := hregular
    refine .inl fun hnone => ?_
    rw [← heq, Disk.view, hnone] at hf
    cases hf
  · rw [hr.names p heq hne] at hp
    rcases h.left p hp with hfirst | ⟨j, d, hd, hworking, hleaves⟩
    · exact .inl hfirst
    · by_cases hj : j = i
      · subst hj
        obtain rfl := Option.some.inj (hc.symm.trans hd)
        exact absurd (hmine p hleaves) hne
      · exact .inr ⟨j, d, by rw [hr.calls, update_of_ne hj]; exact hd, hworking, hleaves⟩

end renamed

theorem Sound.renamed (h : Sound allowed d₀ s) (hsuited : Suited allowed d₀) (hc : s.calls i = some c)
    (hpoint : c.point = .replacing r bytes value w) (hcommitted : w.committed = false)
    (howned : Owned s i c.job w.path file bytes) :
    Sound allowed d₀ (s.wrote i c r bytes value w (s.disk.rename w.path c.job.target)
      { w with committed := true, point := .fsyncFolder }) := by
  have hjob := h.permitted i c hc
  have hplain := hsuited.plain c.job hjob
  have hback := h.backed i c hc
  rw [hpoint] at hback
  obtain ⟨k, v, hseen, hdecides, ⟨-, hfree, -⟩ | ⟨hother, -⟩⟩ := hback
  swap
  · rw [hcommitted] at hother
    cases hother
  have hpath : c.job.target ≠ w.path := by
    intro heq
    exact hplain c.job hjob (heq ▸ howned.working)
  have hmine : ∀ p, Leaves p c c.point → p = w.path := by
    intro p hleaves
    rw [hpoint, leaves_replacing hcommitted] at hleaves
    exact hleaves.2.1.symm
  have hr := @wrote_renames α bytes s i c w file value r hcommitted howned.name hpath
  exact {
    used := fun other j hother => by
      rw [hr.owner] at hother
      rw [hr.files]
      exact ⟨(h.used other j hother).1, (hr.stays hc).used (h.used other j hother).2⟩
    permitted := fun j d hd => by
      rcases calls_cases hr.calls hd with ⟨-, rfl⟩ | ⟨-, hd⟩
      · exact hjob
      · exact h.permitted j d hd
    began := fun j d hd => by
      rcases calls_cases hr.calls hd with ⟨-, rfl⟩ | ⟨-, hd⟩
      · exact (h.began i c hc).trans (hr.longer _)
      · exact (h.began j d hd).trans (hr.longer _)
    present := fun p hp u hu => hr.present h howned hjob hp hu
    version := fun p hp u hu => hr.version h howned hp hu
    writers := hr.writers h hfree
    settled := fun p u hu j hj => hr.written h hc hu hj
    first := fun p => by
      obtain ⟨first, hfirst⟩ := h.first p
      obtain ⟨more, heq, -⟩ := hr.appended p
      exact ⟨first ++ more, by rw [heq, hfirst, List.append_assoc]⟩
    derived := fun p n u hu hn => hr.derived h hc hseen hdecides hu hn
    backed := fun j d hd => by
      rcases calls_cases hr.calls hd with ⟨rfl, rfl⟩ | ⟨hj, hd⟩
      · refine ⟨k, v, ?_, hdecides, .inr ⟨rfl, trivial, (s.versions c.job.target).length, file, hseen.lt, h.began j c hc, ?_⟩⟩
        · exact hr.versions_target ▸ hseen.append _
        · rw [hr.versions_target, List.getElem?_append_right (Nat.le_refl _), Nat.sub_self]
          rfl
      · exact (h.backed j d hd).keeps (hr.keeps hplain howned.name howned.owner hj) (h.permitted j d hd)
    left := fun p hp => hr.left h hc hmine (hsuited.regular c.job hjob) hp }

/-! Runs -/

theorem Sound.replaces (h : Sound allowed d₀ s) (hsuited : Suited allowed d₀) (hc : s.calls i = some c)
    (hpoint : c.point = .replacing r bytes value w) (hw : Write (c.job.replacement bytes) s.disk w d' w') :
    Sound allowed d₀ (s.wrote i c r bytes value w d' w') := by
  have hback := h.backed i c hc
  rw [hpoint] at hback
  obtain ⟨k, v, hseen, hdecides, ⟨hcommitted, hfree, hwrites⟩ | ⟨hcommitted, hdone, n, file, hk, hbegan, hn⟩⟩ := hback
  · cases hw with
    | quiet u hstep hfs =>
        have hquiet := quiet_step hcommitted hwrites hstep hfs
        rw [wrote_quiet (hquiet.committed.trans hcommitted.symm)]
        refine h.moved hc rfl rfl ?_ ?_ ?_
        · intro hsettled
          rw [hpoint] at hsettled
          exact absurd (hcommitted.symm.trans hsettled) Bool.false_ne_true
        · refine ⟨k, v, hseen, hdecides, .inl ⟨hquiet.committed, hfree, ?_⟩⟩
          rw [hquiet.created, hquiet.path]
          exact hquiet.writes
        · intro p hleaves
          rw [hpoint, leaves_replacing hcommitted] at hleaves
          obtain ⟨hcreated, hpath, -⟩ := hleaves
          refine (leaves_replacing hquiet.committed).mpr ⟨hquiet.created.trans hcreated, hquiet.path.trans hpath, ?_⟩
          exact fun result hresult => hquiet.done result hresult hcreated
    | opened info attempt suffix uid gid file hat hmax hnew hnone =>
        rw [hat] at hwrites
        exact h.added hc hpoint hcommitted hwrites.1 rfl hnew hnone
    | written info offset n file f hat hmore hfd hf hpos hle =>
        rw [hat] at hwrites
        obtain ⟨hcreated, own, howned, hown⟩ := hwrites
        obtain rfl := Option.some.inj (hown.symm.trans hfd)
        refine h.changed hc hpoint hcommitted howned _ (not_done id) ?_
        intro t ht
        refine ⟨hcreated, own, ?_, hfd⟩
        rw [List.take_add, ← howned.content_eq hf]
        exact ht
    | fchown info file f hat hfd hf | fchmod info file f hat hfd hf =>
        rw [hat] at hwrites
        obtain ⟨hcreated, own, howned, hown⟩ := hwrites
        obtain rfl := Option.some.inj (hown.symm.trans hfd)
        refine h.changed hc hpoint hcommitted howned _ (not_done id) ?_
        intro t ht
        exact ⟨hcreated, own, howned.content_eq hf ▸ ht, hfd⟩
    | rename hat hfrom =>
        rw [hat] at hwrites
        obtain ⟨-, -, own, howned⟩ := hwrites
        exact h.renamed hsuited hc hpoint hcommitted howned
    | destroyUnlink result hat hdrop =>
        rw [hat] at hwrites
        obtain ⟨herror, hfd, hcreated | ⟨file, content, howned⟩⟩ := hwrites
        · rw [hcreated] at hdrop
          cases hdrop
        · exact h.unlinked hc hpoint hcommitted herror hfd howned
  · obtain ⟨rfl, hstill, hafter⟩ := write_committed hcommitted hdone hw
    rw [wrote_quiet (hstill.trans hcommitted.symm)]
    refine h.moved hc rfl rfl (fun _ => hstill) ?_ ?_
    · exact ⟨k, v, hseen, hdecides, .inr ⟨hstill, hafter, n, file, hk, hbegan, hn⟩⟩
    · intro p hleaves
      rw [hpoint] at hleaves
      exact absurd hleaves (not_leaves_committed hcommitted)

/-- The content that the file of a call has now, and is found under its name. -/
theorem Sound.current (h : Sound allowed d₀ s) (hsuited : Suited allowed d₀) (hjob : allowed job) :
    ∃ k v, (s.versions job.target)[k]? = some v ∧ k + 1 = (s.versions job.target).length ∧
      s.disk.names job.target = some v.file := by
  obtain ⟨f, hf⟩ := hsuited.regular job hjob
  obtain ⟨more, hmore⟩ := h.first job.target
  have hfirst : firstVersions d₀ job.target ≠ [] := by
    cases hname : d₀.names job.target with
    | none =>
        rw [Disk.view, hname] at hf
        cases hf
    | some file =>
        rw [firstVersions, hname, hf]
        exact List.cons_ne_nil _ _
  have hne : s.versions job.target ≠ [] := by
    rw [hmore]
    exact List.append_ne_nil_of_left_ne_nil hfirst more
  obtain ⟨v, hv⟩ := Option.ne_none_iff_exists'.mp (fun hnone => hne (List.getLast?_eq_none_iff.mp hnone))
  have hpos : 0 < (s.versions job.target).length := List.length_pos_of_ne_nil hne
  refine ⟨(s.versions job.target).length - 1, v, ?_, by omega, ?_⟩
  · rw [← List.getLast?_eq_getElem?]
    exact hv
  · exact h.present _ (hsuited.plain job hjob) v hv

/-- The content of a file that a call has seen stays what it was. -/
theorem Sound.content_eq {k : Nat} {v : Version} (h : Sound allowed d₀ s) (hsuited : Suited allowed d₀)
    (hc : s.calls i = some c) (hseen : Seen (s.versions c.job.target) c.began k v)
    (hf : s.disk.files v.file = some (.regular f)) : f.content = v.content := by
  obtain ⟨-, g, hg, hcontent⟩ := h.version _ (hsuited.plain _ (h.permitted i c hc)) v hseen.mem
  obtain rfl := Entry.regular.inj (Option.some.inj (hf.symm.trans hg))
  exact hcontent

/-- A read that goes on reads within the file, at a position that the system can express. -/
theorem read_room {offset count : Nat} {done : List UInt8} {size : Nat} {parts : Parts}
    (hnext : job.next size parts = .read offset count) (hsize : size ≤ kOffsetLimit) (hmore : done.length < count) :
    offset + done.length < size ∧ ¬(kOffsetLimit < offset ∨ kOffsetLimit - offset < done.length) := by
  have hinside := job.inside hnext
  omega

theorem Sound.free (h : Sound allowed d₀ s) (hi : s.calls i = none) (p : Path) : NotWritten (s.versions p) i := by
  intro v hv hwriter
  obtain ⟨c, hc, -⟩ := h.settled p v hv i hwriter
  rw [hi] at hc
  cases hc

theorem Sound.returned {result : Outcome α} {c' : Run α} (h : Sound allowed d₀ s) (hc : s.calls i = some c)
    (hjob : c'.job = c.job) (hbegan : c'.began = c.began)
    (hleaves : ∀ p, Leaves p c c.point → c'.unlinkFailed = true)
    (haccount : Accounted (s.versions c.job.target) i c.job c.began (s.versions c.job.target).length result) :
    Sound allowed d₀ (s.returns i c' result) := by
  change Sound allowed d₀
    { s with calls := update s.calls i (some { c' with point := .returned (s.versions c'.job.target).length result }) }
  refine h.moved hc ?_ ?_ (fun _ => trivial) ?_ ?_
  · exact hjob
  · exact hbegan
  · change Accounted (s.versions c'.job.target) i c'.job c'.began (s.versions c'.job.target).length result
    rw [hjob, hbegan]
    exact haccount
  · exact hleaves

/-- A call that cannot have written returns. -/
theorem Sound.answers {result : Outcome α} (h : Sound allowed d₀ s) (hat : s.At i c point)
    (hnone : ∀ p, ¬Leaves p c point)
    (haccount : Accounted (s.versions c.job.target) i c.job c.began (s.versions c.job.target).length result) :
    Sound allowed d₀ (s.returns i c result) := by
  obtain ⟨hc, rfl⟩ := hat
  exact h.returned hc rfl rfl (fun p hleaves => absurd hleaves (hnone p)) haccount

theorem step_sound (hsuited : Suited allowed d₀) (h : Sound allowed d₀ s) (hst : Step allowed s t) :
    Sound allowed d₀ t := by
  have hback : ∀ {i c} {q : Point α}, s.At i c q → Backed s i c q := by
    rintro i c _ ⟨hc, rfl⟩
    exact h.backed i c hc
  cases hst with
  | begin i job hnone hjob =>
      have hcall : ∀ c, s.calls i ≠ some c := fun c hc => Option.some_ne_none c (hc.symm.trans hnone)
      exact h.acted {
        calls := rfl
        call := fun c hc => absurd hc (hcall c)
        permitted := hjob
        began := Nat.le_refl _
        versions := rfl
        names := fun _ _ hname _ => hname
        files := fun _ _ _ => rfl
        owner := fun _ _ => rfl
        fresh := fun file j hfile => ⟨(h.used file j hfile).1, .inl hfile⟩
        same := .inl rfl
        backed := h.free hnone job.target
        leaves := fun p hp => .inl ⟨hp, fun c hc => absurd hc (hcall c)⟩ }
  | killed i c hc hlive => exact h.moved hc rfl rfl (fun _ => trivial) trivial (fun _ _ => trivial)
  | opened i c file f hat hname hf =>
      obtain ⟨k, v, hv, hk, hfile⟩ := h.current hsuited (h.permitted i c hat.1)
      refine h.goes hat id (fun _ => id) ⟨hback hat, k, v, ⟨hv, ?_⟩, ?_⟩
      · rw [hk]
        exact h.began i c hat.1
      · exact Option.some.inj (hfile.symm.trans hname)
  | openInterrupted => exact h
  | openFails i c hat =>
      exact h.answers hat (fun _ => id) (.failed _ (hback hat))
  | sized i c file f hat hf hlimit =>
      obtain ⟨hfree, k, v, hseen, rfl⟩ := hback hat
      have hlen := congrArg List.length (h.content_eq hsuited hat.1 hseen hf)
      refine h.goes hat id (fun _ => id) ?_
      exact ⟨hfree, hlimit, k, v, hseen, rfl, hlen, .start⟩
  | sizeFails i c file hat =>
      exact h.answers hat (fun _ => id) (.failed _ (hback hat).1)
  | reads i c r offset count hat hnext =>
      obtain ⟨hfree, hsize, k, v, hseen, hfile, hlen, hagrees⟩ := hback hat
      refine h.goes hat id (fun _ => id) ?_
      exact ⟨hfree, hsize, hnext, Nat.zero_le _, k, v, hseen, hfile, hlen, hagrees, (slice_zero_length _ _).symm⟩
  | finishes i c r result hat hnext =>
      obtain ⟨hfree, -, k, v, hseen, -, hlen, hagrees⟩ := hback hat
      refine h.answers hat (fun _ => id) ?_
      exact .answered hseen hseen.lt ⟨r.parts, hagrees, by rw [← hlen]; exact hnext⟩ hfree
  | replaces i c r bytes value hat hnext =>
      obtain ⟨hfree, -, k, v, hseen, -, hlen, hagrees⟩ := hback hat
      refine h.goes hat id (fun _ => id) ?_
      exact ⟨k, v, hseen, ⟨r.parts, hagrees, by rw [← hlen]; exact hnext⟩, .inl ⟨rfl, hfree, rfl, rfl⟩⟩
  | readDone i c r offset count done hat hdone =>
      obtain ⟨hfree, hsize, hnext, hle, k, v, hseen, hfile, hlen, hagrees, hread⟩ := hback hat
      refine h.goes hat id (fun _ => id) ?_
      refine ⟨hfree, hsize, k, v, hseen, hfile, hlen, ?_⟩
      have hcount : done.length = count := Nat.le_antisymm hle hdone
      rw [hcount] at hread
      rw [hread]
      exact hagrees.read (by rw [← hlen]; exact hnext)
  | readPast i c r offset count done hat hmore hpast =>
      obtain ⟨hfree, hsize, hnext, -⟩ := hback hat
      exact absurd hpast (read_room hnext hsize hmore).2
  | readPart i c r offset count done got f hat hmore hoffset hf hpos hgot hin =>
      obtain ⟨hfree, hsize, hnext, hle, k, v, hseen, hfile, hlen, hagrees, hread⟩ := hback hat
      rw [← hfile] at hf
      have hcontent := h.content_eq hsuited hat.1 hseen hf
      have hpart : ((f.content.drop (offset + done.length)).take got).length = got := by
        rw [List.length_take, List.length_drop]
        omega
      refine h.goes hat id (fun _ => id) ?_
      refine ⟨hfree, hsize, hnext, ?_, k, v, hseen, hfile, hlen, hagrees, ?_⟩
      · rw [List.length_append, hpart]
        omega
      · rw [List.length_append, hpart, ← slice_append_slice, ← hread, ← hcontent]
        rfl
  | readEnd i c r offset count done f hat hmore hoffset hf hend =>
      obtain ⟨-, hsize, hnext, -, k, v, hseen, hfile, hlen, -⟩ := hback hat
      rw [← hfile] at hf
      have hroom := (read_room hnext hsize hmore).1
      rw [hlen, ← h.content_eq hsuited hat.1 hseen hf] at hroom
      exact absurd hend (Nat.not_le.mpr hroom)
  | readInterrupted => exact h
  | readFails i c r offset count done hat _ =>
      exact h.answers hat (fun _ => id) (.failed _ (hback hat).1)
  | readThrown i c r offset expected got hat => exact (hback hat).elim
  | writes i c r bytes value w d w' hat hw => exact h.replaces hsuited hat.1 hat.2 hw
  | replaced i c r bytes value w hat hdone =>
      obtain ⟨hc, hpoint⟩ := hat
      obtain ⟨k, v, hseen, hdecides, ⟨-, -, hwrites⟩ | ⟨hcommitted, -, n, file, hk, hbegan, hn⟩⟩ := hback ⟨hc, hpoint⟩
      · rw [hdone] at hwrites
        obtain ⟨⟨e, he⟩, -⟩ := hwrites
        cases he
      · obtain ⟨hlt, -⟩ := List.getElem?_eq_some_iff.mp hn
        refine h.returned hc rfl rfl ?_ (.replaced hseen hdecides hk hbegan hlt hn)
        rw [hpoint]
        intro p hleaves
        exact absurd hleaves (not_leaves_committed hcommitted)
  | replaceThrown i c r bytes value w text hat hdone =>
      obtain ⟨hc, hpoint⟩ := hat
      obtain ⟨k, v, hseen, hdecides, ⟨hcommitted, hfree, -⟩ | ⟨-, hafter, -⟩⟩ := hback ⟨hc, hpoint⟩
      · refine h.returned hc rfl rfl ?_ (.failed _ hfree)
        rw [hpoint]
        intro p hleaves
        exact hleaves.2.2.2 _ hdone
      · rw [hdone] at hafter
        cases hafter

theorem firstVersions_cases (d : Disk) (p : Path) :
    firstVersions d p = [] ∨ ∃ file f, d.names p = some file ∧ d.files file = some (.regular f) ∧
      firstVersions d p = [⟨none, file, f.content⟩] := by
  cases hname : d.names p with
  | none =>
      left
      rw [firstVersions, hname]
  | some file =>
      have hview := view_of_name d hname
      cases hfile : d.files file with
      | none => exact absurd hfile (d.leads hname)
      | some e =>
          rw [hfile] at hview
          cases e with
          | regular f =>
              refine .inr ⟨file, f, rfl, hfile, ?_⟩
              rw [firstVersions, hname, hview]
          | directory | symlink | special =>
              left
              rw [firstVersions, hname, hview]

theorem first_version {v : Version} (hv : v ∈ firstVersions d₀ p) : v.writer = none ∧ d₀.names p = some v.file ∧
    ∃ f, d₀.files v.file = some (.regular f) ∧ f.content = v.content := by
  rcases firstVersions_cases d₀ p with hnil | ⟨file, f, hname, hfile, hone⟩
  · rw [hnil] at hv
    cases hv
  · rw [hone] at hv
    rw [List.mem_singleton.mp hv]
    exact ⟨rfl, hname, f, hfile, rfl⟩

theorem firstVersions_short (d : Disk) (p : Path) : (firstVersions d p).length ≤ 1 := by
  rcases firstVersions_cases d p with hnil | ⟨file, f, -, -, hone⟩
  · rw [hnil]
    exact Nat.zero_le _
  · rw [hone, List.length_singleton]

theorem nodup_of_short (h : versions.length ≤ 1) : (versions.map Version.writer).Nodup := by
  cases versions with
  | nil => exact List.nodup_nil
  | cons v rest =>
      obtain rfl := List.length_eq_zero_iff.mp (Nat.le_zero.mp (Nat.le_of_succ_le_succ h))
      exact List.nodup_singleton _

theorem index_zero {n : Nat} {v : Version} (h : versions.length ≤ 1) (hv : versions[n]? = some v) : n ≤ 0 := by
  obtain ⟨hlt, -⟩ := List.getElem?_eq_some_iff.mp hv
  omega

theorem start_sound (allowed : Job α → Prop) (d₀ : Disk) : Sound allowed d₀ (start d₀) := by
  have hcalls : ∀ i c, (start d₀ : SharedFiles.State α).calls i ≠ some c := fun _ c h => Option.some_ne_none c h.symm
  exact {
    used := fun file i hi => absurd hi.symm (Option.some_ne_none i)
    permitted := fun i c hc => absurd hc (hcalls i c)
    began := fun i c hc => absurd hc (hcalls i c)
    present := fun p _ v hv => (first_version (List.mem_of_getLast? hv)).2.1
    version := fun p _ v hv => ⟨(first_version hv).1.symm, (first_version hv).2.2⟩
    writers := fun p => nodup_of_short (firstVersions_short d₀ p)
    settled := fun p v hv i hi => absurd ((first_version hv).1.symm.trans hi).symm (Option.some_ne_none i)
    first := fun p => ⟨[], (List.append_nil _).symm⟩
    derived := fun p n v hv hn => absurd hn (Nat.not_lt.mpr (index_zero (firstVersions_short d₀ p) hv))
    backed := fun i c hc => absurd hc (hcalls i c)
    left := fun p hp => .inl hp }

theorem sound (hsuited : Suited allowed d₀) : (SharedFiles.files allowed d₀).Invariant (Sound allowed d₀) where
  init s h := by
    rw [h]
    exact start_sound allowed d₀
  step _ _ hs hst := step_sound hsuited hs hst

/-- What calls have made of a file: the contents it has had, from the first to the present one, and what each call
that has returned made of them. -/
structure Atomic (d₀ : Disk) (s : State α) (p : Path) : Prop where
  first : ∃ v f, (s.versions p)[0]? = some v ∧ v.writer = none ∧ d₀.view p = some (.regular f) ∧ v.content = f.content
  present : ∃ v f, (s.versions p).getLast? = some v ∧ s.disk.view p = some (.regular f) ∧ f.content = v.content
  derived : ∀ n v, (s.versions p)[n]? = some v → 0 < n → Derived s p n v
  once : ((s.versions p).map Version.writer).Nodup
  returned : ∀ i c ended result, s.calls i = some c → c.job.target = p → c.point = .returned ended result →
    Accounted (s.versions p) i c.job c.began ended result
  whole : ∀ i c r offset expected got, s.calls i = some c → c.point ≠ .shortRead r offset expected got

/-- A working file is left only by a call that is under way, was killed or could not remove it. -/
def NothingLeft (d₀ : Disk) (s : State α) : Prop :=
  ∀ p, s.disk.names p ≠ none → d₀.names p ≠ none ∨ ∃ i c, s.calls i = some c ∧ Working c.job p ∧ Leaves p c c.point

theorem Sound.atomic (hs : Sound allowed d₀ s) (hsuited : Suited allowed d₀) (hjob : allowed job) :
    Atomic d₀ s job.target := by
  have hplain := hsuited.plain job hjob
  refine ⟨?_, ?_, hs.derived _, hs.writers _, ?_, ?_⟩
  · obtain ⟨f, hf⟩ := hsuited.regular job hjob
    obtain ⟨more, hmore⟩ := hs.first job.target
    rcases firstVersions_cases d₀ job.target with hnil | ⟨file, g, hname, hfile, hone⟩
    · cases hname : d₀.names job.target with
      | none =>
          rw [Disk.view, hname] at hf
          cases hf
      | some file =>
          rw [firstVersions, hname, hf] at hnil
          cases hnil
    · have hview := (view_of_name d₀ hname).trans hfile
      rw [hmore, hone]
      exact ⟨_, g, rfl, rfl, hview, rfl⟩
  · obtain ⟨k, v, hv, hk, hname⟩ := hs.current hsuited hjob
    obtain ⟨-, f, hf, hcontent⟩ := hs.version _ hplain v (List.mem_of_getElem? hv)
    refine ⟨v, f, ?_, (view_of_name _ hname).trans hf, hcontent⟩
    rw [List.getLast?_eq_getElem?, ← hk, Nat.add_sub_cancel]
    exact hv
  · intro i c ended result hc htarget hpoint
    have hback := hs.backed i c hc
    rw [hpoint] at hback
    rw [← htarget]
    exact hback
  · intro i c r offset expected got hc hpoint
    have hback := hs.backed i c hc
    rw [hpoint] at hback
    exact hback

/-- However the steps of calls on a file follow each other, and whichever of them fail or are killed, each call takes
effect at one moment while it runs, as a whole or not at all. -/
theorem calls_atomic (hsuited : Suited allowed d₀) (h : (SharedFiles.files allowed d₀).Reachable s) :
    (∀ job, allowed job → Atomic d₀ s job.target) ∧ NothingLeft d₀ s := by
  have hs := (sound hsuited).reachable h
  exact ⟨fun _ hjob => hs.atomic hsuited hjob, hs.left⟩

theorem readFileBytes_inside {plan : List UInt8 → Verdict α} {size offset count : Nat} {parts : Parts}
    (hread : readFileBytes plan size parts = .read offset count) : offset + count ≤ size := by
  cases parts with
  | nil =>
      rw [readFileBytes] at hread
      split at hread
      · cases hread
        exact Nat.le_of_eq (Nat.zero_add _)
      · cases hread
  | cons part rest => cases hread

/-! A call that reads a file while another one replaces it -/

def sampleFile (content : List UInt8) : File := ⟨content, 0o644#12, 0, 0⟩

/-- A disk with one file. -/
def oneFile (p : Path) (content : List UInt8) : Disk where
  names := update (fun _ => none) p (some 0)
  files := update (fun _ => none) 0 (some (.regular (sampleFile content)))
  leads := by
    intro q file h
    by_cases hq : q = p
    · rw [hq, update_self] at h
      obtain rfl := Option.some.inj h
      rw [update_self]
      exact Option.some_ne_none _
    · rw [update_of_ne hq] at h
      cases h

theorem oneFile_name (p : Path) (content : List UInt8) : (oneFile p content).names p = some 0 := by
  simp only [oneFile, update_self]

theorem oneFile_file (p : Path) (content : List UInt8) :
    (oneFile p content).files 0 = some (.regular (sampleFile content)) := rfl

theorem oneFile_view (p : Path) (content : List UInt8) :
    (oneFile p content).view p = some (.regular (sampleFile content)) :=
  (view_of_name _ (oneFile_name p content)).trans (oneFile_file p content)

theorem oneFile_suited (hall : ∀ job, allowed job → job.target = p) : Suited allowed (oneFile p content) where
  plain := by
    rintro first hfirst second hsecond ⟨suffix, heq⟩
    rw [hall first hfirst, ← hall second hsecond] at heq
    exact FileReplaceRuns.workingName_ne_target (second.replacement []) suffix heq.symm
  regular := by
    intro job hjob
    rw [hall job hjob]
    exact ⟨sampleFile content, oneFile_view p content⟩

section crossing

variable {writer reader : Job α} {q q' : Point α} {vs : Path → List Version}

/-- The call 0 replaces the file, the call 1 reads it. -/
def Two (writer reader : Job α) (job : Job α) : Prop := job = writer ∨ job = reader

/-- A state of a run in which both calls have begun before the file was replaced. -/
def Crosses (writer reader : Job α) (content : List UInt8) (q q' : Point α) (d : Disk) (vs : Path → List Version) : Prop :=
  ∃ s, (SharedFiles.files (Two writer reader) (oneFile writer.target content)).Reachable s ∧
    s.calls 0 = some ⟨writer, 1, false, q⟩ ∧ s.calls 1 = some ⟨reader, 1, false, q'⟩ ∧ s.disk = d ∧ s.versions = vs

theorem calls_goto (s : SharedFiles.State α) (i : CallId) (c : Run α) (point : Point α) :
    (s.goto i c point).calls i = some { c with point } := by
  simp only [SharedFiles.State.goto, update_self]

theorem calls_goto_of_ne {j : CallId} (hne : j ≠ i) (s : SharedFiles.State α) (c : Run α) (point : Point α) :
    (s.goto i c point).calls j = s.calls j := by
  simp only [SharedFiles.State.goto, update_of_ne hne]

theorem calls_wrote (s : SharedFiles.State α) (i : CallId) (c : Run α) (r : Reader) (value : α) (w : Writer) (d : Disk)
    (w' : Writer) : (s.wrote i c r bytes value w d w').calls = (s.goto i c (.replacing r bytes value w')).calls := rfl

theorem Crosses.first (h : Crosses writer reader content q q' d vs) (next : Point α)
    (hst : ∀ s : SharedFiles.State α, s.At 0 ⟨writer, 1, false, q⟩ q → s.disk = d → s.versions = vs →
      SharedFiles.Step (Two writer reader) s (s.goto 0 ⟨writer, 1, false, q⟩ next)) :
    Crosses writer reader content next q' d vs := by
  obtain ⟨s, hs, hwriter, hreader, hdisk, hversions⟩ := h
  refine ⟨_, hs.next (hst s ⟨hwriter, rfl⟩ hdisk hversions), calls_goto .., ?_, hdisk, hversions⟩
  rw [calls_goto_of_ne Nat.one_ne_zero]
  exact hreader

theorem Crosses.second (h : Crosses writer reader content q q' d vs) (next : Point α)
    (hst : ∀ s : SharedFiles.State α, s.At 1 ⟨reader, 1, false, q'⟩ q' → s.disk = d → s.versions = vs →
      SharedFiles.Step (Two writer reader) s (s.goto 1 ⟨reader, 1, false, q'⟩ next)) :
    Crosses writer reader content q next d vs := by
  obtain ⟨s, hs, hwriter, hreader, hdisk, hversions⟩ := h
  refine ⟨_, hs.next (hst s ⟨hreader, rfl⟩ hdisk hversions), ?_, calls_goto .., hdisk, hversions⟩
  rw [calls_goto_of_ne Nat.zero_ne_one]
  exact hwriter

theorem Crosses.wrote (h : Crosses writer reader content (.replacing r bytes value w) q' d vs)
    (hw : Write (writer.replacement bytes) d w d' w') (hcommitted : w'.committed = w.committed) :
    Crosses writer reader content (.replacing r bytes value w') q' d' vs := by
  obtain ⟨s, hs, hwriter, hreader, rfl, hversions⟩ := h
  refine ⟨_, hs.next (.writes s 0 _ r bytes value w d' w' ⟨hwriter, rfl⟩ hw), calls_goto s 0 _ _, ?_, rfl, ?_⟩
  · rw [calls_wrote, calls_goto_of_ne Nat.one_ne_zero]
    exact hreader
  · exact (wrote_versions hcommitted).trans hversions

theorem Crosses.quiet {u : FileReplace.State} (h : Crosses writer reader content (.replacing r bytes value w) q' d vs)
    (hst : FileReplace.Step (writer.replacement bytes) (w.alone d) u) (hfs : u.fs = d.view)
    (hcommitted : (w.after u).committed = w.committed) :
    Crosses writer reader content (.replacing r bytes value (w.after u)) q' d vs :=
  h.wrote (.quiet d w u hst hfs) hcommitted

theorem Crosses.renamed (h : Crosses writer reader content (.replacing r bytes value w) q' d vs)
    (hpoint : w.point = .rename) (hcommitted : w.committed = false) (hname : d.names w.path = some file)
    (hpath : w.path ≠ writer.target) :
    Crosses writer reader content (.replacing r bytes value { w with committed := true, point := .fsyncFolder }) q'
      (d.rename w.path writer.target)
      (update vs writer.target (vs writer.target ++ [⟨some 0, file, bytes⟩])) := by
  obtain ⟨s, hs, hwriter, hreader, rfl, rfl⟩ := h
  have hfrom : s.disk.names w.path ≠ none := by
    rw [hname]
    exact Option.some_ne_none file
  refine ⟨_, hs.next (.writes s 0 _ r bytes value w _ _ ⟨hwriter, rfl⟩ (.rename s.disk w hpoint hfrom)), calls_goto s 0 _ _, ?_,
    rfl, ?_⟩
  · rw [calls_wrote, calls_goto_of_ne Nat.one_ne_zero]
    exact hreader
  · have hnew : (s.disk.rename w.path writer.target).names writer.target = some file :=
      (update_of_ne hpath.symm _ _).trans ((update_self ..).trans hname)
    refine (if_pos ⟨hcommitted, rfl⟩).trans ?_
    change update s.versions writer.target (s.versions writer.target ++
      (((s.disk.rename w.path writer.target).names writer.target).map fun file => ⟨some 0, file, bytes⟩).toList) = _
    rw [hnew]
    rfl

theorem crosses_begun (htarget : reader.target = writer.target) (content : List UInt8) :
    Crosses writer reader content .openFile .openFile (oneFile writer.target content)
      (firstVersions (oneFile writer.target content)) := by
  have hone : (firstVersions (oneFile writer.target content) writer.target).length = 1 := by
    rw [firstVersions, oneFile_name, oneFile_view]
    rfl
  have h0 : (SharedFiles.files (Two writer reader) (oneFile writer.target content)).Reachable (start _) := .start rfl
  have h1 := h0.next (.begin _ 0 writer rfl (.inl rfl))
  have h2 := h1.next (.begin _ 1 reader rfl (.inr rfl))
  refine ⟨_, h2, ?_, ?_, rfl, rfl⟩
  · rw [calls_goto_of_ne Nat.zero_ne_one, calls_goto]
    exact congrArg (fun n => some (⟨writer, n, false, .openFile⟩ : Run α)) hone
  · rw [calls_goto]
    rw [← htarget] at hone
    exact congrArg (fun n => some (⟨reader, n, false, .openFile⟩ : Run α)) (htarget ▸ hone)

variable {plan plan' : List UInt8 → Verdict α} {result : Outcome α}

/-- Both calls have read what they need to know of the old file but its content. -/
theorem crosses_sized (htarget : reader.target = writer.target) (hsize : content.length ≤ kChunkLimit) :
    Crosses writer reader content (.deciding ⟨0, content.length, []⟩) (.deciding ⟨0, content.length, []⟩)
      (oneFile writer.target content) (firstVersions (oneFile writer.target content)) := by
  have hlimit : content.length ≤ kOffsetLimit := hsize.trans (by decide)
  have h0 := crosses_begun htarget content
  have h1 := h0.first (.sizing 0) fun s hat hdisk _ =>
    .opened s 0 _ 0 (sampleFile content) hat (by rw [hdisk]; exact oneFile_name ..) (by rw [hdisk]; rfl)
  have h2 := h1.second (.sizing 0) fun s hat hdisk _ =>
    .opened s 1 _ 0 (sampleFile content) hat (by rw [hdisk, htarget]; exact oneFile_name ..) (by rw [hdisk]; rfl)
  have h3 := h2.first (.deciding ⟨0, content.length, []⟩) fun s hat hdisk _ =>
    .sized s 0 _ 0 (sampleFile content) hat (by rw [hdisk]; rfl) hlimit
  exact h3.second _ fun s hat hdisk _ => .sized s 1 _ 0 (sampleFile content) hat (by rw [hdisk]; rfl) hlimit

/-- The content of the file, read in one part. -/
theorem whole_part (content : List UInt8) :
    [] ++ ((sampleFile content).content.drop (0 + ([] : List UInt8).length)).take content.length = content := by
  rw [List.nil_append, List.length_nil, List.drop_zero]
  exact List.take_length

theorem reads_whole (hnext : job.next = readFileBytes plan) (hpos : 0 < content.length) :
    job.next content.length [] = .read 0 content.length := by
  rw [hnext, readFileBytes, if_pos hpos]

theorem decides_whole (hnext : job.next = readFileBytes plan) :
    job.next content.length [(0, content)] = .decide (plan content) := by
  rw [hnext, readFileBytes]

/-- The call 0 has read the file and replaces it. -/
theorem crosses_replacing (htarget : reader.target = writer.target) (hnext : writer.next = readFileBytes plan)
    (hpos : 0 < content.length) (hsize : content.length ≤ kChunkLimit) (hplan : plan content = .replace bytes value) :
    Crosses writer reader content (.replacing ⟨0, content.length, [(0, content)]⟩ bytes value .start)
      (.deciding ⟨0, content.length, []⟩) (oneFile writer.target content) (firstVersions (oneFile writer.target content)) := by
  have h0 := crosses_sized htarget hsize
  have h1 := h0.first (.reading ⟨0, content.length, []⟩ 0 content.length []) fun s hat _ _ =>
    .reads s 0 _ _ 0 content.length hat (reads_whole hnext hpos)
  have h2 := h1.first (.reading ⟨0, content.length, []⟩ 0 content.length content) fun s hat hdisk _ => by
    have hstep : SharedFiles.Step (Two writer reader) s _ :=
      .readPart s 0 _ ⟨0, content.length, []⟩ 0 content.length [] content.length (sampleFile content) hat hpos
        ⟨Nat.zero_le _, Nat.zero_le _⟩ (by rw [hdisk]; rfl) hpos (Nat.le_min.mpr ⟨Nat.le_refl _, hsize⟩)
        (Nat.le_of_eq (Nat.zero_add _))
    rwa [whole_part] at hstep
  have h3 := h2.first (.deciding ⟨0, content.length, [(0, content)]⟩) fun s hat _ _ =>
    .readDone s 0 _ ⟨0, content.length, []⟩ 0 content.length content hat (Nat.le_refl _)
  exact h3.first _ fun s hat _ _ => .replaces s 0 _ _ bytes value hat ((decides_whole hnext).trans (by rw [hplan]))

/-- A step of the replacement that changes nothing on the disk. -/
theorem Crosses.goes {point : FileReplace.Point}
    (h : Crosses writer reader content (.replacing r bytes value w) q' d vs)
    (hst : FileReplace.Step (writer.replacement bytes) (w.alone d) ((w.alone d).goto point)) :
    Crosses writer reader content (.replacing r bytes value { w with point }) q' d vs := by
  have hafter := after_goto w d point
  rw [← hafter]
  exact h.quiet hst rfl (by rw [hafter])

def crossingPath (writer : Job α) : Path := workingName (writer.replacement []) "x"

theorem crossingPath_ne (writer : Job α) : crossingPath writer ≠ writer.target :=
  FileReplaceRuns.workingName_ne_target (writer.replacement []) "x"

/-- The disk when the working file has been created. -/
def createdDisk (writer : Job α) (content : List UInt8) : Disk :=
  (oneFile writer.target content).create (crossingPath writer) 1 ⟨[], 0, 0, 0⟩

/-- The disk when the working file is what the new file will be. -/
def filledDisk (writer : Job α) (content bytes : List UInt8) : Disk :=
  ((createdDisk writer content).change 1 ⟨bytes, 0, 0, 0⟩).change 1 (sampleFile bytes)

def crossedDisk (writer : Job α) (content bytes : List UInt8) : Disk :=
  (filledDisk writer content bytes).rename (crossingPath writer) writer.target

/-- The versions of the file when it has been replaced. -/
def crossedVersions (writer : Job α) (content bytes : List UInt8) : Path → List Version :=
  update (firstVersions (oneFile writer.target content)) writer.target
    (firstVersions (oneFile writer.target content) writer.target ++ [⟨some 0, 1, bytes⟩])

theorem crossedVersions_target (writer : Job α) (content bytes : List UInt8) :
    crossedVersions writer content bytes writer.target = [⟨none, 0, content⟩, ⟨some 0, 1, bytes⟩] := by
  rw [crossedVersions, update_self, firstVersions, oneFile_name, oneFile_view]
  rfl

theorem crossedDisk_view (writer : Job α) (content bytes : List UInt8) :
    (crossedDisk writer content bytes).view writer.target = some (.regular (sampleFile bytes)) := by
  have hname : (crossedDisk writer content bytes).names writer.target = some 1 :=
    (update_of_ne (crossingPath_ne writer).symm _ _).trans ((update_self ..).trans (update_self ..))
  exact (view_of_name _ hname).trans rfl

/-- The working file of the call 0 is what the new file will be. -/
theorem crosses_filled (htarget : reader.target = writer.target) (hnext : writer.next = readFileBytes plan)
    (hpos : 0 < content.length) (hsize : content.length ≤ kChunkLimit) (hplan : plan content = .replace bytes value)
    (hbytes : 0 < bytes.length) :
    Crosses writer reader content
      (.replacing ⟨0, content.length, [(0, content)]⟩ bytes value ⟨crossingPath writer, some 1, true, false, .fsync, false⟩)
      (.deciding ⟨0, content.length, []⟩) (filledDisk writer content bytes)
      (firstVersions (oneFile writer.target content)) := by
  have hregular : statusText (writer.replacement bytes) (typeOf ((oneFile writer.target content).view writer.target)) = none := by
    rw [oneFile_view]
    rfl
  have hfree : (oneFile writer.target content).names (crossingPath writer) = none := by
    simp only [oneFile, update_of_ne (crossingPath_ne writer)]
  have hall : (⟨[], 0, 0, 0⟩ : File).append ((bytes.drop 0).take bytes.length) = ⟨bytes, 0, 0, 0⟩ := by
    rw [List.drop_zero, List.take_length]
    rfl
  have hmode : (⟨bytes, 0, 0, 0⟩ : File).chmod ((sampleFile content).stat.st_mode &&& kPermissionBits) writer.inGroup =
      sampleFile bytes := by
    have hbits := FileReplaceRuns.chmod_mode (sampleFile content) ⟨bytes, 0, 0, 0⟩ writer.inGroup
    have hsame : (if writer.inGroup 0 then 0o644#12 else 0o644#12 &&& ~~~S_ISGID) = 0o644#12 := by
      split <;> decide
    exact congrArg (fun mode => (⟨bytes, mode, 0, 0⟩ : File)) (hbits.trans hsame)
  have h0 := crosses_replacing htarget hnext hpos hsize hplan
  have h1 := h0.goes (.symlinkStatus _ .regular rfl)
  have h2 := h1.goes (.canonical _ _ rfl)
  have h3 := h2.goes (.status _ rfl hregular)
  have h4 := h3.goes (.stat _ (sampleFile content) rfl (oneFile_view ..))
  have h5 := h4.goes (.accessTarget _ _ rfl)
  have h6 := h5.goes (.accessFolder _ _ rfl)
  have h7 : Crosses writer reader content (.replacing ⟨0, content.length, [(0, content)]⟩ bytes value
      ⟨crossingPath writer, some 1, true, false, .write (sampleFile content).stat 0, false⟩)
      (.deciding ⟨0, content.length, []⟩) (createdDisk writer content) (firstVersions (oneFile writer.target content)) :=
    h6.wrote (.opened _ _ _ 0 "x" 0 0 1 rfl (by decide) hfree rfl) rfl
  have hwritten := Write.written (c := writer.replacement bytes) (createdDisk writer content)
    ⟨crossingPath writer, some 1, true, false, .write (sampleFile content).stat 0, false⟩ (sampleFile content).stat 0
    bytes.length 1 ⟨[], 0, 0, 0⟩ rfl hbytes rfl rfl hbytes (Nat.le_refl _)
  change Write _ _ _ ((createdDisk writer content).change 1
    ((⟨[], 0, 0, 0⟩ : File).append ((bytes.drop 0).take bytes.length))) _ at hwritten
  rw [hall] at hwritten
  have h8 := h7.wrote hwritten rfl
  have h9 := h8.goes (.writeDone _ _ _ rfl (Nat.le_of_eq (Nat.zero_add _).symm))
  have h10 := h9.goes (.fchownFails _ _ rfl)
  have hchmod := Write.fchmod (c := writer.replacement bytes) ((createdDisk writer content).change 1 ⟨bytes, 0, 0, 0⟩)
    ⟨crossingPath writer, some 1, true, false, .fchmod (sampleFile content).stat, false⟩ (sampleFile content).stat 1
    ⟨bytes, 0, 0, 0⟩ rfl rfl rfl
  change Write _ _ _ (((createdDisk writer content).change 1 ⟨bytes, 0, 0, 0⟩).change 1
    ((⟨bytes, 0, 0, 0⟩ : File).chmod ((sampleFile content).stat.st_mode &&& kPermissionBits) writer.inGroup)) _ at hchmod
  rw [hmode] at hchmod
  exact h10.wrote hchmod rfl

/-- The call 0 has replaced the file, and the call 1 has read nothing yet of the old one. -/
theorem crosses_replaced (htarget : reader.target = writer.target) (hnext : writer.next = readFileBytes plan)
    (hpos : 0 < content.length) (hsize : content.length ≤ kChunkLimit) (hplan : plan content = .replace bytes value)
    (hbytes : 0 < bytes.length) :
    Crosses writer reader content (.returned 2 (.ok value)) (.deciding ⟨0, content.length, []⟩)
      (crossedDisk writer content bytes) (crossedVersions writer content bytes) := by
  have hname : (filledDisk writer content bytes).names (crossingPath writer) = some 1 := update_self ..
  have h0 := crosses_filled htarget hnext hpos hsize hplan hbytes
  have h1 := h0.goes (.fsync _ rfl)
  have h2 := h1.quiet (.close _ rfl) rfl rfl
  have h3 := h2.renamed rfl rfl hname (crossingPath_ne writer)
  have h4 := h3.goes (.fsyncFolder _ rfl)
  have h5 := h4.quiet (.destroyClose _ _ rfl) rfl rfl
  have h6 := h5.goes (.destroyKeep _ _ rfl rfl)
  refine h6.first _ fun s hat _ hversions => ?_
  have hstep : SharedFiles.Step (Two writer reader) s _ := .replaced s 0 _ _ bytes value _ hat rfl
  have htwo : (s.versions writer.target).length = 2 := by
    rw [hversions, show update _ _ _ = crossedVersions writer content bytes from rfl, crossedVersions_target]
    rfl
  rw [SharedFiles.State.returns, show (s.versions _).length = 2 from htwo] at hstep
  exact hstep

/-- A call that has opened a file reads what it was then, also when another call replaces it meanwhile. -/
theorem crossed (writer reader : Job α) (plan plan' : List UInt8 → Verdict α) (htarget : reader.target = writer.target) (hnext : writer.next = readFileBytes plan)
    (hreader : reader.next = readFileBytes plan') (hpos : 0 < content.length) (hsize : content.length ≤ kChunkLimit)
    (hplan : plan content = .replace bytes value) (hbytes : 0 < bytes.length) (hanswer : plan' content = .finish result) :
    Crosses writer reader content (.returned 2 (.ok value)) (.returned 2 result) (crossedDisk writer content bytes)
      (crossedVersions writer content bytes) := by
  have h0 := crosses_replaced htarget hnext hpos hsize hplan hbytes
  have h1 := h0.second (.reading ⟨0, content.length, []⟩ 0 content.length []) fun s hat _ _ =>
    .reads s 1 _ _ 0 content.length hat (reads_whole hreader hpos)
  have h2 := h1.second (.reading ⟨0, content.length, []⟩ 0 content.length content) fun s hat hdisk _ => by
    have hstep : SharedFiles.Step (Two writer reader) s _ :=
      .readPart s 1 _ ⟨0, content.length, []⟩ 0 content.length [] content.length (sampleFile content) hat hpos
        ⟨Nat.zero_le _, Nat.zero_le _⟩ (by rw [hdisk]; rfl) hpos (Nat.le_min.mpr ⟨Nat.le_refl _, hsize⟩)
        (Nat.le_of_eq (Nat.zero_add _))
    rwa [whole_part] at hstep
  have h3 := h2.second (.deciding ⟨0, content.length, [(0, content)]⟩) fun s hat _ _ =>
    .readDone s 1 _ ⟨0, content.length, []⟩ 0 content.length content hat (Nat.le_refl _)
  refine h3.second _ fun s hat _ hversions => ?_
  have hstep : SharedFiles.Step (Two writer reader) s _ :=
    .finishes s 1 _ _ result hat ((decides_whole hreader).trans (by rw [hanswer]))
  have htwo : (s.versions reader.target).length = 2 := by
    rw [hversions, htarget, crossedVersions_target]
    rfl
  rw [SharedFiles.State.returns, show (s.versions _).length = 2 from htwo] at hstep
  exact hstep

end crossing

def sampleJob (plan : List UInt8 → Verdict Unit) : Job Unit where
  filePath := "a"
  target := ⟨"/", "a"⟩
  processId := "7"
  strerror := fun _ => "error"
  inGroup := fun _ => true
  raise := id
  next := readFileBytes plan
  inside := readFileBytes_inside

def growPlan (bytes : List UInt8) : Verdict Unit := .replace (bytes ++ [0]) ()

def askPlan (bytes : List UInt8) : Verdict Unit := .finish (if bytes.length = 1 then .ok () else .error "no")

/-- One byte more -/
def growJob : Job Unit := sampleJob growPlan

/-- Whether the file has one byte -/
def askJob : Job Unit := sampleJob askPlan

/-- The file has grown when it is read, but was opened before. -/
theorem calls_atomic_sample : ∃ s, s.calls 0 = some ⟨growJob, 1, false, .returned 2 (.ok ())⟩ ∧
    s.calls 1 = some ⟨askJob, 1, false, .returned 2 (.ok ())⟩ ∧
      s.disk.view growJob.target = some (.regular (sampleFile [9, 0])) ∧
        Atomic (oneFile growJob.target [9]) s growJob.target ∧ NothingLeft (oneFile growJob.target [9]) s := by
  obtain ⟨s, hs, hgrow, hask, hdisk, -⟩ :=
    crossed growJob askJob growPlan askPlan rfl rfl rfl (show 0 < [9].length by decide) (by decide)
      (show growPlan [9] = .replace [9, 0] () from rfl) (by decide) (show askPlan [9] = .finish (.ok ()) from rfl)
  have hsuited : Suited (Two growJob askJob) (oneFile growJob.target [9]) := by
    apply oneFile_suited
    rintro job (rfl | rfl) <;> rfl
  obtain ⟨hatomic, hleft⟩ := calls_atomic hsuited hs
  refine ⟨s, hgrow, hask, ?_, hatomic growJob (.inl rfl), hleft⟩
  rw [hdisk]
  exact crossedDisk_view growJob [9] [9, 0]

end TheSeed.SharedFilesRuns
