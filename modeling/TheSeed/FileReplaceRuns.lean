import Mathlib.Tactic.Common
import TheSeed.FileReplace

namespace TheSeed.FileReplaceRuns

open TheSeed.Transition TheSeed.FileReplace

/-! What holds at every point of a replacement, whatever the system calls answer. -/

variable {kept : BitVec 12 → BitVec 12 → Prop} {c : Call} {fs₀ : FileSystem} {s t : State}

theorem workingName_ne_target (c : Call) (suffix : String) : workingName c suffix ≠ c.target := by
  intro h
  have hlen := congrArg (fun p : Path => p.name.length) h
  simp only [workingName, String.length_append] at hlen
  have hdot : (".").length = 1 := rfl
  omega

/-- The permission bits of a status. -/
def permissions (info : Stat) : BitVec 12 := (info.st_mode &&& kPermissionBits).setWidth 12

theorem permissions_stat (f : File) : permissions f.stat = f.mode := by
  have hbits : ∀ j : Fin 12, (0o100000#32).getLsbD j = false ∧ (0o7777#32).getLsbD j = true := by
    decide
  simp only [permissions, File.stat, kPermissionBits, S_IFREG]
  ext i hi
  obtain ⟨hformat, hperm⟩ := hbits ⟨i, hi⟩
  have hi32 : i < 32 := by omega
  simp only [BitVec.getElem_setWidth, BitVec.getLsbD_and, BitVec.getLsbD_or, BitVec.getLsbD_setWidth,
    hformat, hperm, hi32, decide_true, Bool.true_and, Bool.false_or, Bool.and_true]
  exact BitVec.getLsbD_eq_getElem hi

theorem chmod_mode (f g : File) (inGroup : Nat → Bool) :
    (g.chmod (f.stat.st_mode &&& kPermissionBits) inGroup).mode =
      if inGroup g.gid then f.mode else f.mode &&& ~~~S_ISGID := by
  rw [File.chmod, ← permissions_stat f]
  rfl

theorem and_not_eq_self {w : Nat} {m g : BitVec w} : m &&& ~~~g = m ↔ m &&& g = 0 := by
  constructor
  · intro h
    rw [← h, BitVec.and_assoc, BitVec.and_comm (~~~g), BitVec.and_not_self]
    exact BitVec.and_zero
  · intro h
    have hsplit : m = m &&& g ||| m &&& ~~~g := by
      ext i hi
      simp only [BitVec.getElem_or, BitVec.getElem_and, BitVec.getElem_not]
      cases m[i] <;> cases g[i] <;> rfl
    have hzero : m &&& g = 0#w := h
    rw [hzero, BitVec.zero_or] at hsplit
    exact hsplit.symm

@[simp] theorem put_self (fs : FileSystem) (p : Path) (f : File) : put fs p f p = some (.regular f) :=
  Function.update_self ..

theorem put_put (fs : FileSystem) (p : Path) (f g : File) : put (put fs p f) p g = put fs p g :=
  Function.update_idem _ _ _

theorem remove_put {fs : FileSystem} {p : Path} (f : File) (h : fs p = none) : remove (put fs p f) p = fs := by
  rw [remove, put, Function.update_idem, ← h, Function.update_eq_self]

theorem renamed_put {fs : FileSystem} {p q : Path} (f : File) (h : fs p = none) (hpq : p ≠ q) :
    renamed (put fs p f) p q = put fs q f := by
  funext r
  simp only [renamed, remove, put, Function.update_apply]
  by_cases hp : r = p
  · subst hp
    simp only [hpq, if_true, if_false, h]
  · by_cases hq : r = q
    · subst hq
      simp only [hp, if_true, if_false]
    · simp only [hp, hq, if_false]

/-- Nothing has been created. -/
structure Untouched (fs₀ : FileSystem) (s : State) : Prop where
  fs : s.fs = fs₀
  created : s.working.created = false
  unlinkFailed : s.unlinkFailed = false

/-- The target was the regular file `f₀` and the working file is `w`, under a name that was free. Its mode is one that is
`kept` of the mode of `f₀`, once it is set. -/
structure Working (kept : BitVec 12 → BitVec 12 → Prop) (c : Call) (fs₀ : FileSystem) (s : State) (f₀ w : File) : Prop where
  target : fs₀ c.target = some (.regular f₀)
  free : fs₀ s.working.path = none
  fs : s.fs = put fs₀ s.working.path w
  created : s.working.created = true
  committed : s.working.committed = false
  mode : w.mode = 0 ∨ kept f₀.mode w.mode

/-- The target is the new file `w` and nothing else is different. -/
structure Replaced (kept : BitVec 12 → BitVec 12 → Prop) (c : Call) (fs₀ : FileSystem) (s : State) (f₀ w : File) : Prop where
  target : fs₀ c.target = some (.regular f₀)
  fs : s.fs = put fs₀ c.target w
  free : fs₀ s.working.path = none
  committed : s.working.committed = true
  content : w.content = c.bytes
  mode : kept f₀.mode w.mode

def Original (c : Call) (fs₀ : FileSystem) (info : Stat) : Prop :=
  ∃ f₀, fs₀ c.target = some (.regular f₀) ∧ info = f₀.stat

/-- The working file is open, holds `content` and nobody may use it yet. -/
def Filling (kept : BitVec 12 → BitVec 12 → Prop) (c : Call) (fs₀ : FileSystem) (s : State) (content : List UInt8) (info : Stat) : Prop :=
  ∃ f₀ w, Working kept c fs₀ s f₀ w ∧ s.working.fd = some s.working.path ∧ w.content = content ∧
    w.mode = 0 ∧ info = f₀.stat ∧ s.unlinkFailed = false

/-- The working file is what the target will be. -/
def Filled (kept : BitVec 12 → BitVec 12 → Prop) (c : Call) (fs₀ : FileSystem) (s : State) : Prop :=
  ∃ f₀ w, Working kept c fs₀ s f₀ w ∧ w.content = c.bytes ∧ kept f₀.mode w.mode ∧ s.unlinkFailed = false

def Abandoned (kept : BitVec 12 → BitVec 12 → Prop) (c : Call) (fs₀ : FileSystem) (s : State) : Prop :=
  Untouched fs₀ s ∨ ∃ f₀ w, Working kept c fs₀ s f₀ w ∧ s.unlinkFailed = false

def Failed (kept : BitVec 12 → BitVec 12 → Prop) (c : Call) (fs₀ : FileSystem) (s : State) : Prop :=
  s.fs = fs₀ ∨ s.unlinkFailed = true ∧ ∃ f₀ w, Working kept c fs₀ s f₀ w

/-- What holds just before the call `p`. -/
def InvAt (kept : BitVec 12 → BitVec 12 → Prop) (c : Call) (fs₀ : FileSystem) (s : State) : Point → Prop
  | .symlinkStatus | .canonical _ | .status | .stat => Untouched fs₀ s
  | .accessTarget info | .accessFolder info | .openWorking info _ =>
      Untouched fs₀ s ∧ Original c fs₀ info
  | .write info offset => Filling kept c fs₀ s (c.bytes.take offset) info
  | .fchown info | .fchmod info => Filling kept c fs₀ s c.bytes info
  | .fsync | .close | .rename => Filled kept c fs₀ s
  | .fsyncFolder | .destroyClose (.ok _) | .destroyUnlink (.ok _) | .done (.ok _) =>
      ∃ f₀ w, Replaced kept c fs₀ s f₀ w
  | .destroyClose (.error _) | .destroyUnlink (.error _) => Abandoned kept c fs₀ s
  | .done (.error _) => Failed kept c fs₀ s

def Inv (kept : BitVec 12 → BitVec 12 → Prop) (c : Call) (fs₀ : FileSystem) (s : State) : Prop := InvAt kept c fs₀ s s.point

theorem Inv.at {p : Point} (h : Inv kept c fs₀ s) (hp : s.point = p) : InvAt kept c fs₀ s p := hp ▸ h

/-! Each write of the process, seen on the file system. -/

theorem Working.at_path {f₀ w : File} (h : Working kept c fs₀ s f₀ w) :
    s.fs s.working.path = some (.regular w) := by
  rw [h.fs, put_self]

theorem Working.path_ne {f₀ w : File} (h : Working kept c fs₀ s f₀ w) : s.working.path ≠ c.target := by
  intro heq
  have hfree := h.free
  rw [heq, h.target] at hfree
  cases hfree

theorem Working.at_target {f₀ w : File} (h : Working kept c fs₀ s f₀ w) : s.fs c.target = fs₀ c.target := by
  rw [h.fs, put, Function.update_of_ne h.path_ne.symm]

/-- The working file changed through its descriptor. -/
theorem Working.put {f₀ w w' : File} (h : Working kept c fs₀ s f₀ w) (p : Point)
    (hm : w'.mode = 0 ∨ kept f₀.mode w'.mode) :
    Working kept c fs₀ { s with fs := put s.fs s.working.path w', point := p } f₀ w' where
  target := h.target
  free := h.free
  fs := by rw [h.fs, put_put]
  created := h.created
  committed := h.committed
  mode := hm

theorem Working.goto {f₀ w : File} (h : Working kept c fs₀ s f₀ w) (p : Point) :
    Working kept c fs₀ (s.goto p) f₀ w := ⟨h.target, h.free, h.fs, h.created, h.committed, h.mode⟩

theorem Working.close {f₀ w : File} (h : Working kept c fs₀ s f₀ w) (p : Point) :
    Working kept c fs₀ { s with working := s.working.close, point := p } f₀ w :=
  ⟨h.target, h.free, h.fs, h.created, h.committed, h.mode⟩

theorem Untouched.goto (h : Untouched fs₀ s) (p : Point) : Untouched fs₀ (s.goto p) :=
  ⟨h.fs, h.created, h.unlinkFailed⟩

theorem Untouched.close (h : Untouched fs₀ s) (p : Point) :
    Untouched fs₀ { s with working := s.working.close, point := p } := ⟨h.fs, h.created, h.unlinkFailed⟩

theorem Untouched.opened {info : Stat} (h : Untouched fs₀ s) (ho : Original c fs₀ info) (suffix : String)
    (uid gid : Nat) (hnew : s.fs (workingName c suffix) = none) :
    Filling kept c fs₀
      { s with
        fs := put s.fs (workingName c suffix) ⟨[], 0, uid, gid⟩
        working := s.working.opened (workingName c suffix)
        point := .write info 0 } [] info := by
  obtain ⟨f₀, hf₀, rfl⟩ := ho
  refine ⟨f₀, ⟨[], 0, uid, gid⟩, ?_, rfl, rfl, rfl, rfl, h.unlinkFailed⟩
  exact ⟨hf₀, h.fs ▸ hnew, by rw [h.fs]; rfl, rfl, rfl, .inl rfl⟩

theorem Filling.abandoned {content : List UInt8} {info : Stat} (h : Filling kept c fs₀ s content info) (e : String) :
    Abandoned kept c fs₀ (s.unwind e) := by
  obtain ⟨f₀, w, hw, -, -, -, -, hu⟩ := h
  exact .inr ⟨f₀, w, hw.goto _, hu⟩

theorem Filled.abandoned (h : Filled kept c fs₀ s) (e : String) : Abandoned kept c fs₀ (s.unwind e) := by
  obtain ⟨f₀, w, hw, -, -, hu⟩ := h
  exact .inr ⟨f₀, w, hw.goto _, hu⟩

theorem Filling.goto {content : List UInt8} {info : Stat} (h : Filling kept c fs₀ s content info) (p : Point) :
    Filling kept c fs₀ (s.goto p) content info := by
  obtain ⟨f₀, w, hw, hfd, hc, hm, hi, hu⟩ := h
  exact ⟨f₀, w, hw.goto p, hfd, hc, hm, hi, hu⟩

theorem Filled.goto (h : Filled kept c fs₀ s) (p : Point) : Filled kept c fs₀ (s.goto p) := by
  obtain ⟨f₀, w, hw, hc, hm, hu⟩ := h
  exact ⟨f₀, w, hw.goto p, hc, hm, hu⟩

/-- A change through the descriptor that leaves the mode 0. -/
theorem Filling.put {content : List UInt8} {info : Stat} {fd : Path} {f : File}
    (h : Filling kept c fs₀ s content info) (hfd : s.working.fd = some fd) (hf : s.fs fd = some (.regular f))
    (g : File → File) (p : Point) (hmode : ∀ w : File, w.mode = 0 → (g w).mode = 0) :
    Filling kept c fs₀ { s with fs := FileReplace.put s.fs fd (g f), point := p } (g f).content info := by
  obtain ⟨f₀, w, hw, hopen, hc, hm, hi, hu⟩ := h
  have hpath : fd = s.working.path := Option.some.inj (hfd.symm.trans hopen)
  rw [hpath, hw.at_path] at hf
  cases hf
  rw [hpath]
  exact ⟨f₀, g f, hw.put p (.inl (hmode f hm)), hopen, rfl, hmode f hm, hi, hu⟩

theorem Filling.content_eq {content : List UInt8} {info : Stat} {fd : Path} {f : File}
    (h : Filling kept c fs₀ s content info) (hfd : s.working.fd = some fd) (hf : s.fs fd = some (.regular f)) :
    f.content = content := by
  obtain ⟨f₀, w, hw, hopen, hc, -⟩ := h
  have hpath : fd = s.working.path := Option.some.inj (hfd.symm.trans hopen)
  rw [hpath, hw.at_path] at hf
  cases hf
  exact hc

/-- The mode that a successful `fchmod` sets is one that is `kept`. -/
def Chmods (kept : BitVec 12 → BitVec 12 → Prop) (c : Call) (s t : State) : Prop :=
  ∀ info fd f, s.point = .fchmod info → t.point = .fsync → s.working.fd = some fd → s.fs fd = some (.regular f) →
    kept (permissions info) (f.chmod (info.st_mode &&& kPermissionBits) c.inGroup).mode

theorem Filling.chmod {info : Stat} {fd : Path} {f : File} (h : Filling kept c fs₀ s c.bytes info)
    (hfd : s.working.fd = some fd) (hf : s.fs fd = some (.regular f))
    (hkept : kept (permissions info) (f.chmod (info.st_mode &&& kPermissionBits) c.inGroup).mode) :
    Filled kept c fs₀ { s with
      fs := FileReplace.put s.fs fd (f.chmod (info.st_mode &&& kPermissionBits) c.inGroup), point := .fsync } := by
  have hcontent : f.content = c.bytes := h.content_eq hfd hf
  obtain ⟨f₀, w, hw, hopen, -, -, rfl, hu⟩ := h
  have hpath : fd = s.working.path := Option.some.inj (hfd.symm.trans hopen)
  rw [permissions_stat] at hkept
  rw [hpath]
  exact ⟨f₀, _, hw.put .fsync (.inr hkept), hcontent, hkept, hu⟩

theorem Filled.renamed (h : Filled kept c fs₀ s) : ∃ f₀ w, Replaced kept c fs₀ { s with
    fs := renamed s.fs s.working.path c.target
    working := s.working.commit
    point := .fsyncFolder } f₀ w := by
  obtain ⟨f₀, w, hw, hc, hm, -⟩ := h
  refine ⟨f₀, w, hw.target, ?_, hw.free, rfl, hc, hm⟩
  rw [hw.fs]
  exact renamed_put w hw.free hw.path_ne

theorem Abandoned.unlinked (h : Abandoned kept c fs₀ s)
    (hdrop : (s.working.created && !s.working.committed) = true) : remove s.fs s.working.path = fs₀ := by
  rcases h with h | ⟨f₀, w, hw, -⟩
  · simp [h.created] at hdrop
  · rw [hw.fs]
    exact remove_put w hw.free

theorem Abandoned.unchanged (h : Abandoned kept c fs₀ s)
    (hkeep : (s.working.created && !s.working.committed) = false) : s.fs = fs₀ := by
  rcases h with h | ⟨f₀, w, hw, -⟩
  · exact h.fs
  · simp [hw.created, hw.committed] at hkeep

/-- The file that has taken the target's place stays as long as no name and no flag changes. -/
theorem Replaced.keeps {f₀ w : File} (h : Replaced kept c fs₀ s f₀ w) (hfs : t.fs = s.fs)
    (hpath : t.working.path = s.working.path) (hcommitted : t.working.committed = s.working.committed) :
    Replaced kept c fs₀ t f₀ w where
  target := h.target
  fs := hfs.trans h.fs
  free := by rw [hpath, h.free]
  committed := hcommitted.trans h.committed
  content := h.content
  mode := h.mode

theorem step_inv (h : Inv kept c fs₀ s) (hst : Step c s t) (hmode : Chmods kept c s t) : Inv kept c fs₀ t := by
  cases hst with
  | symlinkStatus kind hp => exact (h.at hp).goto _
  | canonical kind hp => exact (h.at hp).goto _
  | canonicalFails kind message hp => exact .inl (h.at hp).fs
  | status hp hk => exact (h.at hp).goto _
  | statusRefused text hp hk => exact .inl (h.at hp).fs
  | statusFails text hp hk => exact .inl (h.at hp).fs
  | stat f hp hf => exact ⟨(h.at hp).goto _, f, (h.at hp).fs ▸ hf, rfl⟩
  | statFails code hp => exact .inl (h.at hp).fs
  | accessTarget info hp => exact ⟨(h.at hp).1.goto _, (h.at hp).2⟩
  | accessTargetFails info hp => exact .inl (h.at hp).1.fs
  | accessFolder info hp => exact ⟨(h.at hp).1.goto _, (h.at hp).2⟩
  | accessFolderFails info hp => exact .inl (h.at hp).1.fs
  | openExhausted info attempt hp hmax => exact .inl ((h.at hp).1.goto _)
  | opened info attempt suffix uid gid hp hmax hnew => exact (h.at hp).1.opened (h.at hp).2 suffix uid gid hnew
  | openExists info attempt hp hmax => exact ⟨(h.at hp).1.goto _, (h.at hp).2⟩
  | openFails info attempt code hp hmax hcode => exact .inl ((h.at hp).1.goto _)
  | writeDone info offset hp hdone =>
      have hfill : Filling kept c fs₀ s (c.bytes.take offset) info := h.at hp
      rw [List.take_of_length_le hdone] at hfill
      exact hfill.goto _
  | written info offset n fd f hp hmore hfd hf hpos hle =>
      have hfill : Filling kept c fs₀ s (c.bytes.take offset) info := h.at hp
      have hput := hfill.put hfd hf (fun f => f.append ((c.bytes.drop offset).take n)) (.write info (offset + n))
        (fun w hw => hw)
      have hcontent : (f.append ((c.bytes.drop offset).take n)).content = c.bytes.take (offset + n) := by
        rw [File.append, hfill.content_eq hfd hf]
        exact List.take_add.symm
      rw [hcontent] at hput
      exact hput
  | writeZero info offset hp hmore => exact Filling.abandoned (h.at hp) _
  | writeInterrupted info offset hp hmore => exact h
  | writeFails info offset code hp hmore hcode => exact Filling.abandoned (h.at hp) _
  | fchown info fd f hp hfd hf =>
      have hfill : Filling kept c fs₀ s c.bytes info := h.at hp
      have hput := hfill.put hfd hf (fun f => f.chown info.st_uid info.st_gid) (.fchmod info) (by
        intro w hw
        simp only [File.chown, hw]
        decide)
      have hcontent : f.content = c.bytes := hfill.content_eq hfd hf
      rw [show (f.chown info.st_uid info.st_gid).content = c.bytes from hcontent] at hput
      exact hput
  | fchownFails info hp => exact Filling.goto (h.at hp) _
  | fchmod info fd f hp hfd hf => exact Filling.chmod (h.at hp) hfd hf (hmode info fd f hp rfl hfd hf)
  | fchmodFails info code hp => exact Filling.abandoned (h.at hp) _
  | fsync hp => exact Filled.goto (h.at hp) _
  | fsyncFails code hp => exact Filled.abandoned (h.at hp) _
  | close hp =>
      obtain ⟨f₀, w, hw, hc, hm, hu⟩ := h.at hp
      exact ⟨f₀, w, hw.close _, hc, hm, hu⟩
  | closeFails code hp =>
      obtain ⟨f₀, w, hw, -, -, hu⟩ := h.at hp
      exact .inr ⟨f₀, w, hw.close _, hu⟩
  | rename hp hfrom => exact Filled.renamed (h.at hp)
  | renameFails code hp => exact Filled.abandoned (h.at hp) _
  | fsyncFolder hp =>
      obtain ⟨f₀, w, hr⟩ := h.at hp
      exact ⟨f₀, w, hr.keeps rfl rfl rfl⟩
  | destroyClose result hp =>
      cases result with
      | ok _ =>
          obtain ⟨f₀, w, hr⟩ := h.at hp
          exact ⟨f₀, w, hr.keeps rfl rfl rfl⟩
      | error e =>
          rcases h.at hp with hn | ⟨f₀, w, hw, hu⟩
          · exact .inl (hn.close _)
          · exact .inr ⟨f₀, w, hw.close _, hu⟩
  | destroyKeep result hp hkeep =>
      cases result with
      | ok _ =>
          obtain ⟨f₀, w, hr⟩ := h.at hp
          exact ⟨f₀, w, hr.keeps rfl rfl rfl⟩
      | error e =>
          have ha : Abandoned kept c fs₀ s := h.at hp
          exact .inl (ha.unchanged hkeep)
  | destroyUnlink result hp hdrop =>
      cases result with
      | ok _ =>
          obtain ⟨f₀, w, hr⟩ := h.at hp
          simp [hr.committed] at hdrop
      | error e =>
          have ha : Abandoned kept c fs₀ s := h.at hp
          exact .inl (ha.unlinked hdrop)
  | destroyUnlinkFails result hp hdrop =>
      cases result with
      | ok _ =>
          obtain ⟨f₀, w, hr⟩ := h.at hp
          simp [hr.committed] at hdrop
      | error e =>
          rcases h.at hp with hn | ⟨f₀, w, hw, -⟩
          · simp [hn.created] at hdrop
          · exact .inr ⟨rfl, f₀, w, hw.target, hw.free, hw.fs, hw.created, hw.committed, hw.mode⟩

/-- A mode, or what is left of it when its set-group bit is taken away. -/
def Narrowed (m m' : BitVec 12) : Prop := m' = m ∨ m' = m &&& ~~~S_ISGID

theorem chmods_narrowed (c : Call) (s t : State) : Chmods Narrowed c s t := by
  intro info fd f _ _ _ _
  by_cases hgroup : c.inGroup f.gid = true
  · exact .inl (if_pos hgroup)
  · exact .inr (if_neg hgroup)

theorem inv (c : Call) (fs₀ : FileSystem) : (writeFileBytes c fs₀).Invariant (Inv Narrowed c fs₀) where
  init s hs := by
    subst hs
    exact ⟨rfl, rfl, rfl⟩
  step s t h hst := step_inv h hst (chmods_narrowed c s t)

/-- What a replacement is for: at one moment the old file gives way to the new one. -/
def replacement (kept : BitVec 12 → BitVec 12 → Prop) (old : Option Entry) (bytes : List UInt8) :
    System (Option Entry) where
  init e := e = old
  step e e' := e = old ∧ ∃ f₀ f, old = some (.regular f₀) ∧ e' = some (.regular f) ∧
    f.content = bytes ∧ kept f₀.mode f.mode

theorem replacement_reachable {old e : Option Entry} {bytes : List UInt8}
    (h : (replacement kept old bytes).Reachable e) :
    e = old ∨ ∃ f, e = some (.regular f) ∧ f.content = bytes := by
  have hinv : (replacement kept old bytes).Invariant
      fun e => e = old ∨ ∃ f, e = some (.regular f) ∧ f.content = bytes := by
    refine ⟨fun e he => .inl he, ?_⟩
    rintro e e' - ⟨-, f₀, f, -, he', hf, -⟩
    exact .inr ⟨f, he', hf⟩
  exact hinv.reachable h

theorem put_target {fd : Path} (f : File) (h : fd ≠ c.target) : put s.fs fd f c.target = s.fs c.target :=
  Function.update_of_ne h.symm _ _

theorem Filling.fd_ne {content : List UInt8} {info : Stat} {fd : Path} (h : Filling kept c fs₀ s content info)
    (hfd : s.working.fd = some fd) : fd ≠ c.target := by
  obtain ⟨f₀, w, hw, hopen, -⟩ := h
  have hpath : fd = s.working.path := Option.some.inj (hfd.symm.trans hopen)
  rw [hpath]
  exact hw.path_ne

/-- The steps of `WriteFileBytes` show at the target as one replacement or not at all. -/
theorem refines (kept : BitVec 12 → BitVec 12 → Prop) (c : Call) (fs₀ : FileSystem) :
    (writeFileBytes c fs₀).Refines (replacement kept (fs₀ c.target) c.bytes) (fun s => s.fs c.target)
      (Inv kept c fs₀) where
  init s hs := by
    subst hs
    rfl
  step s t h hst := by
    cases hst with
    | opened info attempt suffix uid gid hp hmax hnew =>
        exact .inl (put_target _ (workingName_ne_target c suffix))
    | written info offset n fd f hp hmore hfd hf hpos hle =>
        exact .inl (put_target _ (Filling.fd_ne (h.at hp) hfd))
    | fchown info fd f hp hfd hf => exact .inl (put_target _ (Filling.fd_ne (h.at hp) hfd))
    | fchmod info fd f hp hfd hf => exact .inl (put_target _ (Filling.fd_ne (h.at hp) hfd))
    | rename hp hfrom =>
        have hfilled : Filled kept c fs₀ s := h.at hp
        obtain ⟨f₀, w, hr⟩ := hfilled.renamed
        obtain ⟨_, _, hw, -⟩ := hfilled
        refine .inr ⟨hw.at_target, f₀, w, hr.target, ?_, hr.content, hr.mode⟩
        exact (congrFun hr.fs c.target).trans (put_self ..)
    | destroyUnlink result hp hdrop =>
        cases result with
        | ok _ =>
            obtain ⟨f₀, w, hr⟩ := h.at hp
            simp [hr.committed] at hdrop
        | error e =>
            have ha : Abandoned kept c fs₀ s := h.at hp
            have hfs : remove s.fs s.working.path c.target = fs₀ c.target := congrFun (ha.unlinked hdrop) _
            rcases ha with hn | ⟨f₀, w, hw, -⟩
            · exact .inl (hfs.trans (congrFun hn.fs.symm _))
            · exact .inl (hfs.trans hw.at_target.symm)
    | _ => exact .inl rfl

def HoldsNew (c : Call) (s : State) : Prop := ∃ f, s.fs c.target = some (.regular f) ∧ f.content = c.bytes

/-- No file under a name that was free before. -/
def NoWorkingFile (fs₀ : FileSystem) (s : State) : Prop := ∀ p, fs₀ p = none → s.fs p = none

/-- A file under a name that was free before has mode 0, or one that is `kept` of the mode of the original. -/
def ModeKept (kept : BitVec 12 → BitVec 12 → Prop) (c : Call) (fs₀ : FileSystem) (s : State) : Prop :=
  ∀ p w, fs₀ p = none → s.fs p = some (.regular w) →
    ∃ f₀, fs₀ c.target = some (.regular f₀) ∧ (w.mode = 0 ∨ kept f₀.mode w.mode)

/-- The promise of a replacement in one state of its run, with the mode of the working file one that is `kept`. -/
structure AllOrNothing (kept : BitVec 12 → BitVec 12 → Prop) (c : Call) (fs₀ : FileSystem) (s : State) : Prop where
  target : s.fs c.target = fs₀ c.target ∨ HoldsNew c s
  returned : s.point = .done (.ok ()) → HoldsNew c s ∧ NoWorkingFile fs₀ s
  threw : ∀ e, s.point = .done (.error e) →
    s.fs c.target = fs₀ c.target ∧ (s.unlinkFailed = false → NoWorkingFile fs₀ s)
  mode : ModeKept kept c fs₀ s

theorem Working.modeKept {f₀ w : File} (hw : Working kept c fs₀ s f₀ w) : ModeKept kept c fs₀ s := by
  intro p w' hfree hp
  rw [hw.fs, FileReplace.put, Function.update_apply] at hp
  by_cases heq : p = s.working.path
  · rw [if_pos heq] at hp
    cases hp
    exact ⟨f₀, hw.target, hw.mode⟩
  · rw [if_neg heq, hfree] at hp
    cases hp

theorem NoWorkingFile.modeKept (h : NoWorkingFile fs₀ s) : ModeKept kept c fs₀ s := by
  intro p w hfree hp
  rw [h p hfree] at hp
  cases hp

theorem noWorkingFile_of_eq (h : s.fs = fs₀) : NoWorkingFile fs₀ s := fun p hfree => (congrFun h p).trans hfree

theorem Replaced.noWorkingFile {f₀ w : File} (hr : Replaced kept c fs₀ s f₀ w) : NoWorkingFile fs₀ s := by
  intro p hfree
  have hne : p ≠ c.target := by
    intro heq
    rw [heq, hr.target] at hfree
    cases hfree
  rw [hr.fs, put, Function.update_of_ne hne, hfree]

theorem Replaced.holdsNew {f₀ w : File} (hr : Replaced kept c fs₀ s f₀ w) : HoldsNew c s := by
  refine ⟨w, ?_, hr.content⟩
  rw [hr.fs, put_self]

theorem Abandoned.modeKept (h : Abandoned kept c fs₀ s) : ModeKept kept c fs₀ s := by
  rcases h with hn | ⟨f₀, w, hw, -⟩
  · exact (noWorkingFile_of_eq hn.fs).modeKept
  · exact hw.modeKept

theorem inv_modeKept (h : Inv kept c fs₀ s) : ModeKept kept c fs₀ s := by
  cases hp : s.point with
  | symlinkStatus | canonical _ | status | stat => exact (noWorkingFile_of_eq (h.at hp).fs).modeKept
  | accessTarget _ | accessFolder _ | openWorking _ _ => exact (noWorkingFile_of_eq (h.at hp).1.fs).modeKept
  | write _ _ | fchown _ | fchmod _ | fsync | close | rename =>
      obtain ⟨f₀, w, hw, -⟩ := h.at hp
      exact hw.modeKept
  | fsyncFolder =>
      obtain ⟨f₀, w, hr⟩ := h.at hp
      exact hr.noWorkingFile.modeKept
  | destroyClose result | destroyUnlink result =>
      cases result with
      | ok _ =>
          obtain ⟨f₀, w, hr⟩ := h.at hp
          exact hr.noWorkingFile.modeKept
      | error e => exact Abandoned.modeKept (h.at hp)
  | done result =>
      cases result with
      | ok _ =>
          obtain ⟨f₀, w, hr⟩ := h.at hp
          exact hr.noWorkingFile.modeKept
      | error e =>
          rcases h.at hp with hfs | ⟨-, f₀, w, hw⟩
          · exact (noWorkingFile_of_eq hfs).modeKept
          · exact hw.modeKept

/-- What a run keeps that has the target and the working file as `Inv` says. -/
theorem inv_allOrNothing (h : Inv kept c fs₀ s)
    (hview : (replacement kept (fs₀ c.target) c.bytes).Reachable (s.fs c.target)) : AllOrNothing kept c fs₀ s where
  target := replacement_reachable hview
  returned hp := by
    obtain ⟨f₀, w, hr⟩ := h.at hp
    exact ⟨hr.holdsNew, hr.noWorkingFile⟩
  threw e hp := by
    rcases h.at hp with hfs | ⟨hu, f₀, w, hw⟩
    · exact ⟨congrFun hfs _, fun _ => noWorkingFile_of_eq hfs⟩
    · refine ⟨hw.at_target, fun hun => ?_⟩
      rw [hu] at hun
      cases hun
  mode := inv_modeKept h

/-! The bits that `fchmod` may leave out -/

/-- A `fchmod` that succeeds sets the mode of the original, or 0: the mode has no set-group bit, or no other bit, or the
process is in the group of the working file. -/
def SetGroupKept (c : Call) (s t : State) : Prop :=
  ∀ info fd f, s.point = .fchmod info → t.point = .fsync → s.working.fd = some fd → s.fs fd = some (.regular f) →
    c.inGroup f.gid = true ∨ permissions info &&& S_ISGID = 0 ∨ permissions info &&& ~~~S_ISGID = 0

/-- The mode that is asked for, or 0. -/
def ZeroOrSame (m m' : BitVec 12) : Prop := m' = 0 ∨ m' = m

theorem setGroupKept_iff_chmods : SetGroupKept c s t ↔ Chmods ZeroOrSame c s t := by
  refine forall_congr' fun info => forall_congr' fun fd => forall_congr' fun f => ?_
  refine imp_congr_right fun _ => imp_congr_right fun _ => imp_congr_right fun _ => imp_congr_right fun _ => ?_
  by_cases hgroup : c.inGroup f.gid = true
  · exact ⟨fun _ => .inr (if_pos hgroup), fun _ => .inl hgroup⟩
  · have hmode : (f.chmod (info.st_mode &&& kPermissionBits) c.inGroup).mode = permissions info &&& ~~~S_ISGID :=
      if_neg hgroup
    rw [hmode, ZeroOrSame, and_not_eq_self]
    constructor
    · rintro (hin | hnone | honly)
      · exact absurd hin hgroup
      · exact .inr hnone
      · exact .inl honly
    · rintro (honly | hnone)
      · exact .inr (.inr honly)
      · exact .inr (.inl hnone)

theorem setGroupKept_of_inGroup (h : ∀ gid, c.inGroup gid = true) : SetGroupKept c s t :=
  fun _ _ f _ _ _ _ => .inl (h f.gid)

theorem inv_of_setGroupKept (c : Call) (fs₀ : FileSystem) :
    ((writeFileBytes c fs₀).restrict (SetGroupKept c)).Invariant (Inv ZeroOrSame c fs₀) where
  init s hs := by
    subst hs
    exact ⟨rfl, rfl, rfl⟩
  step _ _ h hst := step_inv h hst.1 (setGroupKept_iff_chmods.mp hst.2)

theorem all_or_nothing_narrowed (h : (writeFileBytes c fs₀).Reachable s) : AllOrNothing Narrowed c fs₀ s :=
  inv_allOrNothing ((inv c fs₀).reachable h) ((refines Narrowed c fs₀).reachable (inv c fs₀) h)

theorem all_or_nothing_of_setGroupKept (h : ((writeFileBytes c fs₀).restrict (SetGroupKept c)).Reachable s) :
    AllOrNothing Eq c fs₀ s := by
  have hnarrowed := all_or_nothing_narrowed h.of_restrict
  refine ⟨hnarrowed.target, hnarrowed.returned, hnarrowed.threw, ?_⟩
  intro p w hfree hp
  obtain ⟨f₀, hf₀, hzero | hzero | hsame⟩ := inv_modeKept ((inv_of_setGroupKept c fs₀).reachable h) p w hfree hp
  · exact ⟨f₀, hf₀, .inl hzero⟩
  · exact ⟨f₀, hf₀, .inl hzero⟩
  · exact ⟨f₀, hf₀, .inr hsame.symm⟩

/-- The step between the calls of `fchmod` and `fsync`. -/
theorem fchmod_of_points {info : Stat} (hst : Step c s t) (hs : s.point = .fchmod info) (ht : t.point = .fsync) :
    ∃ fd f, s.working.fd = some fd ∧ s.fs fd = some (.regular f) ∧
      t.fs = put s.fs fd (f.chmod (info.st_mode &&& kPermissionBits) c.inGroup) := by
  cases hst with
  | fchmod info' fd f hp hfd hf =>
      obtain rfl := Point.fchmod.inj (hp.symm.trans hs)
      exact ⟨fd, f, hfd, hf, rfl⟩
  | fchmodFails => cases ht
  | _ => cases hs.symm.trans ‹s.point = _›

theorem setGroupKept_of_mode (h : Inv Narrowed c fs₀ s) (hst : Step c s t) (hmode : ModeKept Eq c fs₀ t) :
    SetGroupKept c s t := by
  rw [setGroupKept_iff_chmods]
  intro info fd f hs ht hfd hf
  obtain ⟨f₀, w, hw, hopen, -, -, rfl, -⟩ := h.at hs
  obtain ⟨fd', f', hfd', hf', hfs⟩ := fchmod_of_points hst hs ht
  obtain rfl := Option.some.inj (hfd'.symm.trans hfd)
  obtain rfl := Entry.regular.inj (Option.some.inj (hf'.symm.trans hf))
  have hfree : fs₀ fd' = none := by
    rw [Option.some.inj (hfd'.symm.trans hopen)]
    exact hw.free
  obtain ⟨f₁, hf₁, hkept⟩ := hmode fd' _ hfree (by rw [hfs, put_self])
  obtain rfl := Entry.regular.inj (Option.some.inj (hf₁.symm.trans hw.target))
  rw [permissions_stat]
  exact hkept.imp_right Eq.symm

/-- In every run the target has its old or its new content and no working file is left; and a run keeps the mode of the
working file too just as long as no `fchmod` takes the set-group bit away. -/
theorem replacement_all_or_nothing_iff (c : Call) (fs₀ : FileSystem) :
    (∀ s, (writeFileBytes c fs₀).Reachable s → AllOrNothing Narrowed c fs₀ s) ∧
    (∀ s, ((writeFileBytes c fs₀).restrict (SetGroupKept c)).Reachable s → AllOrNothing Eq c fs₀ s) ∧
    ∀ s t, ((writeFileBytes c fs₀).restrict (SetGroupKept c)).Reachable s → Step c s t →
      (AllOrNothing Eq c fs₀ t ↔ SetGroupKept c s t) := by
  refine ⟨fun _ => all_or_nothing_narrowed, fun _ => all_or_nothing_of_setGroupKept, ?_⟩
  intro s t h hst
  constructor
  · intro ht
    exact setGroupKept_of_mode ((inv c fs₀).reachable h.of_restrict) hst ht.mode
  · intro hkept
    exact all_or_nothing_of_setGroupKept (h.next ⟨hst, hkept⟩)

/-! A run that meets a taken name, a short write and an interrupted one, on a file with the set-group bit -/

def sampleCall (inGroup : Bool) : Call := ⟨"a", ⟨"/", "a"⟩, [1, 2], "7", fun _ => "error", fun _ => inGroup⟩

def sampleFile : File := ⟨[9], 0o2666#12, 0, 5⟩

def sampleTarget : Path := ⟨"/", "a"⟩

def sampleFs : FileSystem := put (fun _ => none) sampleTarget sampleFile

def sampleWorking : WorkingFile := WorkingFile.empty.opened (workingName (sampleCall true) "x")

def sampleState (f : File) (p : Point) : State := ⟨put sampleFs sampleWorking.path f, sampleWorking, p, false⟩

theorem sampleWorking_free : sampleFs sampleWorking.path = none := by
  rw [sampleFs, put]
  exact Function.update_of_ne (workingName_ne_target (sampleCall true) "x") _ _

theorem sampleState_path (f : File) (p : Point) :
    (sampleState f p).fs sampleWorking.path = some (.regular f) := by
  simp only [sampleState, put_self]

/-- The working file when `fchmod` has succeeded -/
def sampleFilled (inGroup : Bool) : File := ⟨[1, 2], if inGroup then 0o2666#12 else 0o666#12, 0, 5⟩

theorem sample_filled {P : State → State → Prop} (inGroup : Bool) (hP : ∀ s t, P s t) :
    ((writeFileBytes (sampleCall inGroup) sampleFs).restrict P).Reachable (sampleState (sampleFilled inGroup) .fsync) := by
  have h0 : ((writeFileBytes (sampleCall inGroup) sampleFs).restrict P).Reachable (start sampleFs) := .start rfl
  have h1 := h0.next ⟨.symlinkStatus _ .regular rfl, hP _ _⟩
  have h2 := h1.next ⟨.canonical _ _ rfl, hP _ _⟩
  have h3 := h2.next ⟨.status _ rfl rfl, hP _ _⟩
  have h4 := h3.next ⟨.stat _ sampleFile rfl (put_self (fun _ => none) sampleTarget _), hP _ _⟩
  have h5 := h4.next ⟨.accessTarget _ _ rfl, hP _ _⟩
  have h6 := h5.next ⟨.accessFolder _ _ rfl, hP _ _⟩
  have h7 := h6.next ⟨.openExists _ _ _ rfl (by decide), hP _ _⟩
  have h8 : ((writeFileBytes (sampleCall inGroup) sampleFs).restrict P).Reachable
      (sampleState ⟨[], 0, 0, 5⟩ (.write sampleFile.stat 0)) :=
    h7.next ⟨.opened _ _ _ "x" 0 5 rfl (by decide) sampleWorking_free, hP _ _⟩
  have h9 : ((writeFileBytes (sampleCall inGroup) sampleFs).restrict P).Reachable
      (sampleState ⟨[1], 0, 0, 5⟩ (.write sampleFile.stat 1)) := by
    have hstep := Step.written (c := sampleCall inGroup) (sampleState ⟨[], 0, 0, 5⟩ (.write sampleFile.stat 0))
      _ 0 1 _ _ rfl Nat.two_pos rfl (sampleState_path _ _) Nat.one_pos (Nat.le_succ 1)
    rw [sampleState, ← put_put _ _ ⟨[], 0, 0, 5⟩]
    exact h8.next ⟨hstep, hP _ _⟩
  have h10 := h9.next ⟨.writeInterrupted _ _ _ rfl Nat.one_lt_two, hP _ _⟩
  have h11 : ((writeFileBytes (sampleCall inGroup) sampleFs).restrict P).Reachable
      (sampleState ⟨[1, 2], 0, 0, 5⟩ (.write sampleFile.stat 2)) := by
    have hstep := Step.written (c := sampleCall inGroup) (sampleState ⟨[1], 0, 0, 5⟩ (.write sampleFile.stat 1))
      _ 1 1 _ _ rfl Nat.one_lt_two rfl (sampleState_path _ _) Nat.one_pos (Nat.le_refl 1)
    rw [sampleState, ← put_put _ _ ⟨[1], 0, 0, 5⟩]
    exact h10.next ⟨hstep, hP _ _⟩
  have h12 := h11.next ⟨.writeDone _ _ _ rfl (Nat.le_refl 2), hP _ _⟩
  have h13 : ((writeFileBytes (sampleCall inGroup) sampleFs).restrict P).Reachable
      (sampleState ⟨[1, 2], 0, 0, 5⟩ (.fchmod sampleFile.stat)) := by
    have hstep := Step.fchown (c := sampleCall inGroup) (sampleState ⟨[1, 2], 0, 0, 5⟩ (.fchown sampleFile.stat))
      _ _ _ rfl rfl (sampleState_path _ _)
    rw [sampleState, ← put_put _ _ ⟨[1, 2], 0, 0, 5⟩]
    exact h12.next ⟨hstep, hP _ _⟩
  have hstep := Step.fchmod (c := sampleCall inGroup) (sampleState ⟨[1, 2], 0, 0, 5⟩ (.fchmod sampleFile.stat))
    _ _ _ rfl rfl (sampleState_path _ _)
  rw [sampleState, ← put_put _ _ ⟨[1, 2], 0, 0, 5⟩]
  cases inGroup <;> exact h13.next ⟨hstep, hP _ _⟩

theorem sample_returns {P : State → State → Prop} (inGroup : Bool) (hP : ∀ s t, P s t) :
    ∃ s, ((writeFileBytes (sampleCall inGroup) sampleFs).restrict P).Reachable s ∧ s.point = .done (.ok ()) ∧
      s.fs sampleTarget = some (.regular (sampleFilled inGroup)) := by
  have hpath : sampleWorking.path ≠ sampleTarget := workingName_ne_target (sampleCall true) "x"
  have h14 := sample_filled inGroup hP
  have h15 := h14.next ⟨.fsync _ rfl, hP _ _⟩
  have h16 := h15.next ⟨.close _ rfl, hP _ _⟩
  have h17 := h16.next ⟨.rename _ rfl (ne_of_eq_of_ne (sampleState_path _ .fsync) (Option.some_ne_none _)), hP _ _⟩
  have h18 := h17.next ⟨.fsyncFolder _ rfl, hP _ _⟩
  have h19 := h18.next ⟨.destroyClose _ _ rfl, hP _ _⟩
  have h20 : ((writeFileBytes (sampleCall inGroup) sampleFs).restrict P).Reachable
      ⟨renamed (sampleState (sampleFilled inGroup) .fsync).fs sampleWorking.path sampleTarget,
        sampleWorking.close.commit.close, .done (.ok ()), false⟩ :=
    h19.next ⟨.destroyKeep _ _ rfl rfl, hP _ _⟩
  have htarget : renamed (sampleState (sampleFilled inGroup) .fsync).fs sampleWorking.path sampleTarget sampleTarget =
      some (.regular (sampleFilled inGroup)) := by
    rw [renamed, remove, Function.update_of_ne hpath.symm, Function.update_self]
    exact sampleState_path _ .fsync
  exact ⟨_, h20, rfl, htarget⟩

theorem replacement_all_or_nothing_sample : ∃ s,
    ((writeFileBytes (sampleCall true) sampleFs).restrict (SetGroupKept (sampleCall true))).Reachable s ∧
      s.point = .done (.ok ()) ∧ AllOrNothing Eq (sampleCall true) sampleFs s := by
  obtain ⟨s, h, hdone, -⟩ := sample_returns (P := SetGroupKept (sampleCall true)) true fun _ _ =>
    setGroupKept_of_inGroup fun _ => rfl
  exact ⟨s, h, hdone, (replacement_all_or_nothing_iff (sampleCall true) sampleFs).2.1 s h⟩

/-- A process that is not in the group of the file loses the set-group bit. -/
theorem set_group_bit_lost : ∃ s t, (writeFileBytes (sampleCall false) sampleFs).Reachable s ∧
    ¬AllOrNothing Eq (sampleCall false) sampleFs s ∧ (writeFileBytes (sampleCall false) sampleFs).Reachable t ∧
      t.point = .done (.ok ()) ∧ ∃ w, t.fs sampleTarget = some (.regular w) ∧ w.mode ≠ sampleFile.mode := by
  have hs := sample_filled (P := fun _ _ => True) false fun _ _ => trivial
  obtain ⟨t, ht, hdone, htarget⟩ := sample_returns (P := fun _ _ => True) false fun _ _ => trivial
  refine ⟨_, t, hs.of_restrict, ?_, ht.of_restrict, hdone, _, htarget, by decide⟩
  intro h
  obtain ⟨f₀, hf₀, hmode⟩ := h.mode sampleWorking.path (sampleFilled false) sampleWorking_free (sampleState_path _ _)
  have hsample : sampleFs sampleTarget = some (.regular sampleFile) := put_self ..
  obtain rfl := Entry.regular.inj (Option.some.inj (hsample.symm.trans hf₀))
  revert hmode
  decide

end TheSeed.FileReplaceRuns
