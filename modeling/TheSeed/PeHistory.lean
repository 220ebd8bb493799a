import TheSeed.PeFingerprint

namespace TheSeed.PeHistory

open Bytes Checked BoundedBytes PeSigner PeShape PeEffects PeFingerprint

/-! What a run of signing and stripping leaves: the last signature decides the whole file, and the file is
one the signer accepts. -/

variable {layout : PeLayout} {table : CertificateTable} {bytes file out blob signature : List UInt8} {kept address : Nat}

/-- Two byte strings of one length that agree wherever `P` does not hold. -/
def AgreeOutside (P : Nat → Prop) (a b : List UInt8) : Prop :=
  a.length = b.length ∧ ∀ i, ¬P i → a[i]? = b[i]?

theorem AgreeOutside.overwrite {P : Nat → Prop} {a b : List UInt8} (h : AgreeOutside P a b) (offset : Nat)
    (data : List UInt8) :
    AgreeOutside (fun i => P i ∧ ¬(offset ≤ i ∧ i < offset + data.length)) (overwrite a offset data)
      (overwrite b offset data) := by
  obtain ⟨hlen, hagree⟩ := h
  refine ⟨by rw [length_overwrite, length_overwrite, hlen], ?_⟩
  intro i hi
  rw [getElem?_overwrite, getElem?_overwrite, hlen]
  by_cases hin : offset ≤ i ∧ i < offset + data.length
  · by_cases hend : i < b.length
    · rw [if_pos ⟨hin.1, hin.2, hend⟩, if_pos ⟨hin.1, hin.2, hend⟩]
    · rw [if_neg (by omega), if_neg (by omega), List.getElem?_eq_none (by omega), List.getElem?_eq_none (by omega)]
  · rw [if_neg (by omega), if_neg (by omega)]
    apply hagree
    intro hp
    exact hi ⟨hp, hin⟩

theorem AgreeOutside.mono {P Q : Nat → Prop} {a b : List UInt8} (h : AgreeOutside P a b) (hPQ : ∀ i, P i → Q i) :
    AgreeOutside Q a b :=
  ⟨h.1, fun i hi => h.2 i fun hp => hi (hPQ i hp)⟩

theorem AgreeOutside.eq {P : Nat → Prop} {a b : List UInt8} (h : AgreeOutside P a b) (hP : ∀ i, ¬P i) : a = b := by
  apply List.ext_getElem?
  intro i
  exact h.2 i (hP i)

/-- The positions of the CheckSum field and the certificate directory entry. -/
def InFields (layout : PeLayout) (i : Nat) : Prop :=
  (layout.checksumOffset ≤ i ∧ i < layout.checksumOffset + 4) ∨
    (layout.ddSecurityOffset ≤ i ∧ i < layout.ddSecurityOffset + 8)

/-- The program that a signature is put behind: what is kept, padded to a multiple of eight. -/
def padded (bytes : List UInt8) (kept : Nat) : List UInt8 :=
  bytes.take kept ++ List.replicate (padTo8 kept) 0

theorem length_padded (h : kept ≤ bytes.length) : (padded bytes kept).length = kept + padTo8 kept := by
  rw [padded, List.length_append, List.length_take_of_le h, List.length_replicate]

theorem keptAndZeros_eq : keptAndZeros bytes blob kept =
    padded bytes kept ++ List.replicate (newTable kept blob.length).size 0 := by
  rw [keptAndZeros, padded, List.append_assoc, List.replicate_append_replicate]

/-- The checksum does not depend on what is in its field. -/
theorem withChecksum_congr {a b : List UInt8}
    (h : AgreeOutside (fun i => layout.checksumOffset ≤ i ∧ i < layout.checksumOffset + 4) a b) :
    withChecksum a layout = withChecksum b layout := by
  have hzero : overwrite a layout.checksumOffset (leBytes 4 0) = overwrite b layout.checksumOffset (leBytes 4 0) := by
    apply (h.overwrite layout.checksumOffset (leBytes 4 0)).eq
    intro i hi
    rw [length_leBytes] at hi
    exact hi.2 hi.1
  have hsum : fileChecksum a layout.checksumOffset = fileChecksum b layout.checksumOffset := by
    rw [fileChecksum, fileChecksum, hzero]
  rw [withChecksum, withChecksum, hsum]
  apply (h.overwrite layout.checksumOffset _).eq
  intro i hi
  rw [length_leBytes] at hi
  exact hi.2 hi.1

theorem withEntry_agree {a b : List UInt8} {address size : Nat} (h : AgreeOutside (InFields layout) a b) :
    AgreeOutside (fun i => layout.checksumOffset ≤ i ∧ i < layout.checksumOffset + 4)
      (withEntry a layout address size) (withEntry b layout address size) := by
  refine ((h.overwrite _ (leBytes 4 address)).overwrite _ (leBytes 4 size)).mono ?_
  intro i hi
  simp only [length_leBytes, InFields] at hi
  omega

/-- What embedding makes depends on the padded program only, outside the two fields. -/
theorem embedImage_congr {a b : List UInt8} {ka kb : Nat} (hlen : ka + padTo8 ka = kb + padTo8 kb)
    (h : AgreeOutside (InFields layout) (padded a ka) (padded b kb)) :
    embedImage a blob layout ka = embedImage b blob layout kb := by
  have hzeros : AgreeOutside (InFields layout) (keptAndZeros a blob ka) (keptAndZeros b blob kb) := by
    rw [keptAndZeros_eq, keptAndZeros_eq]
    have hl := h.1
    refine ⟨by simp only [List.length_append, hl, newTable, List.length_replicate], ?_⟩
    intro i hi
    rw [List.getElem?_append, List.getElem?_append, hl, h.2 i hi]
    rfl
  rw [embedImage, embedImage, hlen]
  apply withChecksum_congr
  apply withEntry_agree
  refine ((((hzeros.overwrite _ _).overwrite _ _).overwrite _ _).overwrite _ _).mono ?_
  intro i hi
  exact hi.1.1.1.1

theorem SameBelow.getElem? {limit i : Nat} {a b : List UInt8} (h : SameBelow layout limit a b) (hi : i < limit)
    (hf : ¬InFields layout i) : a[i]? = b[i]? := by
  rw [InFields] at hf
  have hs := h i 1 (by omega) (by omega) (by omega)
  have hfirst := congrArg (fun s : List UInt8 => s[0]?) hs
  simpa only [getElem?_slice, Nat.lt_one_iff, if_true, Nat.add_zero] using hfirst

theorem getElem?_of_zeros {offset count i : Nat} (h : slice bytes offset count = List.replicate count 0)
    (hlow : offset ≤ i) (hhigh : i < offset + count) : bytes[i]? = some 0 := by
  have hs := congrArg (fun s : List UInt8 => s[i - offset]?) h
  simp only [getElem?_slice, List.getElem?_replicate] at hs
  rw [if_pos (by omega), if_pos (by omega), Nat.add_sub_cancel' hlow] at hs
  exact hs

theorem getElem?_padded {i : Nat} (h : kept ≤ bytes.length) : (padded bytes kept)[i]? =
    if i < kept then bytes[i]? else if i < kept + padTo8 kept then some 0 else none := by
  rw [padded, List.getElem?_append, List.length_take_of_le h]
  by_cases hi : i < kept
  · rw [if_pos hi, if_pos hi, List.getElem?_take, if_pos hi]
  · rw [if_neg hi, if_neg hi, List.getElem?_replicate]
    by_cases hj : i < kept + padTo8 kept
    · rw [if_pos (by omega), if_pos hj]
    · rw [if_neg (by omega), if_neg hj]

/-- A file on the way holds the padded program of the first one, outside the two fields. -/
structure Holds (file : List UInt8) (layout : PeLayout) (kept : Nat) (bytes : List UInt8)
    (table : CertificateTable) : Prop where
  shape : HeaderShape bytes layout
  entry : TableShape bytes layout table
  ends : keptSize bytes table + padTo8 (keptSize bytes table) = kept + padTo8 kept
  same : AgreeOutside (InFields layout) (padded file kept) (padded bytes (keptSize bytes table))

theorem Holds.start (hshape : HeaderShape file layout) (htable : TableShape file layout table) :
    Holds file layout (keptSize file table) file table :=
  ⟨hshape, htable, rfl, rfl, fun _ _ => rfl⟩

/-- After embedding, the table starts behind the padded program. -/
theorem Holds.embedded (h : Holds file layout kept bytes table)
    (he : Embedded bytes blob layout (keptSize bytes table) out) :
    Holds file layout kept out (newTable (keptSize bytes table) blob.length) := by
  have hk := keptSize_bounds h.shape h.entry
  have hends := h.ends
  have hsame := h.same
  have hlen := he.ends
  generalize keptSize bytes table = old at *
  have hnew : keptSize out (newTable old blob.length) = old + padTo8 old := rfl
  have haligned : padTo8 (old + padTo8 old) = 0 := padTo8_of_mod_eq_zero (add_padTo8_mod old)
  simp only [newTable] at hlen
  refine ⟨he.shape, he.table, by rw [hnew, haligned]; omega, ?_⟩
  rw [hnew]
  have hout : old + padTo8 old ≤ out.length := by omega
  refine ⟨by rw [hsame.1, length_padded hk.2, length_padded hout, haligned, Nat.add_zero], ?_⟩
  intro i hi
  rw [hsame.2 i hi, getElem?_padded hk.2, getElem?_padded hout, haligned, Nat.add_zero]
  by_cases hlow : i < old
  · rw [if_pos hlow, if_pos (by omega), SameBelow.getElem? he.same hlow hi]
  · rw [if_neg hlow]
    by_cases hpad : i < old + padTo8 old
    · rw [if_pos hpad, if_pos hpad, getElem?_of_zeros he.padding (by omega) hpad]
    · rw [if_neg hpad, if_neg hpad]

/-- Stripping a table at a multiple of eight takes zeros that padding brings back. -/
theorem Holds.stripped (h : Holds file layout kept bytes table) (hp : table.present = true)
    (haligned : table.address % 8 = 0) (hs : Stripped bytes layout table.address out) :
    Holds file layout kept out { present := false } := by
  have hk := keptSize_bounds h.shape h.entry
  have hends := h.ends
  have hsame := h.same
  have hkept : keptSize bytes table = table.address := by rw [keptSize, if_pos hp]
  rw [hkept] at hk hends hsame
  rw [padTo8_of_mod_eq_zero haligned, Nat.add_zero] at hends
  have hshort := hs.short
  have hfew := hs.few
  have hpad : out.length + padTo8 out.length = table.address := by
    unfold padTo8
    omega
  have hout : keptSize out { present := false } = out.length := rfl
  refine ⟨hs.shape, hs.table, by rw [hout, hpad, hends], ?_⟩
  rw [hout]
  refine ⟨by rw [hsame.1, length_padded hk.2, length_padded le_rfl, hpad, padTo8_of_mod_eq_zero haligned, Nat.add_zero],
    ?_⟩
  intro i hi
  rw [hsame.2 i hi, getElem?_padded hk.2, getElem?_padded le_rfl, hpad, padTo8_of_mod_eq_zero haligned, Nat.add_zero]
  by_cases hlow : i < out.length
  · rw [if_pos hlow, if_pos (by omega), SameBelow.getElem? hs.same hlow hi]
  · rw [if_neg hlow]
    by_cases haddress : i < table.address
    · rw [if_pos haddress, if_pos haddress, getElem?_of_zeros hs.zeros (by omega) (by omega)]
    · rw [if_neg haddress, if_neg haddress]

/-- The same, with a table at a multiple of eight where there is one. -/
def HoldsAligned (file : List UInt8) (layout : PeLayout) (kept : Nat) (bytes : List UInt8) : Prop :=
  ∃ table, Holds file layout kept bytes table ∧ (table.present = true → table.address % 8 = 0)

theorem Holds.embed (h : Holds file layout kept bytes table) (hrun : embedSignature bytes blob = .ok out) :
    HoldsAligned file layout kept out := by
  obtain ⟨l, t, hl, ht, he⟩ := embedSignature_embedded hrun
  obtain rfl := headerShape_unique hl h.shape
  obtain rfl := tableShape_unique ht h.entry
  exact ⟨_, h.embedded he, fun _ => add_padTo8_mod _⟩

theorem HoldsAligned.run (bytes : List UInt8) (call : SignerCall) (out : List UInt8)
    (h : HoldsAligned file layout kept bytes) (hrun : call.run bytes = .ok out) : HoldsAligned file layout kept out := by
  obtain ⟨table, h, haligned⟩ := h
  cases call with
  | embed blob => exact h.embed hrun
  | strip =>
      obtain ⟨l, t, hl, ht, hs⟩ := stripSignature_stripped hrun
      obtain rfl := headerShape_unique hl h.shape
      obtain rfl := tableShape_unique ht h.entry
      rcases hs with ⟨-, rfl⟩ | ⟨hp, hs⟩
      · exact ⟨_, h, haligned⟩
      · exact ⟨_, h.stripped hp (haligned hp) hs, nofun⟩

/-- The last signature put on a file on the way makes what it makes of the first one. -/
theorem Holds.embed_eq {first : CertificateTable} (hshape : HeaderShape file layout)
    (htable : TableShape file layout first) (h : Holds file layout (keptSize file first) bytes table)
    (hone : embedSignature file signature = .ok out) {result : List UInt8}
    (hlast : embedSignature bytes signature = .ok result) : result = out := by
  obtain ⟨l, t, hl, ht, -, -, -, rfl⟩ := embedSignature_eq_ok.mp hone
  obtain rfl := headerShape_unique hl hshape
  obtain rfl := tableShape_unique ht htable
  obtain ⟨m, u, hm, hu, -, -, -, rfl⟩ := embedSignature_eq_ok.mp hlast
  obtain rfl := headerShape_unique hm h.shape
  obtain rfl := tableShape_unique hu h.entry
  exact (embedImage_congr h.ends.symm h.same).symm

/-- A run of calls that starts and ends with embedding makes what its last call alone makes of the file. -/
theorem embed_history_independent {file signature out result : List UInt8} {calls : List SignerCall}
    (hone : embedSignature file signature = .ok out) (hfirst : ∃ first, calls.head? = some (.embed first))
    (hlast : calls.getLast? = some (.embed signature)) (hruns : runCalls file calls = .ok result) : result = out := by
  obtain ⟨first, hfirst⟩ := hfirst
  obtain ⟨before, rfl⟩ : ∃ before, calls = before ++ [.embed signature] := List.getLast?_eq_some_iff.mp hlast
  obtain ⟨layout, table, hshape, htable, -⟩ := embedSignature_embedded hone
  rw [runCalls, List.foldlM_append] at hruns
  obtain ⟨bytes, hbefore, hruns⟩ := bind_eq_ok.mp hruns
  obtain ⟨next, hrun, hruns⟩ := foldlM_cons_eq_ok.mp hruns
  cases hruns
  have hstart := Holds.start hshape htable
  cases before with
  | nil =>
      cases hbefore
      exact hstart.embed_eq hshape htable hone hrun
  | cons call rest =>
      obtain rfl : call = .embed first := Option.some.inj hfirst
      obtain ⟨next, hembed, hrest⟩ := foldlM_cons_eq_ok.mp hbefore
      obtain ⟨t, h, -⟩ := foldlM_invariant (HoldsAligned file layout (keptSize file table)) HoldsAligned.run
        (hstart.embed hembed) hrest
      exact h.embed_eq hshape htable hone hrun

theorem embed_history_independent_sample : ∃ out result, embedSignature (smallProgram 0 0 [1]) [5] = .ok out ∧
    runCalls (smallProgram 0 0 [1]) [.embed [1, 2, 3], .strip, .embed [5]] = .ok result ∧ result = out := by
  have hone : (embedSignature (smallProgram 0 0 [1]) [5]).isOk = true := by decide +kernel
  have hruns : (runCalls (smallProgram 0 0 [1]) [.embed [1, 2, 3], .strip, .embed [5]]).isOk = true := by decide +kernel
  obtain ⟨out, hone⟩ := exists_of_isOk hone
  obtain ⟨result, hruns⟩ := exists_of_isOk hruns
  exact ⟨out, result, hone, hruns, embed_history_independent hone ⟨[1, 2, 3], rfl⟩ rfl hruns⟩

/-! Which files the signer accepts, and which of them it can strip. -/

/-- The headers and the certificate table pass every check. -/
def Accepted (bytes : List UInt8) : Prop :=
  ∃ layout table, parsePeLayout { bytes, format := kFormat } = .ok layout ∧
    validateCertificateTable { bytes, format := kFormat } layout = .ok table

theorem accepted_iff : Accepted bytes ↔ ∃ layout table, HeaderShape bytes layout ∧ TableShape bytes layout table := by
  constructor
  · rintro ⟨layout, table, hlayout, htable⟩
    have hshape : HeaderShape bytes layout := parsePeLayout_shape hlayout
    exact ⟨layout, table, hshape, (validateCertificateTable_eq_ok hshape.fits).mp htable⟩
  · rintro ⟨layout, table, hshape, htable⟩
    exact ⟨layout, table, parsePeLayout_of_shape hshape, (validateCertificateTable_eq_ok hshape.fits).mpr htable⟩

theorem accepted_of_run {call : SignerCall} {out : List UInt8} (hrun : call.run bytes = .ok out) : Accepted out := by
  apply accepted_iff.mpr
  cases call with
  | embed blob =>
      obtain ⟨layout, table, -, -, he⟩ := embedSignature_embedded hrun
      exact ⟨_, _, he.shape, he.table⟩
  | strip =>
      obtain ⟨layout, table, hshape, htable, hs⟩ := stripSignature_stripped hrun
      rcases hs with ⟨-, rfl⟩ | ⟨-, hs⟩
      · exact ⟨_, _, hshape, htable⟩
      · exact ⟨_, _, hs.shape, hs.table⟩

/-- The cut of a strip passes a limit exactly when only zeros are above it and few of them. -/
theorem trimPadding_lt_iff (bytes : List UInt8) (floor removable : Nat) {limit newSize : Nat} (h : limit ≤ newSize) :
    trimPadding bytes floor removable newSize < limit ↔ floor < limit ∧ newSize < limit + removable ∧
      ∀ i, limit ≤ i + 1 → i < newSize → bytes[i]? = some 0 := by
  induction removable generalizing newSize with
  | zero =>
      rw [trimPadding]
      omega
  | succ removable ih =>
      rw [trimPadding]
      split
      · rename_i hzero
        by_cases hlimit : limit ≤ newSize - 1
        · rw [ih hlimit]
          constructor
          · rintro ⟨hfloor, hfew, hall⟩
            refine ⟨hfloor, by omega, ?_⟩
            intro i hlow hhigh
            by_cases hlast : i = newSize - 1
            · rw [hlast]
              exact hzero.2
            · exact hall i hlow (by omega)
          · rintro ⟨hfloor, hfew, hall⟩
            exact ⟨hfloor, by omega, fun i hlow hhigh => hall i hlow (by omega)⟩
        · have hle := trimPadding_le bytes floor removable (newSize - 1)
          constructor
          · intro _
            refine ⟨by omega, by omega, ?_⟩
            intro i hlow hhigh
            obtain rfl : i = newSize - 1 := by omega
            exact hzero.2
          · intro _
            omega
      · rename_i hstop
        constructor
        · intro hlt
          omega
        · rintro ⟨hfloor, -, hall⟩
          exact absurd ⟨by omega, hall (newSize - 1) (by omega) (by omega)⟩ hstop

/-- Stripping cannot cut into the certificate directory entry: there is nothing to strip, the floor is
behind the entry, or a byte that is not zero is close enough before the table. -/
def headersKept (bytes : List UInt8) (layout : PeLayout) (table : CertificateTable) (floor : Nat) : Bool :=
  let headersEnd := layout.ddSecurityOffset + 8
  !table.present || headersEnd ≤ floor || headersEnd + 7 ≤ table.address ||
    (slice bytes (headersEnd - 1) (table.address - (headersEnd - 1))).any (· ≠ 0)

theorem headersKept_iff {floor : Nat} (htable : TableShape bytes layout table) (hp : table.present = true) :
    headersKept bytes layout table floor = true ↔
      layout.ddSecurityOffset + 8 ≤ trimPadding bytes floor 7 table.address := by
  have hbehind := htable.behind hp
  have hfit := htable.fits hp
  have hcut := trimPadding_lt_iff bytes floor 7 hbehind
  rw [← Nat.not_lt, hcut]
  simp only [headersKept, hp, Bool.not_true, Bool.false_or, Bool.or_eq_true, decide_eq_true_eq, List.any_eq_true]
  constructor
  · rintro ((hfloor | haddress) | ⟨b, hb, hne⟩) ⟨hlow, hfew, hall⟩
    · omega
    · omega
    · obtain ⟨i, hi⟩ := List.getElem?_of_mem hb
      rw [getElem?_slice] at hi
      split at hi
      · rw [hall _ (by omega) (by omega)] at hi
        exact hne (Option.some.inj hi).symm
      · cases hi
  · intro hnot
    by_contra hno
    simp only [not_or, not_exists, not_and] at hno
    obtain ⟨⟨hfloor, haddress⟩, hzeros⟩ := hno
    apply hnot
    refine ⟨by omega, by omega, ?_⟩
    intro i hlow hhigh
    have hi : (slice bytes (layout.ddSecurityOffset + 8 - 1) (table.address - (layout.ddSecurityOffset + 8 - 1)))[
        i - (layout.ddSecurityOffset + 7)]? = bytes[i]? := by
      rw [getElem?_slice, if_pos (by omega)]
      congr 1
      omega
    have hmem := List.mem_of_getElem? (hi.trans (List.getElem?_eq_getElem (show i < bytes.length by omega)))
    rw [List.getElem?_eq_getElem (show i < bytes.length by omega)]
    congr 1
    exact of_not_not (hzeros _ hmem)

/-- What any run of calls leaves is accepted, and it can be stripped exactly when its headers are kept. -/
theorem run_accepted_and_strips_iff {result : List UInt8} {calls : List SignerCall} (haccepted : Accepted file)
    (hruns : runCalls file calls = .ok result) :
    Accepted result ∧ ∃ layout table floor, parsePeLayout { bytes := result, format := kFormat } = .ok layout ∧
      validateCertificateTable { bytes := result, format := kFormat } layout = .ok table ∧
      stripFloor { bytes := result, format := kFormat } layout = .ok floor ∧
      ((∃ out, stripSignature result = .ok out) ↔ headersKept result layout table floor = true) := by
  have hresult := foldlM_invariant Accepted (fun _ _ _ _ => accepted_of_run) haccepted hruns
  refine ⟨hresult, ?_⟩
  obtain ⟨layout, table, hshape, htable⟩ := accepted_iff.mp hresult
  obtain ⟨floor, hfloor⟩ := stripFloor_ok { bytes := result, format := kFormat } layout
  refine ⟨layout, table, floor, parsePeLayout_of_shape hshape, (validateCertificateTable_eq_ok hshape.fits).mpr htable,
    hfloor, ?_⟩
  constructor
  · rintro ⟨out, hstrip⟩
    obtain ⟨l, t, f, hl, ht, hf, hout⟩ := stripSignature_eq_ok.mp hstrip
    obtain rfl := headerShape_unique hl hshape
    obtain rfl := tableShape_unique ht htable
    obtain rfl : f = floor := Except.ok.inj (hf.symm.trans hfloor)
    rcases hout with ⟨hp, -⟩ | ⟨hp, hcut, -⟩
    · rw [headersKept, hp]
      rfl
    · exact (headersKept_iff htable hp).mpr hcut
  · intro hkept
    cases hp : table.present with
    | false => exact ⟨result, stripSignature_eq_ok.mpr ⟨layout, table, floor, hshape, htable, hfloor, .inl ⟨hp, rfl⟩⟩⟩
    | true =>
        exact ⟨_, stripSignature_eq_ok.mpr ⟨layout, table, floor, hshape, htable, hfloor,
          .inr ⟨hp, (headersKept_iff htable hp).mp hkept, rfl⟩⟩⟩

theorem smallProgram_accepted : Accepted (smallProgram 0 0 []) := by
  refine ⟨layoutAt 2 false, {}, ?_, ?_⟩ <;> decide +kernel

theorem run_accepted_and_strips_iff_sample : ∃ result, runCalls (smallProgram 0 0 []) [.embed [1]] = .ok result ∧
    Accepted result ∧ ∃ layout table floor, parsePeLayout { bytes := result, format := kFormat } = .ok layout ∧
      validateCertificateTable { bytes := result, format := kFormat } layout = .ok table ∧
      stripFloor { bytes := result, format := kFormat } layout = .ok floor ∧
      ((∃ out, stripSignature result = .ok out) ↔ headersKept result layout table floor = true) := by
  have hruns : (runCalls (smallProgram 0 0 []) [.embed [1]]).isOk = true := by decide +kernel
  obtain ⟨result, hruns⟩ := exists_of_isOk hruns
  exact ⟨result, hruns, run_accepted_and_strips_iff smallProgram_accepted hruns⟩

/-- A program that ends with the certificate directory entry: signing it leaves a file that cannot be stripped,
since the high byte of the new table size is zero. -/
theorem signed_program_cannot_be_stripped :
    ¬ ∀ (file result : List UInt8) (calls : List SignerCall), Accepted file → runCalls file calls = .ok result →
      Accepted result ∧ ∃ out, stripSignature result = .ok out := by
  intro h
  have hruns : (runCalls (smallProgram 0 0 []) [.embed [1]]).isOk = true := by decide +kernel
  obtain ⟨result, hruns⟩ := exists_of_isOk hruns
  obtain ⟨out, hout⟩ := (h _ _ _ smallProgram_accepted hruns).2
  have hfails : (runCalls (smallProgram 0 0 []) [.embed [1]] >>= stripSignature).isOk = false := by decide +kernel
  rw [hruns, ok_bind, hout] at hfails
  cases hfails

end TheSeed.PeHistory
