import TheSeed.PeEffects

namespace TheSeed.PeFingerprint

open Bytes Checked BoundedBytes PeSigner PeShape PeEffects

/-- The bytes below `n` outside the CheckSum field and the certificate directory entry. -/
def outsideFields (layout : PeLayout) (n : Nat) (bytes : List UInt8) : List UInt8 :=
  slice bytes 0 layout.checksumOffset ++
    slice bytes (layout.checksumOffset + 4) (layout.ddSecurityOffset - (layout.checksumOffset + 4)) ++
    slice bytes (layout.ddSecurityOffset + 8) (n - (layout.ddSecurityOffset + 8))

theorem outsideFields_congr {layout : PeLayout} {n limit : Nat} {a b : List UInt8}
    (h : SameBelow layout limit a b) (hn : n ≤ limit) (hd : layout.ddSecurityOffset + 8 ≤ n)
    (hc : layout.checksumOffset + 4 ≤ layout.ddSecurityOffset) :
    outsideFields layout n a = outsideFields layout n b := by
  rw [outsideFields, outsideFields, h 0 _ (by omega) (by omega) (by omega),
    h (layout.checksumOffset + 4) _ (by omega) (by omega) (by omega),
    h (layout.ddSecurityOffset + 8) _ (by omega) (by omega) (by omega)]

theorem outsideFields_add {layout : PeLayout} {n m : Nat} (bytes : List UInt8)
    (hd : layout.ddSecurityOffset + 8 ≤ n) :
    outsideFields layout (n + m) bytes = outsideFields layout n bytes ++ slice bytes n m := by
  rw [outsideFields, outsideFields, List.append_assoc _ _ (slice bytes n m)]
  congr 1
  rw [show n + m - (layout.ddSecurityOffset + 8) = (n - (layout.ddSecurityOffset + 8)) + m by omega,
    ← slice_append_slice, Nat.add_sub_cancel' hd]

theorem length_outsideFields {layout : PeLayout} {n : Nat} {bytes : List UInt8} (hn : n ≤ bytes.length)
    (hd : layout.ddSecurityOffset + 8 ≤ n) (hc : layout.checksumOffset + 4 ≤ layout.ddSecurityOffset) :
    (outsideFields layout n bytes).length = n - 12 := by
  simp only [outsideFields, List.length_append]
  rw [length_slice_of_le (by omega), length_slice_of_le (by omega), length_slice_of_le (by omega)]
  omega

/-- Zero bytes that are hashed behind the file's own: the padding embedding would add, when unsigned. -/
def hashedPad (bytes : List UInt8) (table : CertificateTable) : Nat :=
  if table.present then 0 else padTo8 bytes.length

/-- The byte sequence fed to the hash: everything below the table, or the whole file with the padding
to come, without the two fields. -/
def hashedBytes (layout : PeLayout) (table : CertificateTable) (bytes : List UInt8) : List UInt8 :=
  outsideFields layout (keptSize bytes table) bytes ++ List.replicate (hashedPad bytes table) 0

theorem hashRange_of_le {file : ByteSpan} {fed : List UInt8} {start stop : Nat} (h : start ≤ stop)
    (hfit : stop ≤ file.bytes.length) :
    hashRange file fed start stop = .ok (fed ++ slice file.bytes start (stop - start)) := by
  rw [hashRange]
  split
  · rw [ByteSpan.sub_eq_ok.mpr ⟨by omega, rfl⟩]
    rfl
  · rw [show stop - start = 0 by omega, slice_zero_length, List.append_nil]
    rfl

theorem skipExclusion_of_le {file : ByteSpan} {fed : List UInt8} {pos start stop : Nat} (h : pos ≤ start)
    (hfit : start ≤ file.bytes.length) :
    skipExclusion file (pos, fed) (start, stop) =
      .ok (stop, fed ++ slice file.bytes pos (start - pos)) := by
  rw [skipExclusion]
  split
  · rw [hashRange_of_le h hfit]
    rfl
  · rename_i hlt
    simp only [Nat.not_lt] at hlt
    rw [show start - pos = 0 by omega, slice_zero_length, List.append_nil]
    rfl

theorem exclusions_eq {layout : PeLayout} (h : layout.checksumOffset ≤ layout.ddSecurityOffset) :
    exclusions layout = [(layout.checksumOffset, layout.checksumOffset + 4),
      (layout.ddSecurityOffset, layout.ddSecurityOffset + 8)] :=
  List.Pairwise.insertionSort_eq (by simpa using h)

theorem digestInput_of_shape {bytes : List UInt8} {layout : PeLayout} {table : CertificateTable}
    (hshape : HeaderShape bytes layout) (htable : TableShape bytes layout table) :
    digestInput bytes = .ok ⟨hashedBytes layout table bytes, layout.isPe32Plus⟩ := by
  have hk := keptSize_bounds hshape htable
  have hc := hshape.checksum_fits
  have hend : (if table.present then table.address else ByteSpan.size { bytes, format := kFormat }) =
      keptSize bytes table := rfl
  rw [digestInput, parsePeLayout_of_shape hshape, ok_bind,
    (validateCertificateTable_eq_ok hshape.fits).mpr htable, ok_bind, exclusions_eq (by omega)]
  simp only [List.foldlM_cons, List.foldlM_nil, hend]
  rw [skipExclusion_of_le (Nat.zero_le _) (by simp only; omega), ok_bind,
    skipExclusion_of_le hc (by simp only; omega), ok_bind, pure_eq_ok, ok_bind]
  simp only
  rw [hashRange_of_le hk.1 hk.2, ok_bind]
  rfl

theorem digestInput_eq_ok {bytes : List UInt8} {input : DigestInput} :
    digestInput bytes = .ok input ↔ ∃ layout table, HeaderShape bytes layout ∧
      TableShape bytes layout table ∧
      (⟨hashedBytes layout table bytes, layout.isPe32Plus⟩ : DigestInput) = input := by
  constructor
  · intro h
    have h' := h
    rw [digestInput, bind_eq_ok] at h'
    obtain ⟨layout, hlayout, h'⟩ := h'
    obtain ⟨table, htable, -⟩ := bind_eq_ok.mp h'
    have hshape := parsePeLayout_shape hlayout
    rw [validateCertificateTable_eq_ok hshape.fits] at htable
    rw [digestInput_of_shape hshape htable] at h
    exact ⟨layout, table, hshape, htable, Except.ok.inj h⟩
  · rintro ⟨layout, table, hshape, htable, rfl⟩
    exact digestInput_of_shape hshape htable

/-- Embedding hashes exactly the kept bytes and the zeros up to the next multiple of eight. -/
theorem hashedBytes_embedded {bytes blob out : List UInt8} {layout : PeLayout} {kept : Nat}
    (hshape : HeaderShape bytes layout) (h : Embedded bytes blob layout kept out) :
    hashedBytes layout (newTable kept blob.length) out =
      outsideFields layout kept bytes ++ List.replicate (padTo8 kept) 0 := by
  have hkept : keptSize out (newTable kept blob.length) = kept + padTo8 kept := rfl
  have hpad : hashedPad out (newTable kept blob.length) = 0 := rfl
  rw [hashedBytes, hkept, hpad, List.replicate_zero, List.append_nil, outsideFields_add out h.headers,
    h.padding, outsideFields_congr h.same le_rfl h.headers hshape.checksum_fits]

/-- Stripping hashes what is left and the zeros up to the next multiple of eight. -/
theorem hashedBytes_stripped {bytes out : List UInt8} {layout : PeLayout} {address : Nat}
    (hshape : HeaderShape bytes layout) (h : Stripped bytes layout address out) :
    hashedBytes layout { present := false } out =
      outsideFields layout out.length bytes ++ List.replicate (padTo8 out.length) 0 := by
  have hkept : keptSize out { present := false } = out.length := rfl
  have hpad : hashedPad out { present := false } = padTo8 out.length := rfl
  rw [hashedBytes, hkept, hpad, outsideFields_congr h.same le_rfl h.headers hshape.checksum_fits]

/-- From an unsigned file, and from a file whose table starts at a multiple of eight, embedding
keeps the hashed bytes. -/
theorem embed_keeps {bytes blob out : List UInt8} {layout : PeLayout} {table : CertificateTable}
    (hshape : HeaderShape bytes layout) (haligned : table.present = true → table.address % 8 = 0)
    (h : Embedded bytes blob layout (keptSize bytes table) out) :
    digestInput out = .ok ⟨hashedBytes layout table bytes, layout.isPe32Plus⟩ := by
  rw [digestInput_of_shape h.shape h.table, hashedBytes_embedded hshape h, hashedBytes]
  cases hp : table.present with
  | false => rw [hashedPad, keptSize, hp]; rfl
  | true =>
      have hk : keptSize bytes table = table.address := by rw [keptSize, hp, if_pos rfl]
      have hpad : hashedPad bytes table = 0 := by rw [hashedPad, hp, if_pos rfl]
      rw [hk, hpad, padTo8_of_mod_eq_zero (haligned hp)]

/-- Stripping a table that starts at a multiple of eight keeps the hashed bytes. -/
theorem strip_keeps {bytes out : List UInt8} {layout : PeLayout} {table : CertificateTable}
    (hshape : HeaderShape bytes layout) (hp : table.present = true) (haligned : table.address % 8 = 0)
    (h : Stripped bytes layout table.address out) :
    digestInput out = .ok ⟨hashedBytes layout table bytes, layout.isPe32Plus⟩ := by
  have hk : keptSize bytes table = table.address := by rw [keptSize, hp, if_pos rfl]
  have hpad : hashedPad bytes table = 0 := by rw [hashedPad, hp, if_pos rfl]
  have hcut : padTo8 out.length = table.address - out.length := by
    have := h.short
    have := h.few
    unfold padTo8
    omega
  have hsplit : table.address = out.length + padTo8 out.length := by
    rw [hcut, Nat.add_sub_cancel' h.short]
  rw [digestInput_of_shape h.shape h.table, hashedBytes_stripped hshape h, hashedBytes, hk, hpad,
    List.replicate_zero, List.append_nil, hsplit, outsideFields_add bytes h.headers, hcut, h.zeros]

/-- One of the two calls that change a program. -/
inductive SignerCall
  | embed (pkcs7Der : List UInt8)
  | strip
  deriving DecidableEq, Repr

def SignerCall.run : List UInt8 → SignerCall → Outcome (List UInt8)
  | bytes, .embed pkcs7Der => embedSignature bytes pkcs7Der
  | bytes, .strip => stripSignature bytes

/-- A finite sequence of calls on one file, all of them successful. -/
def runCalls (bytes : List UInt8) (calls : List SignerCall) : Outcome (List UInt8) :=
  calls.foldlM SignerCall.run bytes

/-- The file hashes the given bytes, and a table in it starts at a multiple of eight. -/
def HashesAligned (input : DigestInput) (bytes : List UInt8) : Prop :=
  ∃ layout table, HeaderShape bytes layout ∧ TableShape bytes layout table ∧
    (table.present = true → table.address % 8 = 0) ∧ digestInput bytes = .ok input

theorem tableShape_unique {bytes : List UInt8} {layout : PeLayout} {t u : CertificateTable}
    (ht : TableShape bytes layout t) (hu : TableShape bytes layout u) : t = u := by
  obtain ⟨p, a, s, l⟩ := t
  obtain ⟨q, b, r, m⟩ := u
  obtain rfl : a = b := ht.address.symm.trans hu.address
  obtain rfl : s = r := ht.size.symm.trans hu.size
  obtain rfl : p = q := ht.present.trans hu.present.symm
  have hl : l = m := by
    cases p with
    | false => exact (ht.absent rfl).trans (hu.absent rfl).symm
    | true => exact (ht.length rfl).symm.trans (hu.length rfl)
  rw [hl]

theorem headerShape_unique {bytes : List UInt8} {l m : PeLayout} (hl : HeaderShape bytes l)
    (hm : HeaderShape bytes m) : l = m := by
  let file : ByteSpan := { bytes, format := kFormat }
  have h : parsePeLayout file = .ok l := parsePeLayout_of_shape hl
  rw [parsePeLayout_of_shape hm] at h
  exact (Except.ok.inj h).symm

theorem run_keeps_hash {input : DigestInput} (bytes : List UInt8) (call : SignerCall) (out : List UInt8)
    (h : HashesAligned input bytes) (hrun : call.run bytes = .ok out) : HashesAligned input out := by
  obtain ⟨layout, table, hshape, htable, haligned, hinput⟩ := h
  rw [digestInput_of_shape hshape htable] at hinput
  cases call with
  | embed blob =>
      obtain ⟨l, t, hl, ht, he⟩ := embedSignature_embedded hrun
      obtain rfl := headerShape_unique hl hshape
      obtain rfl := tableShape_unique ht htable
      exact ⟨_, _, he.shape, he.table, fun _ => add_padTo8_mod _,
        (embed_keeps hshape haligned he).trans hinput⟩
  | strip =>
      obtain ⟨l, t, hl, ht, hs⟩ := stripSignature_stripped hrun
      obtain rfl := headerShape_unique hl hshape
      obtain rfl := tableShape_unique ht htable
      rcases hs with ⟨-, rfl⟩ | ⟨hp, hs⟩
      · exact ⟨_, _, hshape, htable, haligned, (digestInput_of_shape hshape htable).trans hinput⟩
      · exact ⟨_, _, hs.shape, hs.table, nofun, (strip_keeps hshape hp (haligned hp) hs).trans hinput⟩

theorem hasEmbeddedSignature_eq_ok {bytes : List UInt8} {present : Bool} :
    hasEmbeddedSignature bytes = .ok present ↔ ∃ layout table, HeaderShape bytes layout ∧
      TableShape bytes layout table ∧ table.present = present := by
  simp only [hasEmbeddedSignature, bind_eq_ok, parsePeLayout_eq_ok, pure_eq_ok, Except.ok.injEq]
  constructor
  · rintro ⟨layout, hshape, table, htable, hp⟩
    exact ⟨layout, table, hshape, (validateCertificateTable_eq_ok hshape.fits).mp htable, hp⟩
  · rintro ⟨layout, table, hshape, htable, hp⟩
    exact ⟨layout, hshape, table, (validateCertificateTable_eq_ok hshape.fits).mpr htable, hp⟩

/-- Signing, re-signing and stripping, in any order and starting from an unsigned program, never
change what is hashed. -/
theorem fingerprint_stable_from_unsigned {file result : List UInt8} {calls : List SignerCall}
    {input : DigestInput} (hunsigned : hasEmbeddedSignature file = .ok false)
    (hdigest : digestInput file = .ok input) (hruns : runCalls file calls = .ok result) :
    digestInput result = .ok input := by
  obtain ⟨layout, table, hshape, htable, hp⟩ := hasEmbeddedSignature_eq_ok.mp hunsigned
  have hstart : HashesAligned input file :=
    ⟨layout, table, hshape, htable, by rw [hp]; exact nofun, hdigest⟩
  obtain ⟨-, -, -, -, -, hend⟩ := foldlM_invariant (HashesAligned input) run_keeps_hash hstart hruns
  exact hend

/-- A PE32 program whose PE header starts at offset 2, with a certificate directory entry. -/
def smallProgram (address size : Nat) (rest : List UInt8) : List UInt8 :=
  [0x4D, 0x5A, 0x50, 0x45, 0, 0] ++ List.replicate 20 0 ++ [0x0B, 0x01] ++ List.replicate 32 0 ++
    [2, 0, 0, 0] ++ List.replicate 54 0 ++ [16, 0, 0, 0] ++ List.replicate 32 0 ++
    leBytes 4 address ++ leBytes 4 size ++ rest

theorem fingerprint_stable_sign_strip_sign :
    hasEmbeddedSignature (smallProgram 0 0 [1]) = .ok false ∧
      ∃ result input, runCalls (smallProgram 0 0 [1]) [.embed [1, 2, 3], .strip, .embed [5]] = .ok result ∧
        digestInput (smallProgram 0 0 [1]) = .ok input ∧ digestInput result = .ok input := by
  have hunsigned : hasEmbeddedSignature (smallProgram 0 0 [1]) = .ok false := by decide +kernel
  have hdigest : (digestInput (smallProgram 0 0 [1])).isOk = true := by decide +kernel
  have hruns : (runCalls (smallProgram 0 0 [1]) [.embed [1, 2, 3], .strip, .embed [5]]).isOk = true := by
    decide +kernel
  obtain ⟨input, hinput⟩ := exists_of_isOk hdigest
  obtain ⟨result, hresult⟩ := exists_of_isOk hruns
  exact ⟨hunsigned, result, input, hresult, hinput, fingerprint_stable_from_unsigned hunsigned hinput hresult⟩

theorem mod_of_hashed_length {n m : Nat} (h : n - 12 + padTo8 n = m - 12) (hn : 12 ≤ n) (hm : 12 ≤ m) :
    m % 8 = 0 := by
  have := add_padTo8_mod n
  omega

/-- For a program signed by any tool, a new signature and a removed one keep the hashed bytes exactly
when the certificate table starts at a multiple of eight. -/
theorem resign_and_strip_keep_hash_iff {bytes blob : List UInt8} {layout : PeLayout}
    {table : CertificateTable} (hlayout : parsePeLayout { bytes, format := kFormat } = .ok layout)
    (htable : validateCertificateTable { bytes, format := kFormat } layout = .ok table)
    (hp : table.present = true) :
    (∀ out, embedSignature bytes blob = .ok out →
        (digestInput out = digestInput bytes ↔ table.address % 8 = 0)) ∧
      (∀ out, stripSignature bytes = .ok out →
        (digestInput out = digestInput bytes ↔ table.address % 8 = 0)) := by
  have hshape : HeaderShape bytes layout := parsePeLayout_shape hlayout
  have htable : TableShape bytes layout table := (validateCertificateTable_eq_ok hshape.fits).mp htable
  have hc := hshape.checksum_fits
  have hbehind := htable.behind hp
  have hfit := htable.fits hp
  have hkept : keptSize bytes table = table.address := by rw [keptSize, hp, if_pos rfl]
  have hpad : hashedPad bytes table = 0 := by rw [hashedPad, hp, if_pos rfl]
  have hold : (hashedBytes layout table bytes).length = table.address - 12 := by
    rw [hashedBytes, hkept, hpad, List.replicate_zero, List.append_nil,
      length_outsideFields (by omega) hbehind hc]
  have hdigest := digestInput_of_shape hshape htable
  constructor
  · intro out h
    obtain ⟨l, t, hl, ht, he⟩ := embedSignature_embedded h
    obtain rfl := headerShape_unique hl hshape
    obtain rfl := tableShape_unique ht htable
    constructor
    · intro heq
      rw [digestInput_of_shape he.shape he.table, hdigest, hashedBytes_embedded hshape he, hkept] at heq
      have hlen := congrArg (fun d => d.fed.length) (Except.ok.inj heq)
      simp only [List.length_append, List.length_replicate, hold] at hlen
      rw [length_outsideFields (by omega) hbehind hc] at hlen
      exact mod_of_hashed_length hlen (by omega) (by omega)
    · intro haligned
      rw [embed_keeps hshape (fun _ => haligned) he, hdigest]
  · intro out h
    obtain ⟨l, t, hl, ht, hs⟩ := stripSignature_stripped h
    obtain rfl := headerShape_unique hl hshape
    obtain rfl := tableShape_unique ht htable
    rcases hs with ⟨hp', -⟩ | ⟨-, hs⟩
    · rw [hp] at hp'
      cases hp'
    · constructor
      · intro heq
        rw [digestInput_of_shape hs.shape hs.table, hdigest, hashedBytes_stripped hshape hs] at heq
        have hlen := congrArg (fun d => d.fed.length) (Except.ok.inj heq)
        have hshort := hs.short
        have hheaders := hs.headers
        simp only [List.length_append, List.length_replicate, hold] at hlen
        rw [length_outsideFields (by omega) hheaders hc] at hlen
        exact mod_of_hashed_length hlen (by omega) (by omega)
      · intro haligned
        rw [strip_keeps hshape hp haligned hs, hdigest]

/-- A program whose certificate table another tool put at the odd offset 163. -/
def oddlySigned : List UInt8 := smallProgram 163 9 [7, 9, 0, 0, 0, 0, 2, 2, 0, 5]

def oddLayout : PeLayout := layoutAt 2 false

def oddTable : CertificateTable := { present := true, address := 163, size := 9, length := 9 }

theorem oddlySigned_keeps_hash_iff :
    ∃ embedded stripped, embedSignature oddlySigned [1] = .ok embedded ∧
      stripSignature oddlySigned = .ok stripped ∧
      (digestInput embedded = digestInput oddlySigned ↔ 163 % 8 = 0) ∧
      (digestInput stripped = digestInput oddlySigned ↔ 163 % 8 = 0) := by
  have hlayout : parsePeLayout { bytes := oddlySigned, format := kFormat } = .ok oddLayout := by
    decide +kernel
  have htable : validateCertificateTable { bytes := oddlySigned, format := kFormat } oddLayout =
      .ok oddTable := by decide +kernel
  have he : (embedSignature oddlySigned [1]).isOk = true := by decide +kernel
  have hs : (stripSignature oddlySigned).isOk = true := by decide +kernel
  obtain ⟨embedded, he⟩ := exists_of_isOk he
  obtain ⟨stripped, hs⟩ := exists_of_isOk hs
  obtain ⟨hembed, hstrip⟩ := @resign_and_strip_keep_hash_iff oddlySigned [1] _ _ hlayout htable rfl
  exact ⟨embedded, stripped, he, hs, hembed embedded he, hstrip stripped hs⟩

/-- Re-signing that program adds zeros to what is hashed. -/
theorem oddlySigned_hash_changes :
    ¬ ∀ (bytes blob : List UInt8) (layout : PeLayout) (table : CertificateTable),
      parsePeLayout { bytes, format := kFormat } = .ok layout →
      validateCertificateTable { bytes, format := kFormat } layout = .ok table →
      table.present = true →
      (∀ out, embedSignature bytes blob = .ok out → digestInput out = digestInput bytes) ∧
        (∀ out, stripSignature bytes = .ok out → digestInput out = digestInput bytes) := by
  intro h
  have hlayout : parsePeLayout { bytes := oddlySigned, format := kFormat } = .ok oddLayout := by
    decide +kernel
  have htable : validateCertificateTable { bytes := oddlySigned, format := kFormat } oddLayout =
      .ok oddTable := by decide +kernel
  have he : (embedSignature oddlySigned [1]).isOk = true := by decide +kernel
  obtain ⟨embedded, he⟩ := exists_of_isOk he
  have hsame := (h oddlySigned [1] oddLayout oddTable hlayout htable rfl).1 embedded he
  have hchanged : (embedSignature oddlySigned [1] >>= digestInput) ≠ digestInput oddlySigned := by
    decide +kernel
  rw [he, ok_bind] at hchanged
  exact hchanged hsame

end TheSeed.PeFingerprint
