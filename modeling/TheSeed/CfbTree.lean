import TheSeed.CfbResolve
import TheSeed.CfbFlatten

namespace TheSeed.CfbTree

open Bytes Checked BoundedBytes CfbReader CfbResolve CfbFlatten

/-! The walk of the directory reaches no entry twice, so there are fewer nodes than positions. -/

variable {directory : List DirEntry} {visited visited' : Visited} {stack stack' : List Frame} {order order' : List Nat}
  {id : Nat}

/-- The links of each entry are 32-bit numbers. -/
def Links (directory : List DirEntry) : Prop :=
  ∀ i, (directory.getD i {}).left < 2 ^ 32 ∧ (directory.getD i {}).right < 2 ^ 32 ∧ (directory.getD i {}).child < 2 ^ 32

theorem pushEntry_eq_ok : pushEntry directory visited stack id = .ok (visited', stack') ↔
    id = kCfbNoStream ∧ visited' = visited ∧ stack' = stack ∨
    (id ≠ kCfbNoStream ∧ id < directory.length ∧ visited id = false ∧ (directory.getD id {}).type ≠ kTypeUnknown) ∧
      visited' = Function.update visited id true ∧ stack' = ⟨id, 0⟩ :: stack := by
  rw [pushEntry]
  by_cases hno : id = kCfbNoStream
  · rw [if_pos hno]
    constructor
    · intro h
      cases h
      exact .inl ⟨hno, rfl, rfl⟩
    · rintro (⟨-, rfl, rfl⟩ | ⟨⟨hne, -⟩, -⟩)
      · rfl
      · exact absurd hno hne
  · rw [if_neg hno]
    simp only [bind_eq_ok, rejectIf_eq_ok, exists_const, pure_eq_ok, Except.ok.injEq, Prod.mk.injEq, hno, false_and,
      false_or, not_le, Bool.not_eq_true, ne_eq, not_false_eq_true, true_and]
    constructor
    · rintro ⟨hlt, hfree, htype, rfl, rfl⟩
      exact ⟨⟨hlt, hfree, htype⟩, rfl, rfl⟩
    · rintro ⟨⟨hlt, hfree, htype⟩, rfl, rfl⟩
      exact ⟨hlt, hfree, htype, rfl, rfl⟩

/-- The ids that a walk reaches for the first time. -/
structure Fresh (visited visited' : Visited) (fresh : List Nat) : Prop where
  nodup : fresh.Nodup
  before : ∀ id ∈ fresh, visited id = false
  after : ∀ id ∈ fresh, visited' id = true
  small : ∀ id ∈ fresh, id < kCfbNoStream
  kept : ∀ id, visited id = true → visited' id = true

theorem Fresh.nil (visited : Visited) : Fresh visited visited [] :=
  ⟨List.nodup_nil, by simp, by simp, by simp, fun _ h => h⟩

theorem Fresh.append {mid : Visited} {first second : List Nat} (h : Fresh visited mid first)
    (h' : Fresh mid visited' second) : Fresh visited visited' (first ++ second) := by
  refine ⟨List.nodup_append.2 ⟨h.nodup, h'.nodup, ?_⟩, ?_, ?_, ?_, fun id hid => h'.kept id (h.kept id hid)⟩
  · rintro id hid _ hid' rfl
    exact absurd (h.after id hid) (by rw [h'.before id hid']; decide)
  · intro id hid
    rcases List.mem_append.1 hid with hid | hid
    · exact h.before id hid
    · cases hv : visited id with
      | false => rfl
      | true => exact absurd (h.kept id hv) (by rw [h'.before id hid]; decide)
  · intro id hid
    rcases List.mem_append.1 hid with hid | hid
    · exact h'.kept id (h.after id hid)
    · exact h'.after id hid
  · intro id hid
    exact (List.mem_append.1 hid).elim (h.small id) (h'.small id)

theorem Fresh.single (hfree : visited id = false) (hsmall : id < kCfbNoStream) :
    Fresh visited (Function.update visited id true) [id] := by
  refine ⟨List.nodup_singleton id, by simpa using hfree, by simp, by simpa using hsmall, fun other h => ?_⟩
  by_cases heq : other = id
  · rw [heq, Function.update_self]
  · rwa [Function.update_of_ne heq]

theorem lt_noStream (hlt : id < 2 ^ 32) (hne : id ≠ kCfbNoStream) : id < kCfbNoStream := by
  rw [kCfbNoStream] at hne ⊢
  omega

/-- The entries on the stack that the order does not hold yet. -/
def pending (stack : List Frame) : List Nat := (stack.filter fun frame => frame.stage ≤ 1).map Frame.id

theorem push_fresh (hlt : id < 2 ^ 32) (h : pushEntry directory visited stack id = .ok (visited', stack')) :
    ∃ pushed, Fresh visited visited' pushed ∧ pending stack' = pushed ++ pending stack := by
  rcases pushEntry_eq_ok.1 h with ⟨-, rfl, rfl⟩ | ⟨⟨hne, -, hfree, -⟩, rfl, rfl⟩
  · exact ⟨[], .nil _, rfl⟩
  · exact ⟨[id], .single hfree (lt_noStream hlt hne), rfl⟩

/-- The order of a walk: what was pending, and what the walk reaches. -/
theorem readOrder_fresh (hl : Links directory) {steps : Nat}
    (h : readOrder directory steps visited stack order = .ok (order', visited')) :
    ∃ more fresh, order' = order ++ more ∧ Fresh visited visited' fresh ∧ more.Perm (pending stack ++ fresh) := by
  induction steps generalizing visited stack order with
  | zero => cases h
  | succ steps ih =>
      cases stack with
      | nil =>
          cases h
          exact ⟨[], [], (List.append_nil _).symm, .nil _, .refl _⟩
      | cons frame rest =>
          obtain ⟨id, stage⟩ := frame
          rw [readOrder] at h
          by_cases hzero : stage = 0
          · rw [if_pos hzero] at h
            obtain ⟨⟨mid, pushed⟩, hpush, h⟩ := bind_eq_ok.1 h
            obtain ⟨new, hnew, hpending⟩ := push_fresh (hl id).1 hpush
            obtain ⟨more, fresh, rfl, hfresh, hp⟩ := ih h
            refine ⟨more, new ++ fresh, rfl, hnew.append hfresh, hp.trans ?_⟩
            have hsame : pending (⟨id, 1⟩ :: rest) = pending (⟨id, stage⟩ :: rest) := by
              rw [hzero]
              rfl
            rw [hpending, hsame, ← List.append_assoc]
            exact List.perm_append_comm.append_right fresh
          · rw [if_neg hzero] at h
            by_cases hone : stage = 1
            · rw [if_pos hone] at h
              obtain ⟨more, fresh, rfl, hfresh, hp⟩ := ih h
              refine ⟨id :: more, fresh, by rw [List.append_assoc]; rfl, hfresh, ?_⟩
              rw [hone]
              exact hp.cons id
            · rw [if_neg hone] at h
              obtain ⟨⟨mid, pushed⟩, hpush, h⟩ := bind_eq_ok.1 h
              obtain ⟨new, hnew, hpending⟩ := push_fresh (hl id).2.1 hpush
              obtain ⟨more, fresh, rfl, hfresh, hp⟩ := ih h
              refine ⟨more, new ++ fresh, rfl, hnew.append hfresh, hp.trans ?_⟩
              have hsame : pending (⟨id, stage⟩ :: rest) = pending rest := by
                rw [pending, List.filter_cons_of_neg (by simp; omega)]
                rfl
              rw [hpending, hsame, ← List.append_assoc]
              exact List.perm_append_comm.append_right fresh

/-- The number of nodes among the children and below them. -/
def size (children : List CfbNode) : Nat := (children.map fun child => below child + 1).sum

theorem size_cons (child : CfbNode) (children : List CfbNode) :
    size (child :: children) = below child + 1 + size children := by
  rw [size, List.map_cons, List.sum_cons]
  rfl

theorem readNodes_fresh {inner : Nat → Visited → Outcome StorageRead}
    (hinner : ∀ id visited read, inner id visited = .ok read →
      ∃ fresh, Fresh visited read.2.2 fresh ∧ size read.1 ≤ fresh.length) {nodes : List (Nat × CfbNode)}
    (h : readNodes inner directory order visited = .ok (nodes, visited')) :
    ∃ fresh, Fresh visited visited' fresh ∧ size (nodes.map Prod.snd) ≤ order.length + fresh.length := by
  induction order generalizing visited nodes with
  | nil =>
      cases h
      exact ⟨[], .nil _, Nat.le_refl _⟩
  | cons id order ih =>
      rw [readNodes] at h
      simp only at h
      by_cases hstorage : (directory.getD id {}).type = kTypeStorage
      · rw [if_pos hstorage] at h
        obtain ⟨read, hread, h⟩ := bind_eq_ok.1 h
        obtain ⟨⟨rest, after⟩, hrest, h⟩ := bind_eq_ok.1 h
        cases h
        obtain ⟨first, hfirst, hsize⟩ := hinner _ _ _ hread
        obtain ⟨fresh, hfresh, hle⟩ := ih hrest
        refine ⟨first ++ fresh, hfirst.append hfresh, ?_⟩
        rw [List.map_cons, size_cons, below_storage rfl, List.length_append, List.length_cons]
        change size read.1 + 1 + size (rest.map Prod.snd) ≤ _
        omega
      · rw [if_neg hstorage] at h
        by_cases hstream : (directory.getD id {}).type = kTypeStream
        · rw [if_pos hstream] at h
          obtain ⟨⟨rest, after⟩, hrest, h⟩ := bind_eq_ok.1 h
          cases h
          obtain ⟨fresh, hfresh, hle⟩ := ih hrest
          refine ⟨fresh, hfresh, ?_⟩
          rw [List.map_cons, size_cons, below_stream rfl, List.length_cons]
          change 0 + 1 + size (rest.map Prod.snd) ≤ _
          omega
        · rw [if_neg hstream] at h
          obtain ⟨fresh, hfresh, hle⟩ := ih h
          refine ⟨fresh, hfresh, ?_⟩
          rw [List.length_cons]
          omega

theorem below_linkNode (source : List Nat) (node : Nat × CfbNode) :
    below (linkNode directory source node) = below node.2 := by
  obtain ⟨id, ⟨⟩⟩ := node
  rfl

theorem readStorage_fresh (hl : Links directory) {levels : Nat} {read : StorageRead}
    (h : readStorage directory levels id visited = .ok read) :
    ∃ fresh, Fresh visited read.2.2 fresh ∧ size read.1 ≤ fresh.length := by
  induction levels generalizing id visited read with
  | zero => cases h
  | succ levels ih =>
      rw [readStorage] at h
      simp only at h
      by_cases hno : (directory.getD id {}).child = kCfbNoStream
      · rw [if_pos hno] at h
        cases h
        exact ⟨[], .nil _, Nat.le_refl _⟩
      · rw [if_neg hno] at h
        obtain ⟨⟨mid, pushed⟩, hpush, h⟩ := bind_eq_ok.1 h
        obtain ⟨⟨order, mid'⟩, hwalk, h⟩ := bind_eq_ok.1 h
        obtain ⟨⟨nodes, after⟩, hnodes, h⟩ := bind_eq_ok.1 h
        cases h
        obtain ⟨new, hnew, hpending⟩ := push_fresh (hl id).2.2 hpush
        obtain ⟨more, fresh, rfl, hfresh, hp⟩ := readOrder_fresh hl hwalk
        obtain ⟨deep, hdeep, hle⟩ := readNodes_fresh (fun _ _ _ h => ih h) hnodes
        refine ⟨new ++ fresh ++ deep, (hnew.append hfresh).append hdeep, ?_⟩
        have hsize : size (nodes.map (linkNode directory (nodes.map Prod.fst))) = size (nodes.map Prod.snd) := by
          rw [size, size, List.map_map, List.map_map]
          congr 1
          refine List.map_congr_left fun node _ => ?_
          rw [Function.comp_apply, Function.comp_apply, below_linkNode]
        have hlen := hp.length_eq
        rw [hpending] at hlen
        simp only [pending, List.filter_nil, List.map_nil, List.append_nil, List.length_append] at hlen hle ⊢
        rw [hsize]
        omega

theorem fresh_length {visited visited' : Visited} {fresh : List Nat} (h : Fresh visited visited' fresh)
    (hroot : visited 0 = true) : fresh.length ≤ 2 ^ 32 - 2 := by
  have hsub : fresh.Subperm (List.range' 1 (2 ^ 32 - 2)) := by
    refine List.subperm_of_subset h.nodup fun id hid => List.mem_range'_1.2 ?_
    have hsmall := h.small id hid
    have hne : id ≠ 0 := by
      rintro rfl
      rw [h.before 0 hid] at hroot
      cases hroot
    rw [kCfbNoStream] at hsmall
    omega
  simpa using hsub.length_le

theorem readField_lt {span : ByteSpan} {offset v : Nat} {order : ByteOrder} {field : String} {width : Nat}
    (h : span.read width offset order field = .ok v) : v < 256 ^ width := by
  obtain ⟨hle, rfl⟩ := ByteSpan.read_eq_ok.1 h
  have hlt := order.value_lt (slice span.bytes offset width)
  rwa [length_slice_of_le hle] at hlt

theorem parseDirEntry_links {m : PackageModel} {sector : ByteSpan} {base : Nat} {entry : DirEntry}
    (h : parseDirEntry m sector base = .ok entry) :
    entry.left < 2 ^ 32 ∧ entry.right < 2 ^ 32 ∧ entry.child < 2 ^ 32 := by
  simp only [parseDirEntry, bind_eq_ok, pure_eq_ok, Except.ok.injEq] at h
  obtain ⟨name, -, type, -, left, hleft, right, hright, child, hchild, h⟩ := h
  obtain ⟨-, -, -, -, -, -, -, -, -, -, -, -, rfl⟩ := h
  exact ⟨readField_lt hleft, readField_lt hright, readField_lt hchild⟩

theorem parseDirectory_links {m : PackageModel} (h : parseDirectory m = .ok directory) : Links directory := by
  rw [parseDirectory] at h
  simp only [bind_eq_ok, pure_eq_ok, Except.ok.injEq] at h
  obtain ⟨chain, -, parts, hparts, rfl⟩ := h
  have hall : ∀ part ∈ parts, ∀ entry ∈ part, entry.left < 2 ^ 32 ∧ entry.right < 2 ^ 32 ∧ entry.child < 2 ^ 32 := by
    refine mapM_forall (fun sector part hpart => ?_) hparts
    obtain ⟨span, -, hpart⟩ := bind_eq_ok.1 hpart
    exact mapM_forall (fun _ _ => parseDirEntry_links) hpart
  intro i
  rw [List.getD_eq_getElem?_getD]
  cases hi : parts.flatten[i]? with
  | none => exact ⟨by decide, by decide, by decide⟩
  | some entry =>
      obtain ⟨part, hpart, hentry⟩ := List.mem_flatten.1 (List.mem_of_getElem? hi)
      exact hall part hpart entry hentry

/-- An accepted package has a root, and fewer nodes below it than there are positions. -/
theorem parse_root {bytes : List UInt8} {m : PackageModel} (h : parse bytes = .ok m) :
    m.root.isStorage = true ∧ size m.root.children ≤ 2 ^ 32 - 2 := by
  obtain ⟨m₁, -, h⟩ := bind_eq_ok.1 h
  obtain ⟨m₂, -, h⟩ := bind_eq_ok.1 h
  obtain ⟨m₃, -, h⟩ := bind_eq_ok.1 h
  obtain ⟨directory, hdirectory, htree⟩ := bind_eq_ok.1 h
  simp only [buildTree, bind_eq_ok, pure_eq_ok, Except.ok.injEq] at htree
  obtain ⟨-, -, read, hread, rfl⟩ := htree
  obtain ⟨fresh, hfresh, hle⟩ := readStorage_fresh (parseDirectory_links hdirectory) hread
  exact ⟨rfl, Nat.le_trans hle (fresh_length hfresh (Function.update_self ..))⟩

/-- How many entries a rebuilt package has. -/
theorem flatten_count {m : PackageModel} {entries : List CfbWriter.Entry} (hg : Geometry m)
    {signature : Option (List UInt8)} (h : CfbWriter.flatten m signature = .ok entries) :
    entries.length = 1 + signature.isSome.toNat + size (keptChildren m) := by
  rw [flatten_length hg h, ((rootSequence_perm m signature).map _).sum_eq]
  have hkept : ((keptItems m).map fun item => below item.node + 1).sum = size (keptChildren m) := by
    rw [keptItems, List.map_map, size]
    rfl
  cases signature with
  | none =>
      rw [hkept]
      rfl
  | some blob =>
      rw [List.map_cons, List.sum_cons, hkept]
      change 1 + (0 + 1 + _) = 1 + 1 + _
      omega

theorem size_kept_le (m : PackageModel) : size (keptChildren m) ≤ size m.root.children := by
  rw [keptChildren]
  generalize m.root.children = children
  induction children with
  | nil => exact Nat.le_refl _
  | cons child children ih =>
      rw [List.filter_cons]
      split
      · rw [size_cons, size_cons]
        omega
      · rw [size_cons]
        omega

/-- The entries of a rebuilt package fill the positions at most. -/
theorem flatten_bound {bytes : List UInt8} {m : PackageModel} (h : parse bytes = .ok m)
    {signature : Option (List UInt8)} {entries : List CfbWriter.Entry}
    (hf : CfbWriter.flatten m signature = .ok entries) : entries.length ≤ 2 ^ 32 := by
  have hcount := flatten_count (parse_accepted h).geometry hf
  have hkept := size_kept_le m
  have hroot := (parse_root h).2
  have hone : signature.isSome.toNat ≤ 1 := Bool.toNat_le _
  omega

end TheSeed.CfbTree
