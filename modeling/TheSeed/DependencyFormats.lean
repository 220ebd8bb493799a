import TheSeed.DependencyLister
import TheSeed.MachOParser

namespace TheSeed.DependencyFormats

open Bytes Checked BoundedBytes MachOLayout DependencyLister Function

/-! What the dependency lister takes for a Mac program, compared with the parser of Mac programs. -/

/-- The file system with the parser of Mac programs, which reads the file itself. -/
def withMachOParser (world : World) : World :=
  { world with machONames := fun key => do MachOParser.listDependencies key (← world.readFileBytes key) }

/-- The bytes are not a universal file with a wide table, nor one with more than 30 slices. -/
def KnownToLister (bytes : List UInt8) : Prop :=
  beValue (slice bytes 0 4) ≠ kBytesFat64 ∧
    (beValue (slice bytes 0 4) = kBytesFat32 → beValue (slice bytes 4 4) ≤ 30)

variable {world : World} {graph : DependencyGraph} {path key : Text} {known : Option Text} {bytes : List UInt8}
  {names : List Text}

theorem kindOfMagic_thin {magic : Nat} (h : isThin (kindOfMagic magic) = true) : magic = kBytesThin64Little ∨
    magic = kBytesThin32Little ∨ magic = kBytesThin64Big ∨ magic = kBytesThin32Big := by
  unfold kindOfMagic at h
  split_ifs at h <;> simp_all [isThin]

theorem kindOfMagic_fat {magic : Nat} (h : kindOfMagic magic = .fat32 ∨ kindOfMagic magic = .fat64) :
    magic = kBytesFat32 ∨ magic = kBytesFat64 := by
  unfold kindOfMagic at h
  split_ifs at h <;> simp_all

/-- A program alone has neither of the magics of a universal file. -/
theorem not_fat_of_thin {magic : Nat} (h : isThin (kindOfMagic magic) = true) : magic ≠ kBytesFat64 ∧ magic ≠ kBytesFat32 := by
  rcases kindOfMagic_thin h with rfl | rfl | rfl | rfl <;> decide

theorem knownToLister_of_thin (h : isThin (kindOfMagic (beValue (slice bytes 0 4))) = true) : KnownToLister bytes :=
  ⟨(not_fat_of_thin h).1, fun hfat => absurd hfat (not_fat_of_thin h).2⟩

/-- The first bytes of what the parser accepts. -/
theorem parseMachOContainer_magic {scope : String} {container : MachOContainer} (hlong : 4 ≤ bytes.length)
    (h : parseMachOContainer ⟨bytes, kFormat, scope⟩ = .ok container) :
    isThin (kindOfMagic (beValue (slice bytes 0 4))) = true ∨
      8 ≤ bytes.length ∧ (beValue (slice bytes 0 4) = kBytesFat32 ∨ beValue (slice bytes 0 4) = kBytesFat64) := by
  have hkind : classifyMachOMagic ⟨bytes, kFormat, scope⟩ = kindOfMagic (beValue (slice bytes 0 4)) := by
    rw [classifyMachOMagic, if_neg]
    simp only [ByteSpan.size]
    omega
  rw [parseMachOContainer, hkind] at h
  by_cases hthin : isThin (kindOfMagic (beValue (slice bytes 0 4))) = true
  · exact .inl hthin
  · rw [if_neg hthin] at h
    obtain ⟨⟨⟩, hfat, h⟩ := bind_eq_ok.1 h
    obtain ⟨⟨⟩, hheader, -⟩ := bind_eq_ok.1 h
    rw [rejectIf_eq_ok] at hfat hheader
    have hsize : ¬bytes.length < kFatHeaderSize := hheader
    rw [kFatHeaderSize] at hsize
    exact .inr ⟨by omega, kindOfMagic_fat (by tauto)⟩

/-- The lister takes what the parser accepts for a Mac program when the table is narrow and short. -/
theorem isMachO_iff (h : MachOParser.listDependencies path bytes = .ok names) :
    isMachO bytes = true ↔ KnownToLister bytes := by
  obtain ⟨⟨⟩, hfour, h⟩ := bind_eq_ok.1 h
  obtain ⟨container, hparse, -⟩ := bind_eq_ok.1 h
  rw [MachOParser.requireFourBytes, rejectIf_eq_ok] at hfour
  rw [isMachO, if_neg hfour]
  rcases parseMachOContainer_magic (by omega) hparse with hthin | ⟨hheader, hfat⟩
  · refine iff_of_true ?_ (knownToLister_of_thin hthin)
    rw [if_pos (by rcases kindOfMagic_thin hthin with hmagic | hmagic | hmagic | hmagic <;> rw [hmagic] <;> decide)]
  · rcases hfat with hmagic | hmagic
    · rw [hmagic]
      simp [KnownToLister, hmagic, kBytesFat32, kBytesFat64, hheader]
    · rw [hmagic]
      simp [KnownToLister, hmagic, kBytesFat64]

/-- A universal file begins like neither of the other formats. -/
theorem parseBytes_fat (world : World) (h : beValue (slice bytes 0 4) = kBytesFat32 ∨
    beValue (slice bytes 0 4) = kBytesFat64) (hlong : 4 ≤ bytes.length) :
    parseBytes world bytes = .error "Unsupported binary format" := by
  obtain ⟨a, b, c, d, rest, rfl⟩ : ∃ a b c d rest, bytes = a :: b :: c :: d :: rest := by
    match bytes, hlong with
    | a :: b :: c :: d :: rest, _ => exact ⟨a, b, c, d, rest, rfl⟩
  have hfirst : a.toNat = 0xCA := by
    have hb := b.toNat_lt
    have hc := c.toNat_lt
    have hd := d.toNat_lt
    simp [slice, beValue, leValue, kBytesFat32, kBytesFat64] at h
    omega
  have helf : slice (a :: b :: c :: d :: rest) 0 4 ≠ elfMagic := by
    intro heq
    obtain ⟨rfl, -⟩ := List.cons.inj heq
    cases hfirst
  have hpe : slice (a :: b :: c :: d :: rest) 0 2 ≠ bytesOf "MZ" := by
    intro heq
    have hcons : a :: [b] = [0x4D, 0x5A] := heq
    obtain ⟨rfl, -⟩ := List.cons.inj hcons
    cases hfirst
  rw [parseBytes, if_neg (by simp), if_neg helf, if_neg hpe]

theorem fileNode_new (hkey : (if known.isSome then known else world.canonical path) = some key)
    (hnew : graph.byKey key = none) : (fileNode world graph path known).1.nodes[(fileNode world graph path known).2]? =
      some (newFileNode world path key true) := by
  rw [fileNode, hkey]
  simp only [Option.getD_some, hnew, DependencyGraph.push, Option.isSome_some]
  exact List.getElem?_concat_length

/-- The lister reads a file that the parser accepts as the parser does, except for a universal file with a wide table or
more than 30 slices. -/
theorem fileNode_agrees_iff (hkey : (if known.isSome then known else world.canonical path) = some key)
    (hregular : key ∈ world.regularFiles) (hnew : graph.byKey key = none) (hbytes : world.readFileBytes key = .ok bytes)
    (haccept : MachOParser.listDependencies key bytes = .ok names) :
    (∃ node, (fileNode (withMachOParser world) graph path known).1.nodes[
        (fileNode (withMachOParser world) graph path known).2]? = some node ∧
      node.status = .parsed ∧ node.refs = names) ↔ KnownToLister bytes := by
  have hknown : (if known.isSome then known else (withMachOParser world).canonical path) = some key := hkey
  have hnode := fileNode_new hknown hnew
  have hread : (withMachOParser world).readFileBytes key = .ok bytes := hbytes
  have hnames : (withMachOParser world).machONames key = .ok names :=
    bind_eq_ok.2 ⟨bytes, hbytes, haccept⟩
  have hfound : (true && (withMachOParser world).regularFiles.contains key) = true := List.contains_iff_mem.2 hregular
  rw [hnode, newFileNode, if_pos hfound, readNode, hread]
  rw [← isMachO_iff haccept]
  constructor
  · rintro ⟨node, hfound, hparsed, -⟩
    by_contra hmacho
    simp only [hmacho] at hfound
    obtain ⟨⟨⟩, hfour, hrest⟩ := bind_eq_ok.1 haccept
    obtain ⟨container, hparse, -⟩ := bind_eq_ok.1 hrest
    rw [MachOParser.requireFourBytes, rejectIf_eq_ok] at hfour
    have hfat : beValue (slice bytes 0 4) = kBytesFat32 ∨ beValue (slice bytes 0 4) = kBytesFat64 := by
      rcases parseMachOContainer_magic (by omega) hparse with hthin | ⟨-, hfat⟩
      · exact absurd ((isMachO_iff haccept).2 (knownToLister_of_thin hthin)) hmacho
      · exact hfat
    rw [parseBytes_fat _ hfat (by omega)] at hfound
    simp only [if_false, Option.some.injEq] at hfound
    rw [← hfound] at hparsed
    cases hparsed
  · intro hmacho
    simp only [hmacho, if_true, hnames]
    exact ⟨_, rfl, rfl, rfl⟩

/-- A program for one processor that needs one library. -/
def smallMac : List UInt8 :=
  beBytes 4 kBytesThin64Little ++ leBytes 4 0x0100000C ++ leBytes 4 0 ++ leBytes 4 2 ++ leBytes 4 1 ++ leBytes 4 40 ++
    leBytes 8 0 ++ leBytes 4 kLcLoadDylib ++ leBytes 4 40 ++ leBytes 4 24 ++ leBytes 12 0 ++
    (bytesOf "libz.dylib" ++ List.replicate 6 0)

/-- The same program behind a wide table with one entry. -/
def wideUniversal : List UInt8 :=
  beBytes 4 kBytesFat64 ++ beBytes 4 1 ++ beBytes 4 0x0100000C ++ beBytes 4 0 ++ beBytes 8 40 ++ beBytes 8 72 ++
    beBytes 8 0 ++ smallMac

/-- A file system with one file, `/a`. -/
def oneFile (bytes : List UInt8) : World where
  canonical path := some path
  regularFiles := [bytesOf "/a"]
  entryExists path := path = bytesOf "/a"
  isDirectory _ := false
  entryNames _ := []
  readFileBytes _ := .ok bytes
  elfNames _ := .ok []
  peNames _ := .ok []
  machONames _ := .ok []

theorem smallMac_agrees_iff :
    (∃ node, (fileNode (withMachOParser (oneFile smallMac)) {} (bytesOf "/a") none).1.nodes[
        (fileNode (withMachOParser (oneFile smallMac)) {} (bytesOf "/a") none).2]? = some node ∧
      node.status = .parsed ∧ node.refs = [bytesOf "libz.dylib"]) ↔ KnownToLister smallMac :=
  fileNode_agrees_iff rfl List.mem_cons_self rfl rfl (by decide +kernel)

theorem wideUniversal_disagrees :
    MachOParser.listDependencies (bytesOf "/a") wideUniversal = .ok [bytesOf "libz.dylib"] ∧
      (fileNode (withMachOParser (oneFile wideUniversal)) {} (bytesOf "/a") none).1.nodes[
          (fileNode (withMachOParser (oneFile wideUniversal)) {} (bytesOf "/a") none).2]? =
        some { key := bytesOf "/a", status := .unreadable, reason := "Unsupported binary format" } := by
  constructor <;> decide +kernel

end TheSeed.DependencyFormats
