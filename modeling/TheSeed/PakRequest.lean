import Mathlib.Data.List.Flatten
import TheSeed.PakFormat

namespace TheSeed.PakRequest

open Bytes Checked Function PakDescription PakFormat
open PakLoader (PakEntry ReadFailure Refusal pakFailureThrow pakKind)
open PluginCache (Location)

/-! `Request` on a pak that is found and open: what it reads, and what it gives or throws. -/

inductive Reason
  | load (reason : PluginCache.Reason)
  | resourceMissing
  deriving DecidableEq

structure LoadError where
  reason : Reason
  name : String
  file : String
  locations : List Location
  detail : String
  kind : String
  missing : List String := []
  deriving DecidableEq

/-- The pak that the search found. -/
structure Found where
  pakName : String
  fileName : String
  locations : List Location

/-- The resources so far, by their names. -/
abbrev Resources := String → Option (List UInt8)

/-- What a part of a request gives or throws, and the entries whose resources it reads. -/
structure Run (ε α : Type) where
  outcome : Except ε α
  reads : List PakEntry := []

/-- `PakEntryRead` -/
def pakEntryRead (file : PakFile) (entry : PakEntry) : Outcome (List UInt8) :=
  if 0 < entry.size then
    match file.readAt entry.offset entry.size with
    | .error (.shortRead _) =>
        damaged ("file is shorter than its description: expected " ++ toString entry.size ++ " bytes of resource \"" ++
          entry.name ++ "\" at offset " ++ toString entry.offset ++ ", got " ++
          toString (file.bytes.length - entry.offset) ++ " (was it changed while being read?)")
    | outcome => outcome
  else .ok []

def readEntries (file : PakFile) : List PakEntry → Resources → Run ReadFailure Resources
  | [], resources => ⟨.ok resources, []⟩
  | entry :: rest, resources =>
      match pakEntryRead file entry with
      | .error failure => ⟨.error failure, [entry]⟩
      | .ok bytes =>
          let run := readEntries file rest (update resources entry.name (some bytes))
          ⟨run.outcome, entry :: run.reads⟩

/-- Each requested name once, and the absent ones among them. -/
structure Wanted where
  wanted : List String := []
  missing : List String := []

def collectNames (index : PakIndex) : List String → Wanted → Wanted
  | [], s => s
  | name :: rest, s =>
      if name ∈ s.wanted then collectNames index rest s
      else
        collectNames index rest
          { wanted := s.wanted ++ [name]
            missing := if (index.byName.lookup name).isNone then s.missing ++ [name] else s.missing }

def missingText (missing : List String) : String :=
  "does not contain " ++ ", ".intercalate (missing.map fun name => "\"" ++ name ++ "\"")

/-- `index->entries[index->by_name.at(name)]` -/
def entryOf (index : PakIndex) (name : String) : Option PakEntry :=
  (index.byName.lookup name).bind fun position => index.entries[position]?

def refused (found : Found) (refusal : Refusal) : LoadError :=
  ⟨.load refusal.reason, found.pakName, found.fileName, found.locations, refusal.detail, pakKind, []⟩

def throwFailure (found : Found) (run : Run ReadFailure Resources) : Run LoadError Resources where
  outcome := run.outcome.mapError fun failure => refused found (pakFailureThrow failure)
  reads := run.reads

/-- The second argument is what `IndexGet` gives. -/
def request (file : PakFile) (index : Except Refusal PakIndex) (found : Found) (resourceNames : Option (List String)) :
    Run LoadError Resources :=
  match index with
  | .error refusal => ⟨.error (refused found refusal), []⟩
  | .ok index =>
      match resourceNames with
      | none => throwFailure found (readEntries file index.entries fun _ => none)
      | some names =>
          let collected := collectNames index names {}
          if collected.missing ≠ [] then
            ⟨.error ⟨.resourceMissing, found.pakName, found.fileName, [], missingText collected.missing, pakKind,
              collected.missing⟩, []⟩
          else
            throwFailure found (readEntries file (collected.wanted.filterMap (entryOf index)) fun _ => none)

/-! Names -/

variable {file : PakFile} {index : PakIndex} {names : List String} {name : String}

def absent (index : PakIndex) (name : String) : Bool := (index.byName.lookup name).isNone

theorem collectNames_eq (index : PakIndex) (names : List String) (s : Wanted) : collectNames index names s =
    { wanted := s.wanted ++ (names.filter fun name => name ∉ s.wanted).eraseDups
      missing := s.missing ++ ((names.filter fun name => name ∉ s.wanted).eraseDups).filter (absent index) } := by
  induction names generalizing s with
  | nil => simp [collectNames]
  | cons name rest ih =>
      rw [collectNames]
      by_cases hseen : name ∈ s.wanted
      · rw [if_pos hseen, ih, List.filter_cons_of_neg (by simpa using hseen)]
      · have hrest : rest.filter (fun other => other ∉ s.wanted ++ [name]) =
            (rest.filter fun other => other ∉ s.wanted).filter fun other => !other == name := by
          rw [List.filter_filter]
          refine List.filter_congr fun other _ => ?_
          by_cases heq : other = name <;> simp [heq]
        rw [if_neg hseen, ih, List.filter_cons_of_pos (by simpa using hseen), List.eraseDups_cons, hrest]
        by_cases habsent : absent index name = true
        · have hnone : (index.byName.lookup name).isNone = true := habsent
          rw [List.filter_cons_of_pos habsent]
          simp [hnone]
        · have hsome : ¬ (index.byName.lookup name).isNone = true := habsent
          rw [List.filter_cons_of_neg habsent]
          simp [hsome]

/-- Each name once, in the order in which the names occur first. -/
theorem collectNames_start (index : PakIndex) (names : List String) : collectNames index names {} =
    { wanted := names.eraseDups, missing := names.eraseDups.filter (absent index) } := by
  have hall : names.filter (fun name => name ∉ ([] : List String)) = names := List.filter_eq_self.2 fun _ _ => by simp
  rw [collectNames_eq, hall]
  rfl

theorem nodup_eraseDups (names : List String) : names.eraseDups.Nodup := by
  induction hlength : names.length using Nat.strongRecOn generalizing names with
  | ind n ih =>
      cases names with
      | nil => exact List.nodup_nil
      | cons name rest =>
          have hshort : (rest.filter fun other => !other == name).length < n := by
            have hle := List.length_filter_le (fun other => !other == name) rest
            rw [List.length_cons] at hlength
            omega
          rw [List.eraseDups_cons, List.nodup_cons, List.mem_eraseDups]
          exact ⟨by simp, ih _ hshort _ rfl⟩

/-! Resources -/

theorem pakEntryRead_of_inside {entry : PakEntry} (h : entry.offset + entry.size ≤ file.bytes.length) :
    pakEntryRead file entry = .ok (slice file.bytes entry.offset entry.size) := by
  rw [pakEntryRead]
  by_cases hsize : 0 < entry.size
  · rw [if_pos hsize, PakFile.readAt, if_pos h]
  · have hzero : entry.size = 0 := by omega
    rw [if_neg hsize, hzero, slice, List.take_zero]

/-- Of entries with distinct names each puts its bytes under its name. -/
theorem readEntries_eq {entries : List PakEntry} (hinside : ∀ entry ∈ entries, entry.offset + entry.size ≤ file.bytes.length)
    (hdistinct : (entries.map PakEntry.name).Nodup) (resources : Resources) :
    ∃ map, readEntries file entries resources = ⟨.ok map, entries⟩ ∧
      (∀ entry ∈ entries, map entry.name = some (slice file.bytes entry.offset entry.size)) ∧
      ∀ name, name ∉ entries.map PakEntry.name → map name = resources name := by
  induction entries generalizing resources with
  | nil => exact ⟨resources, rfl, by simp, fun _ _ => rfl⟩
  | cons entry rest ih =>
      obtain ⟨hentry, hrest⟩ := List.forall_mem_cons.1 hinside
      rw [List.map_cons, List.nodup_cons] at hdistinct
      obtain ⟨map, hmap, hread, hkept⟩ := ih hrest hdistinct.2
        (update resources entry.name (some (slice file.bytes entry.offset entry.size)))
      refine ⟨map, ?_, List.forall_mem_cons.2 ⟨?_, hread⟩, fun name hname => ?_⟩
      · rw [readEntries, pakEntryRead_of_inside hentry]
        simp only [hmap]
      · rw [hkept _ hdistinct.1, update_self]
      · rw [List.map_cons, List.mem_cons, not_or] at hname
        rw [hkept _ hname.2, update_of_ne hname.1]

/-- The map has the wanted names and no others, each with its part of the file. -/
structure Gives (bytes : List UInt8) (p : Nat) (resources : List (String × Nat)) (wanted : String → Prop)
    (map : Resources) : Prop where
  keys : ∀ name, (map name).isSome = true ↔ wanted name
  values : ∀ (k : Nat) (name : String) (size : Nat), resources[k]? = some (name, size) → wanted name →
    map name = some (slice bytes (p + 1 + sizes (resources.take k)) size)

variable {p : Nat} {resources : List (String × Nat)} {bytes : List UInt8}

theorem absent_iff (ht : Tiles bytes p resources index) : absent index name = true ↔ name ∉ resources.map Prod.fst := by
  rw [absent, Option.isNone_iff_eq_none, Option.eq_none_iff_forall_ne_some]
  constructor
  · intro h hname
    obtain ⟨⟨other, size⟩, hin, rfl⟩ := List.mem_map.1 hname
    obtain ⟨k, hk⟩ := List.getElem?_of_mem hin
    exact h k ((ht.byName _ _).2 ⟨size, hk⟩)
  · intro h k hk
    obtain ⟨size, hsize⟩ := (ht.byName _ _).1 hk
    exact h (List.mem_map.2 ⟨_, List.mem_of_getElem? hsize, rfl⟩)

theorem entryOf_eq (ht : Tiles bytes p resources index) {k size : Nat} (hk : resources[k]? = some (name, size)) :
    entryOf index name = some ⟨name, p + 1 + sizes (resources.take k), size⟩ := by
  rw [entryOf, (ht.byName _ _).2 ⟨size, hk⟩, Option.bind_some, ht.entry _ _ _ hk]

/-- The names of the entries that are looked up by names. -/
theorem entryOf_name (ht : Tiles bytes p resources index) {entry : PakEntry} (h : entryOf index name = some entry) :
    entry.name = name ∧ entry ∈ index.entries := by
  rw [entryOf, Option.bind_eq_some_iff] at h
  obtain ⟨k, hk, hentry⟩ := h
  obtain ⟨size, hsize⟩ := (ht.byName _ _).1 hk
  rw [ht.entry _ _ _ hsize, Option.some.injEq] at hentry
  subst hentry
  exact ⟨rfl, List.mem_of_getElem? (ht.entry _ _ _ hsize)⟩

theorem present_entry (ht : Tiles bytes p resources index) (h : name ∈ resources.map Prod.fst) :
    ∃ k size, resources[k]? = some (name, size) ∧
      entryOf index name = some ⟨name, p + 1 + sizes (resources.take k), size⟩ := by
  obtain ⟨⟨other, size⟩, hin, rfl⟩ := List.mem_map.1 h
  obtain ⟨k, hk⟩ := List.getElem?_of_mem hin
  exact ⟨k, size, hk, entryOf_eq ht hk⟩

theorem names_of_entries (ht : Tiles bytes p resources index) (h : ∀ name ∈ names, name ∈ resources.map Prod.fst) :
    (names.filterMap (entryOf index)).map PakEntry.name = names := by
  induction names with
  | nil => rfl
  | cons name rest ih =>
      obtain ⟨hname, hrest⟩ := List.forall_mem_cons.1 h
      obtain ⟨k, size, -, hentry⟩ := present_entry ht hname
      rw [List.filterMap_cons, hentry, List.map_cons, ih hrest]

/-- What the loop over the entries of some names gives. -/
theorem readEntries_gives (ht : Tiles file.bytes p resources index) (h : ∀ name ∈ names, name ∈ resources.map Prod.fst)
    (hnodup : names.Nodup) : ∃ map, readEntries file (names.filterMap (entryOf index)) (fun _ => none) =
      ⟨.ok map, names.filterMap (entryOf index)⟩ ∧ Gives file.bytes p resources (· ∈ names) map := by
  have hnames := names_of_entries ht h
  have hinside : ∀ entry ∈ names.filterMap (entryOf index), entry.offset + entry.size ≤ file.bytes.length := by
    intro entry hentry
    obtain ⟨name, -, hname⟩ := List.mem_filterMap.1 hentry
    exact (ht.inside entry (entryOf_name ht hname).2).2
  obtain ⟨map, hmap, hread, hkept⟩ := readEntries_eq hinside (by rwa [hnames]) fun _ => none
  rw [hnames] at hkept
  refine ⟨map, hmap, fun name => ⟨fun hsome => ?_, fun hname => ?_⟩, fun k name size hk hname => ?_⟩
  · by_contra hname
    rw [hkept name hname] at hsome
    cases hsome
  · obtain ⟨k, size, -, hentry⟩ := present_entry ht (h name hname)
    rw [hread _ (List.mem_filterMap.2 ⟨name, hname, hentry⟩)]
    rfl
  · exact hread _ (List.mem_filterMap.2 ⟨name, hname, entryOf_eq ht hk⟩)

/-- All the entries, in the order of the description. -/
theorem entries_eq (ht : Tiles bytes p resources index) :
    (resources.map Prod.fst).filterMap (entryOf index) = index.entries := by
  refine List.ext_getElem? fun k => ?_
  have hmap : (resources.map Prod.fst).filterMap (entryOf index) =
      (resources.map Prod.fst).map fun name => (entryOf index name).getD ⟨name, 0, 0⟩ := by
    refine List.filterMap_eq_map_iff_forall_eq_some.2 fun name hname => ?_
    obtain ⟨_, _, -, hentry⟩ := present_entry ht hname
    rw [hentry, Option.getD_some]
  rw [hmap, List.getElem?_map, List.getElem?_map]
  cases hk : resources[k]? with
  | none =>
      rw [List.getElem?_eq_none_iff, ← ht.count] at hk
      rw [List.getElem?_eq_none hk]
      rfl
  | some resource =>
      obtain ⟨name, size⟩ := resource
      rw [ht.entry _ _ _ hk, Option.map_some, Option.map_some, entryOf_eq ht hk, Option.getD_some]

/-- A request gives exactly what was asked for, or names what is not there without reading a resource. -/
theorem request_exact {parse : JsonParse} (found : Found) (hread : pakIndexRead parse file = .ok index) :
    ∃ p resources, Describes parse file.bytes p resources ∧
      (∀ names : List String, (∀ name ∈ names, name ∈ resources.map Prod.fst) →
        ∃ map, (request file (.ok index) found (some names)).outcome = .ok map ∧
          Gives file.bytes p resources (· ∈ names) map) ∧
      (∀ names : List String, (¬ ∀ name ∈ names, name ∈ resources.map Prod.fst) →
        ∃ missing, missing = names.eraseDups.filter (· ∉ resources.map Prod.fst) ∧
          request file (.ok index) found (some names) =
            ⟨.error ⟨.resourceMissing, found.pakName, found.fileName, [], missingText missing, pakKind, missing⟩, []⟩) ∧
      ∃ map, (request file (.ok index) found none).outcome = .ok map ∧
        Gives file.bytes p resources (· ∈ resources.map Prod.fst) map := by
  obtain ⟨p, resources, hd, -, ht⟩ := (pak_reader_exact parse file).2 index hread
  have hmissing : ∀ names : List String, (collectNames index names {}).missing =
      names.eraseDups.filter (· ∉ resources.map Prod.fst) := by
    intro names
    rw [collectNames_start]
    refine List.filter_congr fun name _ => ?_
    rw [Bool.eq_iff_iff, absent_iff ht, decide_eq_true_eq]
  refine ⟨p, resources, hd, fun names hall => ?_, fun names hsome => ?_, ?_⟩
  · have hnone : (collectNames index names {}).missing = [] := by
      rw [hmissing, List.filter_eq_nil_iff]
      intro name hname
      simpa using hall name (List.mem_eraseDups.1 hname)
    have hwanted : (collectNames index names {}).wanted = names.eraseDups := by rw [collectNames_start]
    obtain ⟨map, hmap, hgives⟩ := readEntries_gives ht (fun name hname => hall name (List.mem_eraseDups.1 hname))
      (nodup_eraseDups names)
    refine ⟨map, ?_, fun name => (hgives.keys name).trans List.mem_eraseDups, fun k name size hk hname =>
      hgives.values k name size hk (List.mem_eraseDups.2 hname)⟩
    simp only [request, hnone, ne_eq, not_true_eq_false, if_false, hwanted, hmap]
    rfl
  · have hne : (collectNames index names {}).missing ≠ [] := by
      rw [hmissing, ne_eq, List.filter_eq_nil_iff]
      intro hnil
      refine hsome fun name hname => ?_
      simpa using hnil name (List.mem_eraseDups.2 hname)
    refine ⟨_, rfl, ?_⟩
    rw [hmissing] at hne
    simp only [request, hmissing]
    rw [if_pos hne]
  · obtain ⟨map, hmap, hgives⟩ := @readEntries_gives file index (resources.map Prod.fst) p resources ht
      (fun _ hname => hname) hd.distinct
    rw [entries_eq ht] at hmap
    refine ⟨map, ?_, hgives⟩
    simp only [request, hmap]
    rfl

def smallFound : Found := ⟨"org/small", "/paks/small.pak", []⟩

theorem request_exact_small : Describes smallParse smallPak.bytes 77 [("a", 1), ("b", 2)] ∧
    (∃ map, (request smallPak (.ok smallIndex) smallFound (some ["b", "a", "b"])).outcome = .ok map ∧
      Gives smallPak.bytes 77 [("a", 1), ("b", 2)] (· ∈ ["b", "a", "b"]) map) ∧
    request smallPak (.ok smallIndex) smallFound (some ["z", "a", "y", "z"]) =
      ⟨.error ⟨.resourceMissing, "org/small", "/paks/small.pak", [], missingText ["z", "y"], pakKind, ["z", "y"]⟩, []⟩ ∧
    ∃ map, (request smallPak (.ok smallIndex) smallFound none).outcome = .ok map ∧
      Gives smallPak.bytes 77 [("a", 1), ("b", 2)] (· ∈ ["a", "b"]) map := by
  obtain ⟨p, resources, hd, hall, hsome, hnone⟩ := request_exact smallFound smallIndex_read
  obtain ⟨hp, rfl⟩ := hd.of_read smallIndex_read
  obtain rfl : p = 77 := Nat.succ.inj hp
  obtain ⟨missing, rfl, hmissing⟩ := hsome ["z", "a", "y", "z"] (by decide)
  exact ⟨hd, hall ["b", "a", "b"] (by decide), hmissing, hnone⟩

end TheSeed.PakRequest
