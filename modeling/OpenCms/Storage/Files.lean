import OpenCms.Lib.Calls
import OpenCms.Lib.JsString
import OpenCms.Lib.Table
import Mathlib.Data.List.Infix
import Mathlib.Data.List.Sort
import Mathlib.Data.List.Dedup

/-!
# The files of the storage

The storage keeps one JSON file for each thing, under names that are identifiers. A path is the list
of the names on the way to a file, the last one without the `.json` with which every file ends; so
a file and a directory of one name are told apart. The calls of the system are those the storage
makes; each of them is one step.
-/

namespace OpenCms.Storage

/-! ### Names -/

/-- What stands for other names in a pattern, or between two names. -/
def isSpecial (c : Char) : Bool :=
  c ∈ ['/', '\\', '*', '?', '[', ']', '\x7b', '\x7d', '!', '\x00']

/-- An identifier: it has no special character, is not hidden, and is not the name of a file. -/
def IsName (s : String) : Prop :=
  s.toList ≠ [] ∧ s.toList.head? ≠ some '.' ∧ (∀ c ∈ s.toList, isSpecial c = false) ∧
    ¬".json".toList <:+ s.toList

instance IsName.instDecidable (s : String) : Decidable (IsName s) :=
  haveI : Decidable (∀ c ∈ s.toList, isSpecial c = false) := List.decidableBAll _ _
  inferInstanceAs (Decidable (_ ∧ _ ∧ _ ∧ ¬_))

abbrev Name : Type := {s : String // IsName s}

namespace Name

def session : Name := ⟨"session", by decide⟩

def message : Name := ⟨"message", by decide⟩

def part : Name := ⟨"part", by decide⟩

def index : Name := ⟨"index", by decide⟩

def info : Name := ⟨"info", by decide⟩

def messages : Name := ⟨"messages", by decide⟩

def parts : Name := ⟨"parts", by decide⟩

/-- The file in which the storage notes its version, less five characters. -/
def migr : Name := ⟨"migr", by decide⟩

def sort (names : List Name) : List Name := names.insertionSort fun a b => js a.1 ≤ js b.1

end Name

abbrev Path : Type := List Name

/-- `sort` of keys: they are compared as their texts, with commas between the names. -/
def Path.sort (paths : List Path) : List Path :=
  paths.insertionSort fun a b =>
    [44].intercalate (a.map fun name => js name.1) ≤ [44].intercalate (b.map fun name => js name.1)

/-! ### Contents -/

/-- What is read of the value of a key. -/
class Document (V : Type) where
  projectID : V → Option String
  parentID : V → Option String
  sessionID : V → Option Name

/-- What is in a file: the value of a key, or an entry of one of the indexes. -/
inductive Content (V : Type)
  | data (value : V)
  | sessionIndex (projectID : String) (parentID : Option String)
  | messageIndex (projectID : String) (sessionID : Name)
  deriving DecidableEq

namespace Content

variable {V : Type} [Document V]

def projectID : Content V → Option String
  | data value => Document.projectID value
  | sessionIndex projectID _ => some projectID
  | messageIndex projectID _ => some projectID

def parentID : Content V → Option String
  | data value => Document.parentID value
  | sessionIndex _ parentID => parentID
  | messageIndex _ _ => none

def sessionID : Content V → Option Name
  | data value => Document.sessionID value
  | sessionIndex _ _ => none
  | messageIndex _ sessionID => some sessionID

end Content

/-! ### Files -/

abbrev Files (V : Type) : Type := List (Path × Content V)

namespace Files

variable {V : Type} (files : Files V)

def get (path : Path) : Option (Content V) := (Table.lookup Prod.fst files path).map Prod.snd

def put (path : Path) (content : Content V) : Files V :=
  Table.upsert Prod.fst (path, content) files

def drop (path : Path) : Files V := Table.erase Prod.fst path files

def Below (dir path : Path) : Prop := dir <+: path ∧ path ≠ dir

instance Below.instDecidable (dir path : Path) : Decidable (Below dir path) :=
  inferInstanceAs (Decidable (_ ∧ _))

def dropBelow (dir : Path) : Files V := files.filter fun file => ¬Below dir file.1

def below (dir : Path) : List Path := (files.map Prod.fst).filter fun path => Below dir path

def between (before after : Path) : List Name :=
  (files.map Prod.fst).filterMap fun path =>
    (path.drop before.length).head?.filter fun name => before ++ name :: after = path

end Files

/-- An entry of a directory: a file, of which the name is without `.json`, or a directory. -/
inductive Entry
  | file (name : Name)
  | dir (name : Name)
  deriving DecidableEq

def Files.entries {V : Type} (files : Files V) (dir : Path) : List Entry :=
  ((files.below dir).filterMap fun path =>
    match path.drop dir.length with
    | [] => none
    | [name] => some (.file name)
    | name :: _ => some (.dir name)).dedup

/-! ### Calls -/

inductive Call (V : Type)
  | readJSON (path : Path)
  | fileExists (path : Path)
  | write (path : Path) (content : Content V)
  | mkdir (dir : Path)
  | unlink (path : Path)
  | rm (dir : Path)
  | readdir (dir : Path)
  | scan (dir : Path)
  | glob (before after : Path)
  | lockRead (path : Path)
  | lockWrite (path : Path)
  | unlock

def Call.Answer {V : Type} : Call V → Type
  | readJSON _ => Option (Content V)
  | fileExists _ => Bool
  | write _ _ => Unit
  | mkdir _ => Unit
  | unlink _ => Unit
  | rm _ => Unit
  | readdir _ => List Entry
  | scan _ => List Path
  | glob _ _ => List Name
  | lockRead _ => Unit
  | lockWrite _ => Unit
  | unlock => Unit

/-- What a call does. Directories are made on the way, and a lock is free when nobody else is
there. -/
def handle {V : Type} : (c : Call V) → Files V → c.Answer × Files V
  | .readJSON path, files => (files.get path, files)
  | .fileExists path, files => ((files.get path).isSome, files)
  | .write path content, files => ((), files.put path content)
  | .mkdir _, files => ((), files)
  | .unlink path, files => ((), files.drop path)
  | .rm dir, files => ((), files.dropBelow dir)
  | .readdir dir, files => (files.entries dir, files)
  | .scan dir, files => (files.below dir, files)
  | .glob before after, files => (files.between before after, files)
  | .lockRead _, files => ((), files)
  | .lockWrite _, files => ((), files)
  | .unlock, files => ((), files)

abbrev Program (V : Type) : Type → Type := Proc (Call.Answer (V := V))

/-! ### What is in the files -/

section Lemmas

variable {V : Type} {files : Files V} {dir path path' : Path} {content : Content V} {name : Name}

def Files.Distinct (files : Files V) : Prop := (files.map Prod.fst).Nodup

namespace Files

theorem get_put :
    (files.put path content).get path' =
      if path' = path then some content else files.get path' := by
  rw [get, put, Table.lookup_upsert]
  split
  next => rfl
  next => rfl

theorem get_drop :
    (files.drop path).get path' = if path' = path then none else files.get path' := by
  rw [get, drop, Table.lookup_erase]
  split
  next => rfl
  next => rfl

theorem get_dropBelow :
    (files.dropBelow dir).get path = if Below dir path then none else files.get path := by
  induction files with
  | nil => exact (ite_self none).symm
  | cons file files ih =>
    rw [get, dropBelow] at ih ⊢
    rw [List.filter_cons]
    by_cases hfile : Below dir file.1
    · rw [if_neg (by simpa using hfile), ih, get, get, Table.lookup_cons]
      split
      next => rfl
      next hpath => rw [if_neg fun heq : file.1 = path => hpath (heq ▸ hfile)]
    · rw [if_pos (by simpa using hfile), Table.lookup_cons, get, Table.lookup_cons]
      by_cases heq : file.1 = path
      · rw [if_pos heq, if_pos heq, if_neg fun hpath => hfile (heq ▸ hpath)]
      · rw [if_neg heq, if_neg heq]
        exact ih

theorem get_ne_none : files.get path ≠ none ↔ path ∈ files.map Prod.fst := by
  rw [get, ne_eq, Option.map_eq_none_iff, Table.lookup_eq_none, not_not]

theorem Distinct.put (h : files.Distinct) : (files.put path content).Distinct :=
  Table.nodup_upsert h

theorem Distinct.drop (h : files.Distinct) : (files.drop path).Distinct := Table.nodup_erase h

theorem Distinct.dropBelow (h : files.Distinct) : (files.dropBelow dir).Distinct :=
  h.sublist (List.filter_sublist.map Prod.fst)

theorem mem_below : path ∈ files.below dir ↔ files.get path ≠ none ∧ Below dir path := by
  rw [below, List.mem_filter, decide_eq_true_eq, get_ne_none]

theorem nodup_below (h : files.Distinct) : (files.below dir).Nodup := h.sublist List.filter_sublist

theorem mem_between {before after : Path} :
    name ∈ files.between before after ↔ files.get (before ++ name :: after) ≠ none := by
  rw [between, List.mem_filterMap, get_ne_none]
  constructor
  · rintro ⟨path, hpath, hname⟩
    obtain ⟨-, heq⟩ := Option.filter_eq_some_iff.mp hname
    rwa [of_decide_eq_true heq]
  · intro hpath
    refine ⟨_, hpath, ?_⟩
    rw [List.drop_left, List.head?_cons, Option.filter_some, if_pos (decide_eq_true rfl)]

theorem below_iff : Below dir path ↔ ∃ name rest, path = dir ++ name :: rest := by
  constructor
  · rintro ⟨⟨rest, rfl⟩, hne⟩
    cases rest with
    | nil => exact absurd (List.append_nil dir) hne
    | cons name rest => exact ⟨name, rest, rfl⟩
  · rintro ⟨name, rest, rfl⟩
    exact ⟨List.prefix_append .., by simp⟩

theorem mem_entries_file :
    Entry.file name ∈ files.entries dir ↔ files.get (dir ++ [name]) ≠ none := by
  rw [entries, List.mem_dedup, List.mem_filterMap]
  constructor
  · rintro ⟨path, hpath, hentry⟩
    obtain ⟨hget, hbelow⟩ := mem_below.mp hpath
    obtain ⟨first, rest, rfl⟩ := below_iff.mp hbelow
    rw [List.drop_left] at hentry
    cases rest with
    | nil =>
      cases hentry
      exact hget
    | cons second rest => cases hentry
  · intro hget
    refine ⟨_, mem_below.mpr ⟨hget, below_iff.mpr ⟨name, [], rfl⟩⟩, ?_⟩
    rw [List.drop_left]

theorem mem_entries_dir :
    Entry.dir name ∈ files.entries dir ↔
      ∃ second rest, files.get (dir ++ name :: second :: rest) ≠ none := by
  rw [entries, List.mem_dedup, List.mem_filterMap]
  constructor
  · rintro ⟨path, hpath, hentry⟩
    obtain ⟨hget, hbelow⟩ := mem_below.mp hpath
    obtain ⟨first, rest, rfl⟩ := below_iff.mp hbelow
    rw [List.drop_left] at hentry
    cases rest with
    | nil => cases hentry
    | cons second rest =>
      cases hentry
      exact ⟨second, rest, hget⟩
  · rintro ⟨second, rest, hget⟩
    refine ⟨_, mem_below.mpr ⟨hget, below_iff.mpr ⟨name, second :: rest, rfl⟩⟩, ?_⟩
    rw [List.drop_left]

/-! ### What a write leaves as it is -/

theorem keys_put (h : files.get path ≠ none) :
    (files.put path content).map Prod.fst = files.map Prod.fst := by
  rw [put, Table.upsert, if_pos (get_ne_none.mp h)]
  exact Table.keys_update fun _ _ => rfl

theorem below_put (h : files.get path ≠ none ∨ ¬Below dir path) :
    (files.put path content).below dir = files.below dir := by
  by_cases hget : files.get path ≠ none
  · rw [below, below, keys_put hget]
  · have hnew : path ∉ files.map Prod.fst := fun hmem => hget (get_ne_none.mpr hmem)
    rw [below, below, put, Table.upsert, if_neg hnew, List.map_append, List.filter_append,
      List.map_singleton, List.filter_singleton, decide_eq_false (h.resolve_left hget), cond_false,
      List.append_nil]

/-- **A directory has the entries it had when nothing is written in it.** -/
theorem entries_put (h : ¬Below dir path) :
    (files.put path content).entries dir = files.entries dir := by
  rw [entries, entries, below_put (.inr h)]

theorem put_eq_self (hdistinct : files.Distinct) (h : files.get path = some content) :
    files.put path content = files := by
  have hpath : files.get path ≠ none := h ▸ Option.some_ne_none content
  rw [put, Table.upsert, if_pos (get_ne_none.mp hpath), Table.update]
  refine (List.map_congr_left fun file hfile => ?_).trans (List.map_id files)
  split
  next heq =>
    have hfound := (Table.lookup_eq_some_iff hdistinct).mpr ⟨hfile, heq⟩
    rw [get, hfound, Option.map_some] at h
    exact Prod.ext heq.symm (Option.some.inj h).symm
  next => rfl

theorem nodup_entries : (files.entries dir).Nodup := List.nodup_dedup _

end Files

end Lemmas

end OpenCms.Storage
