import OpenCms.Lib.FileTree
import OpenCms.Patch.Derive

/-!
# Hunks applied to files

The way of a patch to the disk that `applyPatch` takes: `OpenCms.Patch.applyHunksToFiles`
applies the hunks one after another, each to what the ones before it left.

A path of a hunk is text. The system follows it name by name from the directory the process
is in (`OpenCms.Patch.follow`); `path.resolve` only calculates with the names
(`OpenCms.Patch.resolve`), and the two agree where the system gets through
(`OpenCms.Patch.resolve_of_follow`).
-/

namespace OpenCms.Patch

/-- A place on the disk: the names that lead there, the innermost first. -/
abbrev Path : Type := List Text

abbrev Files : Type := FileTree Text Text

/-! ### Paths -/

def isAbsolute (path : Text) : Bool := path.head? = some '/'

def segments (path : Text) : List Text := path.splitOn '/'

def enter (p : Path) (name : Text) : Path :=
  if name = [] ∨ name = txt "." then p
  else if name = txt ".." then p.tail
  else name :: p

def start (directory : Path) (path : Text) : Path := if isAbsolute path then [] else directory

def resolve (directory : Path) (path : Text) : Path :=
  (segments path).foldl enter (start directory path)

def followName (t : Files) (p : Path) (name : Text) : Option Path :=
  if t.node p = some .dir then some (enter p name) else none

def follow (t : Files) (directory : Path) (path : Text) : Option Path :=
  if path = [] ∨ '\x00' ∈ path then none
  else (segments path).foldlM (followName t) (start directory path)

def dirnames (path : Text) : List Text :=
  ((segments path).rdropWhile (· = [])).dropLast

def makeName (way : Files × Path) (name : Text) : Option (Files × Path) :=
  if way.1.node way.2 = some .dir then
    let p := enter way.2 name
    (way.1.mkdirs p).map (·, p)
  else none

/-! ### The hunks one after another -/

/-- Why hunks cannot be applied. -/
inductive FilesError
  /-- `No files were modified.` -/
  | noFiles
  /-- `Failed to read file …`. -/
  | read (path : Text)
  | derive (error : DeriveError)
  /-- A call of the system failed. -/
  | system (path : Text)
  deriving DecidableEq

structure AffectedPaths where
  added : List Text
  modified : List Text
  deleted : List Text
  deriving DecidableEq

def orFail {ε α : Type} (error : ε) : Option α → Except ε α
  | some a => .ok a
  | none => .error error

theorem orFail_eq_ok {ε α : Type} {error : ε} {x : Option α} {a : α} :
    orFail error x = .ok a ↔ x = some a := by
  cases x <;> simp [orFail]

section Disk

variable (t : Files) (cwd : Path)

def readFileSync (path : Text) : Option Text := (follow t cwd path).bind t.readFile

def writeFile (path contents : Text) : Except FilesError Files :=
  orFail (.system path) ((follow t cwd path).bind (t.writeFile · contents))

def unlink (path : Text) : Except FilesError Files :=
  orFail (.system path) ((follow t cwd path).bind t.unlink)

def mkdirFor (path : Text) : Except FilesError Files :=
  orFail (.system path)
    (((dirnames path).foldlM makeName (t, start cwd path)).map Prod.fst)

/-- The move path of an update; an empty one counts as none. -/
def movePath (move_path : Option Text) : Option Text := move_path.filter (· ≠ [])

def applyHunk (affected : AffectedPaths) : Hunk → Except FilesError (Files × AffectedPaths)
  | .add path contents => do
    let t ← mkdirFor t cwd path
    let t ← writeFile t cwd path contents
    return (t, { affected with added := affected.added ++ [path] })
  | .delete path => do
    let t ← unlink t cwd path
    return (t, { affected with deleted := affected.deleted ++ [path] })
  | .update path move_path chunks => do
    let originalContent ← orFail (.read path) (readFileSync t cwd path)
    let content ← (deriveNewContentsFromChunks originalContent chunks).mapError .derive
    match movePath move_path with
    | some m =>
      let t ← mkdirFor t cwd m
      let t ← writeFile t cwd m content
      let t ← unlink t cwd path
      return (t, { affected with modified := affected.modified ++ [m] })
    | none =>
      let t ← writeFile t cwd path content
      return (t, { affected with modified := affected.modified ++ [path] })

end Disk

def applyHunks (cwd : Path) :
    Files → AffectedPaths → List Hunk → Except FilesError (Files × AffectedPaths)
  | t, affected, [] => .ok (t, affected)
  | t, affected, hunk :: hunks => do
    let (t, affected) ← applyHunk t cwd affected hunk
    applyHunks cwd t affected hunks

def applyHunksToFiles (t : Files) (cwd : Path) (hunks : List Hunk) :
    Except FilesError (Files × AffectedPaths) :=
  if hunks = [] then .error .noFiles else applyHunks cwd t ⟨[], [], []⟩ hunks

/-! ### Where a path leads -/

theorem resolve_of_follow {t : Files} {directory : Path} {path : Text} {p : Path}
    (h : follow t directory path = some p) : resolve directory path = p := by
  unfold follow at h
  split at h
  · simp at h
  · unfold resolve
    generalize start directory path = q at h ⊢
    generalize segments path = names at h ⊢
    induction names generalizing q with
    | nil => exact Option.some.inj h
    | cons name names ih =>
      obtain ⟨q', hq', hrest⟩ := Option.bind_eq_some_iff.mp h
      have henter : enter q name = q' := by
        unfold followName at hq'
        split at hq'
        · exact Option.some.inj hq'
        · simp at hq'
      rw [List.foldl_cons, henter]
      exact ih q' hrest

end OpenCms.Patch
