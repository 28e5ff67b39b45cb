import OpenCms.Lib.Runs
import OpenCms.Patch.Files
import OpenCms.Patch.Derive

/-!
# The tool that applies a patch

`apply_patch` works in two passes. It plans: each hunk is looked at beside the disk as it
is, and comes to a change, to nothing, or to an error (`OpenCms.Tool.plan`). When the
whole plan stands and is approved, it writes: the changes are made one after another, each
with a look at what is on the disk afterwards (`OpenCms.Tool.applyChanges`). An error carries
the disk it leaves.

So a hunk that cannot be applied stops the tool before anything is written. But the plan
sees the disk without the changes that come before: a file planned to be deleted twice, or
to be moved onto itself, goes wrong in the second pass, and what was written stays.
`OpenCms.Tool.Ready` says when a change can be made, and
`OpenCms.Tool.allOrNothing_iff` that the tool is all or nothing exactly if each change is
ready where the ones before it leave the disk, or the very first finds its place taken.
-/

namespace OpenCms.Tool

open Patch

/-! ### The plan -/

/-- Where the tool runs, and what it is allowed: which places are in scope
(`assertPatchPathAllowed`), which may be touched as far as they are outside of the project
(`assertExternalDirectory`), and what comes of the question for the permission to edit. -/
structure Session where
  directory : Path
  inScope : Path → Bool
  external : Path → Bool
  approve : Bool

inductive ToolError
  /-- `apply_patch verification failed: no hunks found`, or `patch rejected: empty patch`. -/
  | noHunks
  /-- `apply_patch verification failed: … is empty`. -/
  | isEmpty (label : Text)
  /-- `apply_patch verification failed: … contains NUL byte: …`. -/
  | nul (label input : Text)
  /-- `apply_patch verification failed: … resolves outside allowed scope …`. -/
  | outside (label : Text) (filePath : Path)
  /-- The directory is outside of the project, and the user does not want it touched. -/
  | external (filePath : Path)
  /-- `apply_patch verification failed: Failed to read file to update: …`. -/
  | notAFile (filePath : Path)
  /-- The chunks of an update cannot be applied. -/
  | derive (error : DeriveError)
  /-- A file to delete cannot be read. -/
  | unreadable (filePath : Path)
  /-- The permission to edit is not given. -/
  | rejected
  /-- A call of the system failed. -/
  | system (filePath : Path)
  /-- `apply_patch post-write verification failed: …`. -/
  | verification (filePath : Path)
  deriving DecidableEq

/-- A change of the plan, with what it is about. -/
inductive FileChange
  | add (filePath : Path) (oldContent newContent : Text)
  | update (filePath : Path) (oldContent newContent : Text)
  | move (filePath movePath : Path) (oldContent newContent : Text)
  | delete (filePath : Path) (oldContent : Text)
  deriving DecidableEq

/-- `replaceAll("\\", "/")`. -/
def slashes (path : Text) : Text := path.map fun c => if c = '\\' then '/' else c

def normalizeName (relative : Bool) (p : Path) (name : Text) : Path :=
  if name = [] ∨ name = txt "." then p
  else if name = txt ".." then
    match p with
    | n :: rest => if n = txt ".." then if relative then txt ".." :: p else p else rest
    | [] => if relative then [txt ".."] else []
  else name :: p

def normalize (path : Text) : Text :=
  let names := (segments path).foldl (normalizeName (!isAbsolute path)) []
  let trailing := if path.getLast? = some '/' then ['/'] else []
  if isAbsolute path then
    if names = [] then ['/'] else '/' :: ['/'].intercalate names.reverse ++ trailing
  else if names = [] then '.' :: trailing
  else ['/'].intercalate names.reverse ++ trailing

def pathText (p : Path) : Text := '/' :: ['/'].intercalate p.reverse

def normalizedDisplayPath (input : Text) (absolutePath : Path) : Text :=
  if isAbsolute input then slashes (normalize (pathText absolutePath))
  else normalize (slashes input)

variable (s : Session) (t : Files)

def resolvePatchPath (input label : Text) : Except ToolError Path :=
  if input = [] then .error (.isEmpty label)
  else if '\x00' ∈ input then .error (.nul label input)
  else
    let filePath := resolve s.directory input
    let normalizedPath := normalizedDisplayPath input filePath
    if normalizedPath = [] ∨ normalizedPath = txt "." then .error (.isEmpty label)
    else if s.inScope filePath then .ok filePath
    else .error (.outside label filePath)

def assertExternalDirectory (target : Path) : Except ToolError Unit :=
  if s.external target then .ok () else .error (.external target)

def addedContent (contents : Text) : Text :=
  if contents = [] ∨ contents.getLast? = some '\n' then contents else contents ++ ['\n']

def planHunk : Hunk → Except ToolError (Option FileChange)
  | .add path contents => do
    let filePath ← resolvePatchPath s path (txt "file path")
    assertExternalDirectory s filePath
    let oldContent := (t.readFile filePath).getD []
    let newContent := addedContent contents
    if oldContent = newContent then return none
    else return some (.add filePath oldContent newContent)
  | .update path move_path chunks => do
    let filePath ← resolvePatchPath s path (txt "file path")
    assertExternalDirectory s filePath
    let oldContent ← orFail (.notAFile filePath) (t.readFile filePath)
    match ← (deriveOrSkip oldContent chunks).mapError .derive with
    | none => return none
    | some newContent =>
      match Patch.movePath move_path with
      | none =>
        if oldContent = newContent then return none
        else return some (.update filePath oldContent newContent)
      | some m =>
        let movePath ← resolvePatchPath s m (txt "move path")
        assertExternalDirectory s movePath
        return some (.move filePath movePath oldContent newContent)
  | .delete path => do
    let filePath ← resolvePatchPath s path (txt "file path")
    assertExternalDirectory s filePath
    match t.node filePath with
    | none => return none
    | some .dir => throw (.unreadable filePath)
    | some (.file contentToDelete) => return some (.delete filePath contentToDelete)

def plan : List Hunk → Except ToolError (List FileChange)
  | [] => .ok []
  | hunk :: hunks => do
    let change ← planHunk s t hunk
    let fileChanges ← plan hunks
    return change.toList ++ fileChanges

/-! ### The changes made -/

/-- A call of the system; where it fails the disk is as it was. -/
def attempt (filePath : Path) : Option Files → Except (ToolError × Files) Files
  | some t' => .ok t'
  | none => .error (.system filePath, t)

def verifyWrittenContent (filePath : Path) (expected : Text) : Except (ToolError × Files) Unit :=
  if t.readFile filePath = some expected then .ok () else .error (.verification filePath, t)

def verifyDeleted (filePath : Path) : Except (ToolError × Files) Unit :=
  if t.node filePath = none then .ok () else .error (.verification filePath, t)

def writeNew (filePath : Path) (newContent : Text) : Except (ToolError × Files) Files := do
  let t ← attempt t filePath (t.mkdirs filePath.tail)
  attempt t filePath (t.writeFile filePath newContent)

def applyChange : FileChange → Except (ToolError × Files) Files
  | .add filePath _ newContent => do
    let t ← writeNew t filePath newContent
    verifyWrittenContent t filePath newContent
    return t
  | .update filePath _ newContent => do
    let t ← attempt t filePath (t.writeFile filePath newContent)
    verifyWrittenContent t filePath newContent
    return t
  | .move filePath movePath _ newContent => do
    let t ← writeNew t movePath newContent
    let t ← attempt t filePath (t.unlink filePath)
    verifyWrittenContent t movePath newContent
    verifyDeleted t filePath
    return t
  | .delete filePath _ => do
    let t ← attempt t filePath (t.unlink filePath)
    verifyDeleted t filePath
    return t

def applyChanges (t : Files) (fileChanges : List FileChange) : Except (ToolError × Files) Files :=
  fileChanges.foldlM applyChange t

def execute (hunks : List Hunk) : Except (ToolError × Files) Files :=
  if hunks = [] then .error (.noHunks, t)
  else
    match plan s t hunks with
    | .error e => .error (e, t)
    | .ok [] => .ok t
    | .ok fileChanges =>
      if s.approve then applyChanges t fileChanges else .error (.rejected, t)

/-! ### When a change can be made -/

/-- The change can be made: its place is free or holds a file, and what it takes away is a
file that it does not write itself. -/
def Ready (t : Files) : FileChange → Prop
  | .add filePath _ _ => t.Writable filePath
  | .update filePath _ _ => t.Replaceable filePath
  | .move filePath movePath _ _ => t.Writable movePath ∧ t.IsFile filePath ∧ filePath ≠ movePath
  | .delete filePath _ => t.IsFile filePath

/-- No file can be put where the change puts one. -/
def Taken (t : Files) : FileChange → Prop
  | .add filePath _ _ => ¬t.Writable filePath
  | .move _ movePath _ _ => ¬t.Writable movePath
  | _ => False

def made (t : Files) (change : FileChange) : Files :=
  match applyChange t change with
  | .ok t' => t'
  | .error (_, t') => t'

variable {s t} {t' : Files} {p q : Path} {c : Text} {e : ToolError} {change : FileChange}
  {changes : List FileChange} {hunk : Hunk} {hunks : List Hunk}

theorem bind_eq_error {ε α β : Type} {x : Except ε α} {f : α → Except ε β} {e : ε} :
    x >>= f = .error e ↔ x = .error e ∨ ∃ a, x = .ok a ∧ f a = .error e := by
  cases x with
  | error e => simp [bind, Except.bind]
  | ok a => simp [bind, Except.bind]

theorem attempt_eq_ok {x : Option Files} : attempt t p x = .ok t' ↔ x = some t' := by
  cases x <;> simp [attempt]

theorem attempt_eq_error {x : Option Files} :
    attempt t p x = .error (e, t') ↔ x = none ∧ e = .system p ∧ t' = t := by
  cases x <;> simp [attempt, eq_comm]

theorem writeNew_node (h : writeNew t p c = .ok t') :
    t'.node p = some (.file c) ∧
      ∀ q x, q ≠ p → (t'.node q = some (.file x) ↔ t.node q = some (.file x)) := by
  obtain ⟨t₁, hmkdirs, hwrite⟩ := bind_eq_ok.mp h
  obtain ⟨hway, hnode⟩ := FileTree.mkdirs_eq_some.mp (attempt_eq_ok.mp hmkdirs)
  obtain ⟨-, hnode'⟩ := FileTree.writeFile_eq_some.mp (attempt_eq_ok.mp hwrite)
  refine ⟨by rw [hnode', Function.update_self], fun q x hq => ?_⟩
  rw [hnode', Function.update_of_ne hq, hnode]
  split
  next hsuffix => simpa using fun hx => hway q hsuffix ⟨x, hx⟩
  · rfl

theorem writeNew_eq_ok : (∃ t', writeNew t p c = .ok t') ↔ t.Writable p := by
  constructor
  · rintro ⟨t', h⟩
    obtain ⟨t₁, hmkdirs, hwrite⟩ := bind_eq_ok.mp h
    obtain ⟨hway, hnode⟩ := FileTree.mkdirs_eq_some.mp (attempt_eq_ok.mp hmkdirs)
    obtain ⟨⟨hd, hfree⟩, -⟩ := FileTree.writeFile_eq_some.mp (attempt_eq_ok.mp hwrite)
    rw [List.tail_cons] at hway hnode
    rw [hnode, if_neg (FileTree.not_cons_suffix _ _)] at hfree
    exact .intro hway hfree
  · rintro ⟨hway, hfree⟩
    obtain ⟨t₁, hmkdirs, -⟩ := FileTree.exists_mkdirs hway
    obtain ⟨t₂, hwrite⟩ :=
      FileTree.exists_writeFile (FileTree.replaceable_of_mkdirs hmkdirs hfree) c
    refine ⟨t₂, bind_eq_ok.mpr ⟨t₁, attempt_eq_ok.mpr hmkdirs, attempt_eq_ok.mpr hwrite⟩⟩

theorem writeNew_eq_error (h : writeNew t p c = .error (e, t')) : t' = t := by
  rcases bind_eq_error.mp h with hmkdirs | ⟨t₁, hmkdirs, hwrite⟩
  · exact (attempt_eq_error.mp hmkdirs).2.2
  · obtain ⟨hnone, -, rfl⟩ := attempt_eq_error.mp hwrite
    have hmade := attempt_eq_ok.mp hmkdirs
    cases p with
    | nil => exact (Option.some.inj hmade).symm
    | cons n d =>
      by_cases hfree : t.node (n :: d) = some .dir
      · have hdir : t.node d = some .dir := t.parent n d (by simp [hfree])
        exact Option.some.inj (hmade.symm.trans (FileTree.mkdirs_of_dir hdir))
      · obtain ⟨t₂, hsome⟩ :=
          FileTree.exists_writeFile (FileTree.replaceable_of_mkdirs hmade hfree) c
        simp [hnone] at hsome

theorem verifyWrittenContent_eq_ok :
    verifyWrittenContent t p c = .ok () ↔ t.node p = some (.file c) := by
  rw [verifyWrittenContent, ← FileTree.readFile_eq_some]
  split <;> simp_all

theorem verifyDeleted_eq_ok : verifyDeleted t p = .ok () ↔ t.node p = none := by
  rw [verifyDeleted]
  split <;> simp_all

def Done (t : Files) : FileChange → Prop
  | .add filePath _ newContent | .update filePath _ newContent =>
    t.node filePath = some (.file newContent)
  | .move filePath _ _ _ | .delete filePath _ => t.node filePath = none

theorem move_eq_ok {m : Path} {old new : Text} :
    applyChange t (.move p m old new) = .ok t' ↔
      ∃ t₁, writeNew t m new = .ok t₁ ∧ t₁.IsFile p ∧ p ≠ m ∧
        t'.node = Function.update t₁.node p none := by
  constructor
  · intro h
    obtain ⟨t₁, hwrite, h⟩ := bind_eq_ok.mp h
    obtain ⟨t₂, hunlink, h⟩ := bind_eq_ok.mp h
    obtain ⟨_, hverify, h⟩ := bind_eq_ok.mp h
    obtain ⟨-, -, h⟩ := bind_eq_ok.mp h
    obtain rfl := Except.ok.inj h
    obtain ⟨hfile, hnode⟩ := FileTree.unlink_eq_some.mp (attempt_eq_ok.mp hunlink)
    refine ⟨t₁, hwrite, hfile, ?_, hnode⟩
    rintro rfl
    have hread := verifyWrittenContent_eq_ok.mp hverify
    rw [hnode, Function.update_self] at hread
    simp at hread
  · rintro ⟨t₁, hwrite, hfile, hne, hnode⟩
    have hunlink : t₁.unlink p = some t' := FileTree.unlink_eq_some.mpr ⟨hfile, hnode⟩
    have hread : t'.node m = some (.file new) := by
      rw [hnode, Function.update_of_ne hne.symm, (writeNew_node hwrite).1]
    have hgone : t'.node p = none := by rw [hnode, Function.update_self]
    refine bind_eq_ok.mpr ⟨t₁, hwrite, bind_eq_ok.mpr ⟨t', attempt_eq_ok.mpr hunlink, ?_⟩⟩
    rw [verifyWrittenContent_eq_ok.mpr hread, verifyDeleted_eq_ok.mpr hgone]
    rfl

theorem delete_eq_ok {old : Text} :
    applyChange t (.delete p old) = .ok t' ↔
      t.IsFile p ∧ t'.node = Function.update t.node p none := by
  constructor
  · intro h
    obtain ⟨t₁, hunlink, h⟩ := bind_eq_ok.mp h
    obtain ⟨-, -, h⟩ := bind_eq_ok.mp h
    obtain rfl := Except.ok.inj h
    exact FileTree.unlink_eq_some.mp (attempt_eq_ok.mp hunlink)
  · rintro ⟨hfile, hnode⟩
    have hunlink : t.unlink p = some t' := FileTree.unlink_eq_some.mpr ⟨hfile, hnode⟩
    have hgone : t'.node p = none := by rw [hnode, Function.update_self]
    refine bind_eq_ok.mpr ⟨t', attempt_eq_ok.mpr hunlink, ?_⟩
    rw [verifyDeleted_eq_ok.mpr hgone]
    rfl

theorem add_eq_ok {old new : Text} :
    applyChange t (.add p old new) = .ok t' ↔ writeNew t p new = .ok t' := by
  constructor
  · intro h
    obtain ⟨t₁, hwrite, h⟩ := bind_eq_ok.mp h
    obtain ⟨-, -, h⟩ := bind_eq_ok.mp h
    obtain rfl := Except.ok.inj h
    exact hwrite
  · intro h
    refine bind_eq_ok.mpr ⟨t', h, ?_⟩
    rw [verifyWrittenContent_eq_ok.mpr (writeNew_node h).1]
    rfl

theorem update_eq_ok {old new : Text} :
    applyChange t (.update p old new) = .ok t' ↔
      t.Replaceable p ∧ t'.node = Function.update t.node p (some (.file new)) := by
  constructor
  · intro h
    obtain ⟨t₁, hwrite, h⟩ := bind_eq_ok.mp h
    obtain ⟨-, -, h⟩ := bind_eq_ok.mp h
    obtain rfl := Except.ok.inj h
    exact FileTree.writeFile_eq_some.mp (attempt_eq_ok.mp hwrite)
  · rintro ⟨hplace, hnode⟩
    have hwrite : t.writeFile p new = some t' := FileTree.writeFile_eq_some.mpr ⟨hplace, hnode⟩
    have hread : t'.node p = some (.file new) := by rw [hnode, Function.update_self]
    refine bind_eq_ok.mpr ⟨t', attempt_eq_ok.mpr hwrite, ?_⟩
    rw [verifyWrittenContent_eq_ok.mpr hread]
    rfl

theorem applyChange_ready : (∃ t', applyChange t change = .ok t') ↔ Ready t change := by
  cases change with
  | add p old new => exact (exists_congr fun _ => add_eq_ok).trans writeNew_eq_ok
  | update p old new =>
    simp only [update_eq_ok, exists_and_left]
    refine and_iff_left_of_imp fun hplace => ?_
    obtain ⟨t', hwrite⟩ := FileTree.exists_writeFile hplace new
    exact ⟨t', (FileTree.writeFile_eq_some.mp hwrite).2⟩
  | move p m old new =>
    simp only [move_eq_ok]
    constructor
    · rintro ⟨t', t₁, hwrite, ⟨x, hx⟩, hne, -⟩
      exact ⟨writeNew_eq_ok.mp ⟨t₁, hwrite⟩, ⟨x, ((writeNew_node hwrite).2 p x hne).mp hx⟩, hne⟩
    · rintro ⟨hplace, ⟨x, hx⟩, hne⟩
      obtain ⟨t₁, hwrite⟩ := writeNew_eq_ok.mpr hplace
      have hfile : t₁.IsFile p := ⟨x, ((writeNew_node hwrite).2 p x hne).mpr hx⟩
      obtain ⟨t', hunlink⟩ := FileTree.exists_unlink hfile
      exact ⟨t', t₁, hwrite, hfile, hne, (FileTree.unlink_eq_some.mp hunlink).2⟩
  | delete p old =>
    simp only [delete_eq_ok, exists_and_left]
    refine and_iff_left_of_imp fun hfile => ?_
    obtain ⟨t', hunlink⟩ := FileTree.exists_unlink hfile
    exact ⟨t', (FileTree.unlink_eq_some.mp hunlink).2⟩

theorem done_of_applyChange (h : applyChange t change = .ok t') : Done t' change := by
  cases change with
  | add p old new => exact (writeNew_node (add_eq_ok.mp h)).1
  | update p old new =>
    change t'.node p = _
    rw [(update_eq_ok.mp h).2, Function.update_self]
  | move p m old new =>
    obtain ⟨t₁, -, -, -, hnode⟩ := move_eq_ok.mp h
    change t'.node p = none
    rw [hnode, Function.update_self]
  | delete p old =>
    change t'.node p = none
    rw [(delete_eq_ok.mp h).2, Function.update_self]

theorem verifyWrittenContent_eq_error (h : verifyWrittenContent t p c = .error (e, t')) :
    t' = t := by
  unfold verifyWrittenContent at h
  split at h
  · simp at h
  · exact (Prod.mk.inj (Except.error.inj h)).2.symm

theorem verifyDeleted_eq_error (h : verifyDeleted t p = .error (e, t')) : t' = t := by
  unfold verifyDeleted at h
  split at h
  · simp at h
  · exact (Prod.mk.inj (Except.error.inj h)).2.symm

/-- A move that is given up leaves the disk as it was when its place is taken, and else ends
with no file where the one to be moved should be. -/
theorem move_eq_error {m : Path} {old new : Text}
    (h : applyChange t (.move p m old new) = .error (e, t')) :
    ¬t.Writable m ∧ t' = t ∨ t.Writable m ∧ ¬t'.IsFile p := by
  rcases bind_eq_error.mp h with hwrite | ⟨t₁, hwrite, h⟩
  · refine Or.inl ⟨fun hplace => ?_, writeNew_eq_error hwrite⟩
    obtain ⟨t₁, hok⟩ := writeNew_eq_ok.mpr hplace
    exact absurd (hwrite.symm.trans hok) (by simp)
  · refine Or.inr ⟨writeNew_eq_ok.mp ⟨t₁, hwrite⟩, ?_⟩
    rcases bind_eq_error.mp h with hunlink | ⟨t₂, hunlink, h⟩
    · -- the new file is written, but there is no file to take away
      obtain ⟨hnone, -, rfl⟩ := attempt_eq_error.mp hunlink
      intro hfile
      obtain ⟨t₂, hsome⟩ := FileTree.exists_unlink hfile
      simp [hnone] at hsome
    · have hgone : t₂.node p = none := by
        rw [(FileTree.unlink_eq_some.mp (attempt_eq_ok.mp hunlink)).2, Function.update_self]
      have hsame : t' = t₂ := by
        rcases bind_eq_error.mp h with hverify | ⟨-, -, h⟩
        · exact verifyWrittenContent_eq_error hverify
        · rcases bind_eq_error.mp h with hverify | ⟨-, -, h⟩
          · exact verifyDeleted_eq_error hverify
          · simp [pure, Except.pure] at h
      rintro ⟨x, hx⟩
      simp [hsame, hgone] at hx

/-- A change that is given up leaves the disk as it was; only a move may have ended with no
file where the one to be moved should be. -/
theorem applyChange_eq_error (h : applyChange t change = .error (e, t')) :
    t' = t ∨ ∃ p m old new, change = .move p m old new ∧ ¬t'.IsFile p := by
  cases change with
  | add p old new =>
    rcases bind_eq_error.mp h with hwrite | ⟨t₁, hwrite, -⟩
    · exact Or.inl (writeNew_eq_error hwrite)
    · exact absurd (h.symm.trans (add_eq_ok.mpr hwrite)) (by simp)
  | update p old new =>
    rcases bind_eq_error.mp h with hwrite | ⟨t₁, hwrite, -⟩
    · exact Or.inl (attempt_eq_error.mp hwrite).2.2
    · have hok : applyChange t (.update p old new) = .ok t₁ :=
        update_eq_ok.mpr (FileTree.writeFile_eq_some.mp (attempt_eq_ok.mp hwrite))
      exact absurd (h.symm.trans hok) (by simp)
  | move p m old new =>
    exact (move_eq_error h).imp (·.2) fun hfile => ⟨p, m, old, new, rfl, hfile.2⟩
  | delete p old =>
    rcases bind_eq_error.mp h with hunlink | ⟨t₁, hunlink, -⟩
    · exact Or.inl (attempt_eq_error.mp hunlink).2.2
    · have hok : applyChange t (.delete p old) = .ok t₁ :=
        delete_eq_ok.mpr (FileTree.unlink_eq_some.mp (attempt_eq_ok.mp hunlink))
      exact absurd (h.symm.trans hok) (by simp)

/-! ### What is planned changes the disk -/

/-- The change was planned beside this disk: it is about what is there, and makes a
difference. -/
def Planned (t : Files) : FileChange → Prop
  | .add filePath oldContent newContent =>
    (t.readFile filePath).getD [] = oldContent ∧ oldContent ≠ newContent
  | .update filePath oldContent newContent =>
    t.readFile filePath = some oldContent ∧ oldContent ≠ newContent
  | .move filePath _ oldContent _ | .delete filePath oldContent =>
    t.readFile filePath = some oldContent

theorem planned_of_planHunk (h : planHunk s t hunk = .ok (some change)) : Planned t change := by
  cases hunk with
  | add path contents =>
    obtain ⟨p, -, h⟩ := bind_eq_ok.mp h
    obtain ⟨-, -, h⟩ := bind_eq_ok.mp h
    dsimp only at h
    split at h
    · simp [pure, Except.pure] at h
    next hne =>
      obtain rfl := Option.some.inj (Except.ok.inj h)
      exact ⟨rfl, hne⟩
  | update path move_path chunks =>
    obtain ⟨p, -, h⟩ := bind_eq_ok.mp h
    obtain ⟨-, -, h⟩ := bind_eq_ok.mp h
    obtain ⟨old, hold, h⟩ := bind_eq_ok.mp h
    have hread := orFail_eq_ok.mp hold
    obtain ⟨written, -, h⟩ := bind_eq_ok.mp h
    cases written with
    | none => simp [pure, Except.pure] at h
    | some new =>
      dsimp only at h
      split at h
      · split at h
        · simp [pure, Except.pure] at h
        next hne =>
          obtain rfl := Option.some.inj (Except.ok.inj h)
          exact ⟨hread, hne⟩
      · obtain ⟨m, -, h⟩ := bind_eq_ok.mp h
        obtain ⟨-, -, h⟩ := bind_eq_ok.mp h
        obtain rfl := Option.some.inj (Except.ok.inj h)
        exact hread
  | delete path =>
    obtain ⟨p, -, h⟩ := bind_eq_ok.mp h
    obtain ⟨-, -, h⟩ := bind_eq_ok.mp h
    split at h
    · simp [pure, Except.pure] at h
    · simp [throw, throwThe, MonadExceptOf.throw] at h
    next old hold =>
      obtain rfl := Option.some.inj (Except.ok.inj h)
      exact FileTree.readFile_eq_some.mpr hold

theorem planned_of_plan (h : plan s t hunks = .ok changes) :
    ∀ change ∈ changes, Planned t change := by
  induction hunks generalizing changes with
  | nil =>
    obtain rfl := Except.ok.inj h
    simp
  | cons hunk hunks ih =>
    obtain ⟨change, hchange, h⟩ := bind_eq_ok.mp h
    obtain ⟨rest, hrest, h⟩ := bind_eq_ok.mp h
    obtain rfl := Except.ok.inj h
    intro c hc
    rcases List.mem_append.mp hc with hc | hc
    · rw [Option.mem_toList.mp hc] at hchange
      exact planned_of_planHunk hchange
    · exact ih hrest c hc

theorem ne_of_done {t₀ : Files} (hplan : Planned t₀ change) (hdone : Done t change) : t ≠ t₀ := by
  rintro rfl
  cases change with
  | add p old new =>
    obtain ⟨hold, hne⟩ := hplan
    rw [FileTree.readFile_eq_some.mpr hdone] at hold
    exact hne hold.symm
  | update p old new =>
    obtain ⟨hold, hne⟩ := hplan
    rw [FileTree.readFile_eq_some.mpr hdone] at hold
    exact hne (Option.some.inj hold).symm
  | move p m old new | delete p old =>
    have hread := FileTree.readFile_eq_some.mp hplan
    exact absurd (hread.symm.trans hdone) (by simp)

theorem ne_of_applyChange_error {t₀ : Files} (hplan : Planned t₀ change) (hne : t ≠ t₀)
    (h : applyChange t change = .error (e, t')) : t' ≠ t₀ := by
  rcases applyChange_eq_error h with rfl | ⟨p, m, old, new, rfl, hfile⟩
  · exact hne
  · rintro rfl
    exact hfile ⟨old, FileTree.readFile_eq_some.mp hplan⟩

/-- **No way back**: once the disk is another, the changes of a plan that go wrong do not end
at the one the plan was made for. -/
theorem ne_of_applyChanges_error {t₀ : Files} (hplan : ∀ change ∈ changes, Planned t₀ change)
    (hne : t ≠ t₀) (h : applyChanges t changes = .error (e, t')) : t' ≠ t₀ := by
  induction changes generalizing t with
  | nil => simp [applyChanges, pure, Except.pure] at h
  | cons change changes ih =>
    rcases bind_eq_error.mp h with hfirst | ⟨t₁, hfirst, hrest⟩
    · exact ne_of_applyChange_error (hplan change List.mem_cons_self) hne hfirst
    · have hdone := done_of_applyChange hfirst
      refine ih (fun c hc => hplan c (List.mem_cons_of_mem _ hc)) ?_ hrest
      exact ne_of_done (hplan change List.mem_cons_self) hdone

/-! ### All or nothing -/

/-- Where the tool gives up, the disk is as it was. -/
def AllOrNothing (s : Session) (t : Files) (hunks : List Hunk) : Prop :=
  ∀ e t', execute s t hunks = .error (e, t') → t' = t

theorem applyChanges_eq_ok :
    (∃ t', applyChanges t changes = .ok t') ↔ Meets made Ready t changes := by
  induction changes generalizing t with
  | nil => exact iff_of_true ⟨t, rfl⟩ trivial
  | cons change changes ih =>
    rw [Meets, ← applyChange_ready, ← ih]
    constructor
    · rintro ⟨t', h⟩
      obtain ⟨t₁, hfirst, hrest⟩ := bind_eq_ok.mp h
      refine ⟨⟨t₁, hfirst⟩, t', ?_⟩
      rw [made, hfirst]
      exact hrest
    · rintro ⟨⟨t₁, hfirst⟩, t', hrest⟩
      rw [made, hfirst] at hrest
      refine ⟨t', ?_⟩
      exact bind_eq_ok.mpr ⟨t₁, hfirst, hrest⟩

theorem first_error (hplan : Planned t change) (h : applyChange t change = .error (e, t')) :
    t' = t ↔ Taken t change := by
  have hnot : ¬Ready t change := by
    intro hready
    obtain ⟨t₁, hok⟩ := applyChange_ready.mpr hready
    exact absurd (h.symm.trans hok) (by simp)
  cases change with
  | add p old new =>
    rcases applyChange_eq_error h with hsame | ⟨_, _, _, _, hmove, -⟩
    · exact iff_of_true hsame hnot
    · simp at hmove
  | update p old new =>
    have hfile : t.IsFile p := FileTree.isFile_iff.mpr ⟨old, hplan.1⟩
    exact absurd (FileTree.replaceable_of_isFile hfile) hnot
  | move p m old new =>
    have hfile : t.IsFile p := FileTree.isFile_iff.mpr ⟨old, hplan⟩
    rcases move_eq_error h with ⟨htaken, hsame⟩ | ⟨hplace, hgone⟩
    · exact iff_of_true hsame htaken
    · refine iff_of_false ?_ (not_not_intro hplace)
      rintro rfl
      exact hgone hfile
  | delete p old => exact absurd (FileTree.isFile_iff.mpr ⟨old, hplan⟩) hnot

theorem applyChanges_error (hplan : ∀ change ∈ changes, Planned t change)
    (h : applyChanges t changes = .error (e, t')) :
    t' = t ↔ ∃ first ∈ changes.head?, Taken t first := by
  cases changes with
  | nil => simp [applyChanges, pure, Except.pure] at h
  | cons change changes =>
    have hfirst := hplan change List.mem_cons_self
    rw [List.head?_cons]
    simp only [Option.mem_some_iff, exists_eq_left']
    rcases bind_eq_error.mp h with hwrong | ⟨t₁, hmade, hrest⟩
    · exact first_error hfirst hwrong
    · refine iff_of_false ?_ ?_
      · have hne := ne_of_done hfirst (done_of_applyChange hmade)
        exact ne_of_applyChanges_error (fun c hc => hplan c (List.mem_cons_of_mem _ hc)) hne hrest
      · intro htaken
        have hready := applyChange_ready.mp ⟨t₁, hmade⟩
        cases change with
        | add => exact htaken hready
        | move => exact htaken hready.1
        | update | delete => exact htaken

theorem execute_of_plan (hplan : plan s t hunks = .ok changes) (happrove : s.approve = true)
    (hne : hunks ≠ []) : execute s t hunks = applyChanges t changes := by
  rw [execute, if_neg hne, hplan]
  cases changes with
  | nil => rfl
  | cons change changes => simp only [happrove, if_true]

theorem execute_eq_error (h : execute s t hunks = .error (e, t')) :
    t' = t ∨ s.approve = true ∧ ∃ changes, plan s t hunks = .ok changes ∧
      applyChanges t changes = .error (e, t') := by
  unfold execute at h
  split at h
  · exact Or.inl (Prod.mk.inj (Except.error.inj h)).2.symm
  · split at h
    · exact Or.inl (Prod.mk.inj (Except.error.inj h)).2.symm
    · simp at h
    next changes _ hplan =>
      split at h
      next happrove => exact Or.inr ⟨happrove, changes, hplan, h⟩
      · exact Or.inl (Prod.mk.inj (Except.error.inj h)).2.symm

/-- **All or nothing**: where the tool gives up nothing is written, exactly if each change of
the plan is ready where the ones before it leave the disk, or the first finds its place taken. -/
theorem allOrNothing_iff (s : Session) (t : Files) (hunks : List Hunk) :
    AllOrNothing s t hunks ↔
      ∀ changes, plan s t hunks = .ok changes → s.approve = true →
        Meets made Ready t changes ∨ ∃ first ∈ changes.head?, Taken t first := by
  constructor
  · intro hall changes hplan happrove
    rcases eq_or_ne hunks [] with rfl | hne
    · obtain rfl := Except.ok.inj hplan
      exact Or.inl trivial
    · have hexecute := execute_of_plan hplan happrove hne
      cases happly : applyChanges t changes with
      | ok t' => exact Or.inl (applyChanges_eq_ok.mp ⟨t', happly⟩)
      | error failure =>
        have hsame := hall failure.1 failure.2 (hexecute.trans happly)
        exact Or.inr ((applyChanges_error (planned_of_plan hplan) happly).mp hsame)
  · intro hcond e t' h
    rcases execute_eq_error h with hsame | ⟨happrove, changes, hplan, happly⟩
    · exact hsame
    · rcases hcond changes hplan happrove with hready | htaken
      · obtain ⟨t₁, hok⟩ := applyChanges_eq_ok.mpr hready
        exact absurd (happly.symm.trans hok) (by simp)
      · exact (applyChanges_error (planned_of_plan hplan) happly).mpr htaken

def openSession : Session := ⟨[], fun _ => true, fun _ => true, true⟩

def oneFile (content : Text) : Files :=
  FileTree.empty.put (txt "a") [] (.file content) rfl (.inr (by simp [FileTree.empty]))

/-- **A file deleted twice** is gone, though the tool gives up. -/
theorem deleted_twice :
    ¬∀ (s : Session) (t : Files) (hunks : List Hunk), AllOrNothing s t hunks := by
  intro h
  obtain ⟨t', hexecute, hgone⟩ : ∃ t',
      execute openSession (oneFile (txt "x")) [.delete (txt "a"), .delete (txt "a")] =
        .error (.system [txt "a"], t') ∧ t'.node [txt "a"] = none := ⟨_, rfl, rfl⟩
  have hsame : t' = oneFile (txt "x") := h _ _ _ _ _ hexecute
  have hthere : (oneFile (txt "x")).node [txt "a"] = some (.file (txt "x")) := rfl
  rw [hsame, hthere] at hgone
  simp at hgone

end OpenCms.Tool
