import Mathlib.Data.List.Infix
import Mathlib.Logic.Function.Basic

/-!
# Trees of directories and files

What a program sees of a disk through calls that write files, remove them and make
directories. A path is the list of its names, the innermost first, so that the path of the
directory something stands in is the tail. A tree gives for each path what is there, and
has nothing below what is not a directory.

The calls fail where the ones of the system do: a file is written in a directory that is
there and not over a directory, only a file is removed, and a directory is made, with the
ones above it, unless a file is in the way. For each call there is one theorem that says
when it succeeds and which tree it leaves (`OpenCms.FileTree.writeFile_eq_some`,
`OpenCms.FileTree.unlink_eq_some`, `OpenCms.FileTree.mkdirs_eq_some`).
-/

namespace OpenCms

inductive FileTree.Node (κ : Type*)
  | file (content : κ)
  | dir

/-- A tree of directories and files, of names `ν` and contents `κ`. -/
@[ext]
structure FileTree (ν κ : Type*) where
  node : List ν → Option (FileTree.Node κ)
  root : node [] = some .dir
  /-- What is there stands in a directory. -/
  parent : ∀ n p, node (n :: p) ≠ none → node p = some .dir

namespace FileTree

variable {ν κ : Type*}

instance Node.instDecidableDir : (x : Option (Node κ)) → Decidable (x = some .dir)
  | some .dir => isTrue rfl
  | some (.file _) => isFalse (by simp)
  | none => isFalse (by simp)

/-- The content of the file at a path. -/
def readFile (t : FileTree ν κ) (p : List ν) : Option κ :=
  match t.node p with
  | some (.file c) => some c
  | _ => none

def IsFile (t : FileTree ν κ) (p : List ν) : Prop := ∃ c, t.node p = some (.file c)

/-- No file is on the way to the path or at it. -/
def Passable (t : FileTree ν κ) (p : List ν) : Prop := ∀ d, d <:+ p → ¬t.IsFile d

/-- A file can be put at the path: its directory is there, and no directory is in its place. -/
inductive Replaceable (t : FileTree ν κ) : List ν → Prop
  | intro {n : ν} {d : List ν} (parent : t.node d = some .dir)
      (free : t.node (n :: d) ≠ some .dir) : Replaceable t (n :: d)

/-- A file can be put at the path once the directories above it are made. -/
inductive Writable (t : FileTree ν κ) : List ν → Prop
  | intro {n : ν} {d : List ν} (way : t.Passable d) (free : t.node (n :: d) ≠ some .dir) :
      Writable t (n :: d)

variable {t t' : FileTree ν κ} {n : ν} {p q d : List ν} {c : κ}

theorem readFile_eq_some : t.readFile p = some c ↔ t.node p = some (.file c) := by
  unfold readFile
  split <;> simp_all

theorem isFile_iff : t.IsFile p ↔ ∃ c, t.readFile p = some c :=
  exists_congr fun _ => readFile_eq_some.symm

theorem ne_dir_of_isFile (h : t.IsFile p) : t.node p ≠ some .dir := by
  obtain ⟨c, hc⟩ := h
  simp [hc]

theorem replaceable_of_isFile (h : t.IsFile p) : t.Replaceable p := by
  obtain ⟨c, hc⟩ := h
  cases p with
  | nil => simp [t.root] at hc
  | cons n d => exact .intro (t.parent n d (by simp [hc])) (by simp [hc])

theorem node_of_suffix (h : t.node p ≠ none) (hd : d <:+ p) (hne : d ≠ p) :
    t.node d = some .dir := by
  induction p with
  | nil => exact absurd (List.suffix_nil.mp hd) hne
  | cons n p ih =>
    have hp : t.node p = some .dir := t.parent n p h
    rcases List.suffix_cons_iff.mp hd with rfl | hd
    · exact absurd rfl hne
    · rcases eq_or_ne d p with rfl | hdp
      · exact hp
      · exact ih (by simp [hp]) hd hdp

theorem not_cons_suffix (n : ν) (d : List ν) : ¬n :: d <:+ d := by
  intro h
  exact absurd h.length_le (by simp)

theorem passable_of_dir (h : t.node p = some .dir) : t.Passable p := by
  rintro d hd ⟨c, hc⟩
  rcases eq_or_ne d p with rfl | hne
  · simp [h] at hc
  · have hdir : t.node d = some .dir := node_of_suffix (by simp [h]) hd hne
    simp [hdir] at hc

theorem passable_cons : t.Passable (n :: p) ↔ t.Passable p ∧ ¬t.IsFile (n :: p) := by
  constructor
  · intro h
    exact ⟨fun d hd => h d (hd.trans (List.suffix_cons n p)), h _ List.suffix_rfl⟩
  · rintro ⟨hp, hn⟩ d hd
    rcases List.suffix_cons_iff.mp hd with rfl | hd
    · exact hn
    · exact hp d hd

section Calls

variable [DecidableEq ν]

def put (t : FileTree ν κ) (n : ν) (d : List ν) (x : Node κ) (hd : t.node d = some .dir)
    (hx : x = .dir ∨ t.node (n :: d) ≠ some .dir) : FileTree ν κ where
  node := Function.update t.node (n :: d) (some x)
  root := by rw [Function.update_of_ne (by simp), t.root]
  parent m p hm := by
    have hp : t.node p = some .dir := by
      rcases eq_or_ne (m :: p) (n :: d) with heq | hne
      · rw [(List.cons.inj heq).2, hd]
      · rw [Function.update_of_ne hne] at hm
        exact t.parent m p hm
    rcases eq_or_ne p (n :: d) with rfl | hne
    · rcases hx with rfl | hx
      · rw [Function.update_self]
      · exact absurd hp hx
    · rw [Function.update_of_ne hne, hp]

def erase (t : FileTree ν κ) (n : ν) (d : List ν) (h : t.node (n :: d) ≠ some .dir) :
    FileTree ν κ where
  node := Function.update t.node (n :: d) none
  root := by rw [Function.update_of_ne (by simp), t.root]
  parent m p hm := by
    rcases eq_or_ne (m :: p) (n :: d) with heq | hne
    · exact absurd (by rw [heq, Function.update_self]) hm
    · rw [Function.update_of_ne hne] at hm
      have hp : t.node p = some .dir := t.parent m p hm
      rw [Function.update_of_ne, hp]
      rintro rfl
      exact h hp

def empty : FileTree ν κ where
  node p := if p = [] then some .dir else none
  root := rfl
  parent n p h := absurd (if_neg (List.cons_ne_nil n p)) h

def writeFile (t : FileTree ν κ) : List ν → κ → Option (FileTree ν κ)
  | [], _ => none
  | n :: d, c =>
    if h : t.node d = some .dir ∧ t.node (n :: d) ≠ some .dir then
      some (t.put n d (.file c) h.1 (.inr h.2))
    else none

def unlink (t : FileTree ν κ) : List ν → Option (FileTree ν κ)
  | [] => none
  | n :: d =>
    match h : t.node (n :: d) with
    | some (.file _) => some (t.erase n d (by simp [h]))
    | _ => none

/-- Makes a directory in one that is there, if it is not there yet. -/
def mkdir (t : FileTree ν κ) (n : ν) (d : List ν) (hd : t.node d = some .dir) :
    Option (FileTree ν κ) :=
  match t.node (n :: d) with
  | none => some (t.put n d .dir hd (.inl rfl))
  | some .dir => some t
  | some (.file _) => none

/-- Makes a directory and the ones above it, as far as they are not there yet. -/
def mkdirs (t : FileTree ν κ) : List ν → Option (FileTree ν κ)
  | [] => some t
  | n :: d =>
    (mkdirs t d).bind fun t' => if hd : t'.node d = some .dir then t'.mkdir n d hd else none

theorem writeFile_eq_some :
    t.writeFile p c = some t' ↔
      t.Replaceable p ∧ t'.node = Function.update t.node p (some (.file c)) := by
  cases p with
  | nil => exact ⟨nofun, fun ⟨h, _⟩ => nomatch h⟩
  | cons n d =>
    rw [writeFile]
    constructor
    · intro h
      split at h
      next hok =>
        obtain rfl := Option.some.inj h
        exact ⟨.intro hok.1 hok.2, rfl⟩
      · simp at h
    · rintro ⟨⟨hd, hfree⟩, hnode⟩
      rw [dif_pos ⟨hd, hfree⟩]
      exact congrArg some (FileTree.ext hnode.symm)

theorem unlink_eq_some :
    t.unlink p = some t' ↔ t.IsFile p ∧ t'.node = Function.update t.node p none := by
  cases p with
  | nil => exact ⟨nofun, fun ⟨⟨c, hc⟩, _⟩ => by simp [t.root] at hc⟩
  | cons n d =>
    rw [unlink]
    constructor
    · intro h
      split at h
      next c hc =>
        obtain rfl := Option.some.inj h
        exact ⟨⟨c, hc⟩, rfl⟩
      · simp at h
    · rintro ⟨⟨c, hc⟩, hnode⟩
      split
      · exact congrArg some (FileTree.ext hnode.symm)
      next hno => exact absurd hc (hno c)

theorem mkdir_eq_some {hd : t.node d = some .dir} :
    t.mkdir n d hd = some t' ↔
      ¬t.IsFile (n :: d) ∧ t'.node = Function.update t.node (n :: d) (some .dir) := by
  unfold mkdir
  constructor
  · intro h
    split at h
    next hnone =>
      obtain rfl := Option.some.inj h
      exact ⟨fun ⟨c, hc⟩ => by simp [hnone] at hc, rfl⟩
    next hdir =>
      obtain rfl := Option.some.inj h
      refine ⟨fun hfile => ne_dir_of_isFile hfile hdir, ?_⟩
      rw [Function.update_eq_self_iff.mpr hdir.symm]
    · simp at h
  · rintro ⟨hfile, hnode⟩
    split
    · exact congrArg some (FileTree.ext hnode.symm)
    next hdir =>
      refine congrArg some (FileTree.ext ?_)
      rw [hnode, Function.update_eq_self_iff.mpr hdir.symm]
    next c hc => exact absurd ⟨c, hc⟩ hfile

theorem exists_mkdirs (h : t.Passable p) :
    ∃ t', t.mkdirs p = some t' ∧
      ∀ q, t'.node q = if q <:+ p then some .dir else t.node q := by
  induction p with
  | nil => exact ⟨t, rfl, fun q => by by_cases hq : q = [] <;> simp [hq, t.root]⟩
  | cons n d ih =>
    obtain ⟨hd, hn⟩ := passable_cons.mp h
    obtain ⟨t₁, ht₁, hnode⟩ := ih hd
    have hdir : t₁.node d = some .dir := by rw [hnode, if_pos List.suffix_rfl]
    have hsame : t₁.node (n :: d) = t.node (n :: d) := by rw [hnode, if_neg (not_cons_suffix n d)]
    have hfile : ¬t₁.IsFile (n :: d) := fun ⟨c, hc⟩ => hn ⟨c, hsame ▸ hc⟩
    refine ⟨t₁.put n d .dir hdir (.inl rfl), ?_, fun q => ?_⟩
    · rw [mkdirs, ht₁, Option.bind_some, dif_pos hdir, mkdir_eq_some]
      exact ⟨hfile, rfl⟩
    · change Function.update t₁.node (n :: d) _ q = _
      rw [Function.update_apply, hnode]
      by_cases hq : q = n :: d <;> simp [hq, List.suffix_cons_iff]

theorem passable_of_mkdirs (h : t.mkdirs p = some t') : t.Passable p := by
  induction p generalizing t' with
  | nil => exact passable_of_dir t.root
  | cons n d ih =>
    rw [mkdirs, Option.bind_eq_some_iff] at h
    obtain ⟨t₁, ht₁, h⟩ := h
    have hd : t.Passable d := ih ht₁
    obtain ⟨t₂, ht₂, hnode⟩ := exists_mkdirs hd
    obtain rfl := Option.some.inj (ht₁.symm.trans ht₂)
    split at h
    next hdir =>
      refine passable_cons.mpr ⟨hd, fun hfile => (mkdir_eq_some.mp h).1 ?_⟩
      obtain ⟨c, hc⟩ := hfile
      refine ⟨c, ?_⟩
      rw [hnode, if_neg (not_cons_suffix n d), hc]
    · simp at h

theorem mkdirs_eq_some :
    t.mkdirs p = some t' ↔
      t.Passable p ∧ ∀ q, t'.node q = if q <:+ p then some .dir else t.node q := by
  constructor
  · intro h
    have hway := passable_of_mkdirs h
    obtain ⟨t₂, ht₂, hnode⟩ := exists_mkdirs hway
    obtain rfl := Option.some.inj (h.symm.trans ht₂)
    exact ⟨hway, hnode⟩
  · rintro ⟨hway, hnode⟩
    obtain ⟨t₂, ht₂, hnode₂⟩ := exists_mkdirs hway
    rw [ht₂]
    refine congrArg some (FileTree.ext ?_)
    funext q
    rw [hnode, hnode₂]

theorem exists_writeFile (h : t.Replaceable p) (c : κ) : ∃ t', t.writeFile p c = some t' := by
  obtain ⟨hd, hfree⟩ := h
  exact ⟨_, dif_pos ⟨hd, hfree⟩⟩

theorem exists_unlink (h : t.IsFile p) : ∃ t', t.unlink p = some t' := by
  cases p with
  | nil => exact absurd t.root (ne_dir_of_isFile h)
  | cons n d =>
    have hnode : (t.erase n d (ne_dir_of_isFile h)).node =
        Function.update t.node (n :: d) none := rfl
    exact ⟨_, unlink_eq_some.mpr ⟨h, hnode⟩⟩

theorem mkdirs_of_dir (h : t.node p = some .dir) : t.mkdirs p = some t := by
  refine mkdirs_eq_some.mpr ⟨passable_of_dir h, fun q => ?_⟩
  split
  next hq =>
    rcases eq_or_ne q p with rfl | hne
    · exact h
    · exact node_of_suffix (by simp [h]) hq hne
  · rfl

theorem replaceable_of_mkdirs (h : t.mkdirs d = some t') (hfree : t.node (n :: d) ≠ some .dir) :
    t'.Replaceable (n :: d) := by
  obtain ⟨-, hnode⟩ := mkdirs_eq_some.mp h
  refine .intro ?_ ?_
  · rw [hnode, if_pos List.suffix_rfl]
  · rwa [hnode, if_neg (not_cons_suffix n d)]

end Calls

end FileTree

end OpenCms
