import OpenCms.Storage.Operations

/-!
# Keys and files

What a key is the key of, and what a file is for. A path tells what the file is for, and what a file
is for tells its path.
-/

namespace OpenCms.Storage

variable {V : Type} {rest : List Name}

/-! ### Names that are told apart -/

theorem index_ne_session : Name.index ≠ Name.session := by decide

theorem index_ne_message : Name.index ≠ Name.message := by decide

theorem message_ne_session : Name.message ≠ Name.session := by decide

theorem part_ne_session : Name.part ≠ Name.session := by decide

theorem part_ne_message : Name.part ≠ Name.message := by decide

theorem part_ne_index : Name.part ≠ Name.index := by decide

/-! ### Keys -/

inductive Key
  | session (sessionID : Name)
  | message (sessionID messageID : Name)
  | part (messageID partID : Name)
  | plain (path : Path)
  deriving DecidableEq

def keyOf (key : List Name) : Key :=
  match key with
  | domain :: a :: rest =>
    if domain = .session then .session (rest.head?.getD a)
    else
      match rest with
      | [] => .plain key
      | b :: _ =>
        if domain = .message then .message a b
        else if domain = .part then .part a b
        else .plain key
  | _ => .plain key

@[elab_as_elim]
theorem key_cases {P : List Name → Prop} (key : List Name)
    (session : ∀ a rest, P (.session :: a :: rest))
    (message : ∀ a b rest, P (.message :: a :: b :: rest))
    (part : ∀ a b rest, P (.part :: a :: b :: rest))
    (plain : ∀ key, keyOf key = .plain key → P key) : P key := by
  rcases key with _ | ⟨domain, _ | ⟨a, rest⟩⟩
  · exact plain [] rfl
  · exact plain [domain] rfl
  · by_cases hsession : domain = .session
    · subst hsession
      exact session a rest
    · rcases rest with _ | ⟨b, rest⟩
      · exact plain _ (by rw [keyOf, if_neg hsession])
      · by_cases hmessage : domain = .message
        · subst hmessage
          exact message a b rest
        · by_cases hpart : domain = .part
          · subst hpart
            exact part a b rest
          · exact plain _ (by rw [keyOf, if_neg hsession, if_neg hmessage, if_neg hpart])

@[simp] theorem keyOf_session {a : Name} :
    keyOf (.session :: a :: rest) = .session (rest.head?.getD a) := rfl

@[simp] theorem keyOf_message {a b : Name} : keyOf (.message :: a :: b :: rest) = .message a b := by
  rw [keyOf, if_neg message_ne_session, if_pos rfl]

@[simp] theorem keyOf_part {a b : Name} : keyOf (.part :: a :: b :: rest) = .part a b := by
  rw [keyOf, if_neg part_ne_session, if_neg part_ne_message, if_pos rfl]

def Key.path : Key → Path
  | session sessionID => [.session, sessionID]
  | message sessionID messageID => [.message, sessionID, messageID]
  | part messageID partID => [.part, messageID, partID]
  | plain path => path

/-! ### What each file is for -/

inductive File
  | sessionInfo (sessionID : Name)
  | messageInfo (sessionID messageID : Name)
  | part (sessionID messageID partID : Name)
  | sessionIndex (sessionID : Name)
  | messageIndex (messageID : Name)
  | plain (path : Path)
  deriving DecidableEq

def File.path : File → Path
  | sessionInfo s => sessionInfoPath s
  | messageInfo s m => messageInfoPath s m
  | part s m p => partPath s m p
  | sessionIndex s => sessionIndexPath s
  | messageIndex m => messageIndexPath m
  | plain path => path

def fileOf (path : Path) : File :=
  match path with
  | [a, b, c] =>
    if a = .session ∧ c = .info then .sessionInfo b
    else if a = .index ∧ b = .session then .sessionIndex c
    else if a = .index ∧ b = .message then .messageIndex c
    else .plain path
  | [a, s, b, m, c] =>
    if a = .session ∧ b = .messages ∧ c = .info then .messageInfo s m else .plain path
  | [a, s, b, m, c, p] =>
    if a = .session ∧ b = .messages ∧ c = .parts then .part s m p else .plain path
  | _ => .plain path

section Paths

variable {s m p : Name} {path target : Path}

@[simp] theorem fileOf_sessionInfoPath : fileOf (sessionInfoPath s) = .sessionInfo s := by
  simp [fileOf, sessionInfoPath]

@[simp] theorem fileOf_messageInfoPath : fileOf (messageInfoPath s m) = .messageInfo s m := by
  simp [fileOf, messageInfoPath]

@[simp] theorem fileOf_partPath : fileOf (partPath s m p) = .part s m p := by
  simp [fileOf, partPath]

@[simp] theorem fileOf_sessionIndexPath : fileOf (sessionIndexPath s) = .sessionIndex s := by
  simp [fileOf, sessionIndexPath, index_ne_session]

@[simp] theorem fileOf_messageIndexPath : fileOf (messageIndexPath m) = .messageIndex m := by
  simp [fileOf, messageIndexPath, index_ne_session, message_ne_session]

theorem path_fileOf : (fileOf path).path = path := by
  rw [fileOf.eq_def]
  split
  · split
    next h => rw [h.1, h.2, File.path, sessionInfoPath]
    next =>
      split
      next h => rw [h.1, h.2, File.path, sessionIndexPath]
      next =>
        split
        next h => rw [h.1, h.2, File.path, messageIndexPath]
        next => rfl
  · split
    next h => rw [h.1, h.2.1, h.2.2, File.path, messageInfoPath]
    next => rfl
  · split
    next h => rw [h.1, h.2.1, h.2.2, File.path, partPath]
    next => rfl
  · rfl

theorem fileOf_of_keyOf (h : keyOf path = .plain path) (hindex : path.head? ≠ some .index) :
    fileOf path = .plain path := by
  have hpath : (fileOf path).path = path := path_fileOf
  cases hfile : fileOf path with
  | sessionInfo s | messageInfo s m | part s m p =>
    rw [hfile] at hpath
    subst hpath
    cases h
  | sessionIndex s | messageIndex m =>
    rw [hfile] at hpath
    subst hpath
    exact absurd rfl hindex
  | plain other =>
    rw [hfile] at hpath
    exact congrArg File.plain hpath

theorem fileOf_of_head {domain : Name} (hsession : domain ≠ .session) (hindex : domain ≠ .index) :
    fileOf (domain :: rest) = .plain (domain :: rest) := by
  rw [fileOf.eq_def]
  split
  next heq =>
    cases heq
    simp [hsession, hindex]
  next heq =>
    cases heq
    simp [hsession]
  next heq =>
    cases heq
    simp [hsession]
  next => rfl

theorem eq_iff_fileOf {file : File} (htarget : fileOf target = file) :
    path = target ↔ fileOf path = file := by
  subst htarget
  refine ⟨congrArg fileOf, fun h => ?_⟩
  have hpath : (fileOf path).path = path := path_fileOf
  rw [← hpath, h, path_fileOf]

variable {files : Files V} {c : Content V}

theorem get_put_of {file : File} (htarget : fileOf target = file) :
    (files.put target c).get path = if fileOf path = file then some c else files.get path := by
  rw [Files.get_put]
  exact if_congr (eq_iff_fileOf htarget) rfl rfl

theorem get_drop_of {file : File} (htarget : fileOf target = file) :
    (files.drop target).get path = if fileOf path = file then none else files.get path := by
  rw [Files.get_drop]
  exact if_congr (eq_iff_fileOf htarget) rfl rfl

end Paths

end OpenCms.Storage
