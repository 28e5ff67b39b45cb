import OpenCms.Storage.Files

/-!
# The operations of the storage

A key is a list of names. What it is the key of – a session, a message, a part of a message or
something else – decides in which file its value is kept. For a part this depends on what is
there: an index says to which session a message belongs, and without an entry in it the message
is searched for; if it is not found, the file is put where the key says.
-/

namespace OpenCms.Storage

variable {V : Type}

/-! ### Paths -/

def sessionInfoPath (sessionID : Name) : Path := [.session, sessionID, .info]

def messageInfoPath (sessionID messageID : Name) : Path :=
  [.session, sessionID, .messages, messageID, .info]

def partPath (sessionID messageID partID : Name) : Path :=
  [.session, sessionID, .messages, messageID, .parts, partID]

def sessionIndexPath (sessionID : Name) : Path := [.index, .session, sessionID]

def messageIndexPath (messageID : Name) : Path := [.index, .message, messageID]

def dirname (path : Path) : Path := path.dropLast

/-! ### The calls as programs -/

def readJSON (path : Path) : Program V (Option (Content V)) := .ask (Call.readJSON path)

def fileExists (path : Path) : Program V Bool := .ask (Call.fileExists path)

def writeFile (path : Path) (content : Content V) : Program V Unit := .ask (Call.write path content)

def mkdir (dir : Path) : Program V Unit := .ask (Call.mkdir dir)

def unlink (path : Path) : Program V Unit := .ask (Call.unlink path)

def rm (dir : Path) : Program V Unit := .ask (Call.rm dir)

def readdir (dir : Path) : Program V (List Entry) := .ask (Call.readdir dir)

/-- `glob.scan`, for all files. -/
def scan (dir : Path) : Program V (List Path) := .ask (Call.scan dir)

/-- `new Bun.Glob(...).scan`, for one name between others. -/
def globBetween (before after : Path) : Program V (List Name) := .ask (Call.glob before after)

def lockRead (path : Path) : Program V Unit := .ask (Call.lockRead path)

def lockWrite (path : Path) : Program V Unit := .ask (Call.lockWrite path)

/-- The end of the scope in which a lock is used. -/
def unlock : Program V Unit := .ask Call.unlock

section Run

variable {files : Files V} {path : Path} {content : Content V}

@[simp] theorem run_readJSON : (readJSON path).run handle files = (files.get path, files) := rfl

@[simp] theorem run_fileExists :
    (fileExists path).run handle files = ((files.get path).isSome, files) := rfl

@[simp] theorem run_writeFile :
    (writeFile path content).run handle files = ((), files.put path content) := rfl

@[simp] theorem run_mkdir : (mkdir path).run handle files = ((), files) := rfl

@[simp] theorem run_unlink : (unlink path).run handle files = ((), files.drop path) := rfl

@[simp] theorem run_rm : (rm path).run handle files = ((), files.dropBelow path) := rfl

@[simp] theorem run_readdir : (readdir path).run handle files = (files.entries path, files) := rfl

@[simp] theorem run_scan : (scan path).run handle files = (files.below path, files) := rfl

@[simp] theorem run_globBetween {after : Path} :
    (globBetween path after).run handle files = (files.between path after, files) := rfl

@[simp] theorem run_lockRead : (lockRead path).run handle files = ((), files) := rfl

@[simp] theorem run_lockWrite : (lockWrite path).run handle files = ((), files) := rfl

@[simp] theorem run_unlock : unlock.run handle files = ((), files) := rfl

end Run

/-! ### Where a value is kept -/

def truthy (s : Option String) : Option String := s.filter (· ≠ "")

theorem truthy_of_ne {x : String} (h : x ≠ "") : truthy (some x) = some x := by
  rw [truthy, Option.filter_some, if_pos (decide_eq_true h)]

theorem ne_of_truthy {x : String} {o : Option String} (h : truthy o = some x) : x ≠ "" :=
  of_decide_eq_true (Option.filter_eq_some_iff.mp h).2

def upsertSessionIndex (sessionID : Name) (projectID : String) (parentID : Option String) :
    Program V Unit := do
  mkdir (dirname (sessionIndexPath sessionID))
  writeFile (sessionIndexPath sessionID) (.sessionIndex projectID parentID)

def upsertMessageIndex (messageID : Name) (projectID : String) (sessionID : Name) :
    Program V Unit := do
  mkdir (dirname (messageIndexPath messageID))
  writeFile (messageIndexPath messageID) (.messageIndex projectID sessionID)

variable [Document V]

def project (content : Option (Content V)) : Option String :=
  truthy (content.bind Content.projectID)

def scopeOf (content : Option (Content V)) : Option (String × Name) := do
  let projectID ← project content
  let sessionID ← content.bind Content.sessionID
  return (projectID, sessionID)

def resolveSessionProjectID (sessionID : Name) : Program V (Option String) := do
  let indexed ← readJSON (sessionIndexPath sessionID)
  match project indexed with
  | some projectID => return some projectID
  | none =>
    let info ← readJSON (sessionInfoPath sessionID)
    match project info with
    | some projectID =>
      upsertSessionIndex sessionID projectID (info.bind Content.parentID)
      return some projectID
    | none => return none

def resolveMessageScope (messageID : Name) : Program V (Option (String × Name)) := do
  let indexed ← readJSON (messageIndexPath messageID)
  match scopeOf indexed with
  | some scope => return some scope
  | none =>
    let matchFlat ← globBetween [.session] [.messages, messageID, .info]
    match matchFlat.head? with
    | none => return none
    | some sessionID =>
      let info ← readJSON (messageInfoPath sessionID messageID)
      match project info with
      | some projectID =>
        upsertMessageIndex messageID projectID sessionID
        return some (projectID, sessionID)
      | none => return none

def resolvePath (key : List Name) : Program V Path :=
  match key with
  | domain :: a :: rest =>
    -- The key of a session may name its project before it.
    if domain = .session then return sessionInfoPath (rest.head?.getD a)
    else
      match rest with
      | [] => return key
      | b :: _ =>
        if domain = .message then return messageInfoPath a b
        else if domain = .part then do
          match ← resolveMessageScope a with
          | some scope => return partPath scope.2 a b
          | none => return key
        else return key
  | _ => return key

/-! ### Operations -/

inductive Outcome (V : Type)
  | done
  | content (content : Content V)
  | notFound
  | threw
  | keys (keys : List Path)
  deriving DecidableEq

def unlinkIfOf (sessionID : Name) : Entry → Program V Unit
  | .dir _ => return ()
  | .file messageID => do
    let index ← readJSON (messageIndexPath messageID)
    if index.bind Content.sessionID = some sessionID then unlink (messageIndexPath messageID)
    else return ()

def removeSession (sessionID : Name) (target : Path) : Program V (Outcome V) := do
  rm (dirname target)
  unlink (sessionIndexPath sessionID)
  rm [.message, sessionID]
  let entries ← readdir [.index, .message]
  let _ ← Proc.each (unlinkIfOf sessionID) entries
  return .done

def removeMessage (messageID : Name) (target : Path) : Program V (Outcome V) := do
  rm (dirname target)
  unlink (messageIndexPath messageID)
  return .done

def removeFile (target : Path) : Program V (Outcome V) := do
  unlink target
  return .done

def remove (key : List Name) : Program V (Outcome V) := do
  let target ← resolvePath key
  match key with
  | domain :: a :: rest =>
    if domain = .session then removeSession (rest.head?.getD a) target
    else
      match rest with
      | [] => removeFile target
      | b :: _ => if domain = .message then removeMessage b target else removeFile target
  | _ => removeFile target

/-- `Storage.read`. A session of which the file is missing is rebuilt from the database that may
stand beside it; no operation of the storage makes one. -/
def read (key : List Name) : Program V (Outcome V) := do
  let target ← resolvePath key
  lockRead target
  let result ← readJSON target
  unlock
  match result with
  | some content => return .content content
  | none => return .notFound

def update (key : List Name) (fn : Content V → Option (Content V)) : Program V (Outcome V) := do
  let target ← resolvePath key
  lockWrite target
  let result ← readJSON target
  match result with
  | none => do
    unlock
    return .notFound
  | some content =>
    match fn content with
    | none => do
      unlock
      return .threw
    | some content => do
      writeFile target content
      unlock
      return .content content

def writeIndex (key : List Name) (content : V) : Program V Unit :=
  match key with
  | domain :: a :: rest =>
    if domain = .session then
      match rest with
      | [] =>
        match truthy (Document.projectID content) with
        | some projectID => upsertSessionIndex a projectID (Document.parentID content)
        | none => return ()
      -- The key of an older format: the first name is the project.
      | b :: _ => upsertSessionIndex b a.1 (Document.parentID content)
    else
      match rest with
      | [] => return ()
      | b :: _ =>
        if domain = .message then do
          match ← resolveSessionProjectID a with
          | some projectID => upsertMessageIndex b projectID a
          | none => return ()
        else return ()
  | _ => return ()

def write (key : List Name) (content : V) : Program V (Outcome V) := do
  let target ← resolvePath key
  mkdir (dirname target)
  lockWrite target
  writeFile target (.data content)
  writeIndex key content
  unlock
  return .done

def isOf (rest : List Name) (content : Option (Content V)) : Bool :=
  match rest with
  | [] => true
  | projectID :: rest =>
    content.bind Content.projectID = some projectID.1 &&
      match rest with
      | [] => true
      | parentID :: _ => content.bind Content.parentID = some parentID.1

def listIf (rest : List Name) (name : Name) (path : Path) : Program V (Option Name) :=
  if rest = [] then return some name
  else do
    let content ← readJSON path
    return if isOf rest content then some name else none

def listIndexed (rest : List Name) : Entry → Program V (Option Name)
  | .dir _ => return none
  | .file sessionID => listIf rest sessionID (sessionIndexPath sessionID)

def listFlat (rest : List Name) : Entry → Program V (Option Name)
  | .file _ => return none
  | .dir sessionID => do
    if ← fileExists (sessionInfoPath sessionID) then
      listIf rest sessionID (sessionInfoPath sessionID)
    else return none

def listSessions (rest : List Name) : Program V (List Name) := do
  let indexEntries ← readdir [.index, .session]
  if indexEntries ≠ [] then
    let results ← Proc.each (listIndexed rest) indexEntries
    return results.reduceOption
  else
    let flatEntries ← readdir [.session]
    let results ← Proc.each (listFlat rest) flatEntries
    return results.reduceOption

def listMessage (sessionID : Name) : Entry → Program V (Option Name)
  | .file _ => return none
  | .dir messageID => do
    let found ← fileExists (messageInfoPath sessionID messageID)
    return if found then some messageID else none

def listMessages (sessionID : Name) : Program V (List Name) := do
  let flatEntries ← readdir [.session, sessionID, .messages]
  let results ← Proc.each (listMessage sessionID) flatEntries
  return results.reduceOption

def Entry.fileName : Entry → Option Name
  | .file name => some name
  | .dir _ => none

def listParts (messageID : Name) : Program V (List Name) := do
  match ← resolveMessageScope messageID with
  | none => return []
  | some scope =>
    let flatEntries ← readdir [.session, scope.2, .messages, messageID, .parts]
    return flatEntries.filterMap Entry.fileName

/-- The keys of all files in a directory. At the top there is the file with the version besides,
the name of which is cut too. -/
def listFiles (pre : List Name) : Program V (List Path) := do
  let results ← scan pre
  return Path.sort (if pre = [] then [.migr] :: results else results)

def list (pre : List Name) : Program V (Outcome V) :=
  match pre with
  | domain :: rest =>
    if domain = .session then do
      let ids ← listSessions rest
      return .keys ((Name.sort ids).map fun id => .session :: (rest.head?.toList ++ [id]))
    else
      match rest with
      | a :: _ =>
        if domain = .message then do
          let ids ← listMessages a
          return .keys ((Name.sort ids).map fun id => [.message, a, id])
        else if domain = .part then do
          let ids ← listParts a
          return .keys ((Name.sort ids).map fun id => [.part, a, id])
        else do
          let keys ← listFiles pre
          return .keys keys
      | [] => do
        let keys ← listFiles pre
        return .keys keys
  | [] => do
    let keys ← listFiles pre
    return .keys keys

end OpenCms.Storage
