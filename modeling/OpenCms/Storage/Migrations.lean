import OpenCms.Lib.Stops
import OpenCms.Storage.Operations
import Mathlib.Data.List.Zip

/-!
# The migrations of the storage

When the storage is opened, the migrations that have not been run are run one after the other, and
after each of them the number of those that have been run is written to a file of its own. They
bring a store in which the sessions stand under their projects, and the messages and the parts in
directories of their own, into the layout of `OpenCms.Storage.Operations`, in which everything of a
session stands in one directory.

The first migration copies what stands in a directory `project` beside the storage; here there is
none. What the tools put out is no JSON, and is left out with the directories it is moved between.
-/

namespace OpenCms.Storage

/-! ### Names -/

namespace Name

def sessionDiff : Name := ⟨"session_diff", by decide⟩

def ofString (s : String) : Option Name := if h : IsName s then some ⟨s, h⟩ else none

theorem ofString_val (name : Name) : ofString name.1 = some name := dif_pos name.2

def sortFiles (names : List Name) : List Name :=
  names.insertionSort fun a b => js (a.1 ++ ".json") ≤ js (b.1 ++ ".json")

end Name

def isSes (name : Name) : Bool := "ses_".toList.isPrefixOf name.1.toList

/-! ### Contents -/

variable {V : Type}

/-- What the migrations read of a value, and what they make of it. -/
class Record (V : Type) extends Document V where
  /-- `session.id`. -/
  id : V → Name
  /-- `session.summary?.diffs`. -/
  diffs : V → Option V
  /-- The session with the totals of its diffs in their place. -/
  totalled : V → V
  /-- The session that is made up for messages of which the session is missing, with its project and
  what is read of the first of them. The clock from which its times are read stands still. -/
  rescued : Name → String → Option (Content V) → V
  diffs_totalled : ∀ v, diffs (totalled v) = none
  projectID_totalled : ∀ v, projectID (totalled v) = projectID v
  id_totalled : ∀ v, id (totalled v) = id v

/-! ### Calls -/

/-- The calls that only the migrations make. -/
inductive MoveCall
  | rename (source target : Path) (entry : Entry)
  | rmdir (dir : Path)

def MoveCall.Answer : MoveCall → Type
  | rename _ _ _ => Unit
  | rmdir _ => Unit

/-- An entry of a directory is moved to another one: a file in place of the one that may be there, a
directory only if there is nothing in the one that may be there. -/
def Files.rename (files : Files V) (source target : Path) : Entry → Files V
  | .file name =>
    match files.get (source ++ [name]) with
    | some content => (files.drop (source ++ [name])).put (target ++ [name]) content
    | none => files
  | .dir name =>
    if files.below (target ++ [name]) = [] then
      files.map fun file =>
        if Files.Below (source ++ [name]) file.1 then
          (target ++ file.1.drop source.length, file.2)
        else file
    else files

/-- What they do. Directories in which there is no file are left out. -/
def handleMove : (c : MoveCall) → Files V → c.Answer × Files V
  | .rename source target entry, files => ((), files.rename source target entry)
  | .rmdir _, files => ((), files)

abbrev Migration (V : Type) : Type → Type :=
  Proc (Sum.elim (Call.Answer (V := V)) MoveCall.Answer)

def handleMigration : (c : Call V ⊕ MoveCall) → Files V →
    Sum.elim (Call.Answer (V := V)) MoveCall.Answer c × Files V :=
  Proc.either handle handleMove

def rename (source target : Path) (entry : Entry) : Migration V Unit :=
  .ask (Sum.inr (MoveCall.rename source target entry))

def rmdir (dir : Path) : Migration V Unit := .ask (Sum.inr (MoveCall.rmdir dir))

/-! ### The diffs of the sessions -/

section Diffs

variable [Record V]

def splitDiffs (session : V) : Program V Unit :=
  match (truthy (Document.projectID session)).bind Name.ofString, Record.diffs session with
  | some projectID, some diffs => do
    writeFile [.sessionDiff, Record.id session] (.data diffs)
    writeFile [.session, projectID, Record.id session] (.data (Record.totalled session))
  | _, _ => return ()

def sessionDiff (item : Path) : Program V Unit := do
  match ← readJSON item with
  | some (.data session) => splitDiffs session
  | _ => return ()

/-- The second migration: the files that `session/*/*.json` matches. -/
def sessionDiffs : Program V Unit := do
  let items ← scan [.session]
  let _ ← Proc.each sessionDiff (items.filter fun item => item.length = 3)
  return ()

end Diffs

/-! ### One directory for each session -/

def copyMissing (source target : Path) : Program V Unit := do
  mkdir (dirname target)
  let found ← fileExists target
  if found then return ()
  else
    match ← readJSON source with
    | some content => writeFile target content
    | none => return ()

def unifyPart (sessionID messageID : Name) : Entry → Program V Unit
  | .dir _ => return ()
  | .file partID => copyMissing [.part, messageID, partID] (partPath sessionID messageID partID)

def unifyMessage (projectID sessionID : Name) : Entry → Program V Unit
  | .dir _ => return ()
  | .file messageID => do
    copyMissing [.message, sessionID, messageID] (messageInfoPath sessionID messageID)
    writeFile (messageIndexPath messageID) (.messageIndex projectID.1 sessionID)
    let oldPartFiles ← readdir [.part, messageID]
    let _ ← Proc.each (unifyPart sessionID messageID) oldPartFiles
    return ()

def unifySession (projectID : Name) : Entry → Program V Unit
  | .dir _ => return ()
  | .file sessionID => do
    copyMissing [.session, projectID, sessionID] (sessionInfoPath sessionID)
    writeFile (sessionIndexPath sessionID) (.sessionIndex projectID.1 none)
    let oldMessageFiles ← readdir [.message, sessionID]
    let _ ← Proc.each (unifyMessage projectID sessionID) oldMessageFiles
    return ()

def unifyProject : Entry → Program V Unit
  | .file _ => return ()
  | .dir projectID => do
    let entries ← readdir [.session, projectID]
    let _ ← Proc.each (unifySession projectID) entries
    return ()

def sessionStorageUnify : Program V Unit := do
  let projectDirs ← readdir [.session]
  let _ ← Proc.each unifyProject projectDirs
  return ()

/-! ### The index of the sessions -/

section Index

variable [Document V]

/-- A directory of a session that stands under a project is emptied into the one it should be. -/
def moveSession (projectID : Name) : Entry → Migration V Unit
  | .file _ => return ()
  | .dir sessionID =>
    if isSes sessionID then do
      let found ← (fileExists (sessionInfoPath sessionID)).beside
      if found then return ()
      else
        (mkdir [.session, sessionID]).beside
        let files ← (readdir [.session, projectID, sessionID]).beside
        let _ ← Proc.each (rename [.session, projectID, sessionID] [.session, sessionID]) files
        return ()
    else return ()

def moveSessions : Entry → Migration V Unit
  | .file _ => return ()
  | .dir projectID =>
    if isSes projectID then return ()
    else do
      let subEntries ← (readdir [.session, projectID]).beside
      let _ ← Proc.each (moveSession projectID) subEntries
      let remaining ← (readdir [.session, projectID]).beside
      if remaining = [] then rmdir [.session, projectID] else return ()

def backfillSession : Entry → Program V Unit
  | .file _ => return ()
  | .dir sessionID =>
    if isSes sessionID then do
      let info ← readJSON (sessionInfoPath sessionID)
      match project info with
      | some projectID => upsertSessionIndex sessionID projectID (info.bind Content.parentID)
      | none => return ()
    else return ()

/-- The sixth migration, `session_index_v2`, and the second half of the fourth. -/
def sessionIndexV2 : Program V Unit := do
  let finalEntries ← readdir [.session]
  let _ ← Proc.each backfillSession finalEntries
  return ()

def sessionIndexBackfill : Migration V Unit := do
  let entries ← (readdir [.session]).beside
  let _ ← Proc.each moveSessions entries
  sessionIndexV2.beside

end Index

/-! ### Messages of which the session is missing -/

section Rescue

variable [Record V]

def copyFile (source target : Path) : Program V Unit := do
  match ← readJSON source with
  | some content => writeFile target content
  | none => return ()

def rescueMessage (sid messageID : Name) : Program V Unit := do
  mkdir (dirname (messageInfoPath sid messageID))
  let found ← fileExists (messageInfoPath sid messageID)
  if found then return ()
  else copyFile [.message, sid, messageID] (messageInfoPath sid messageID)

/-- A session is made up for its messages. Their files have been sorted in place. -/
def rescueWith (sid : Name) : List Name → Program V Unit
  | [] => return ()
  | first :: rest => do
    mkdir [.session, sid]
    let firstMsg ← readJSON [.message, sid, first]
    let projectID := (project firstMsg).getD "global"
    writeFile (sessionInfoPath sid) (.data (Record.rescued sid projectID firstMsg))
    upsertSessionIndex sid projectID none
    let _ ← Proc.each (rescueMessage sid) (first :: rest)
    return ()

def rescueSession : Entry → Program V Unit
  | .file _ => return ()
  | .dir sid =>
    if isSes sid then do
      let found ← fileExists (sessionInfoPath sid)
      if found then return ()
      else
        let entries ← readdir [.message, sid]
        rescueWith sid (Name.sortFiles (entries.filterMap Entry.fileName))
    else return ()

def rescueOrphanedSessions : Program V Unit := do
  let legacyMessageDirs ← readdir [.message]
  let _ ← Proc.each rescueSession legacyMessageDirs
  return ()

/-! ### All of them -/

def migrations : List (Migration V Unit) :=
  [.done (), sessionDiffs.beside, sessionStorageUnify.beside, sessionIndexBackfill,
    rescueOrphanedSessions.beside, sessionIndexV2.beside]

end Rescue

/-- The calls on the file in which it is noted how many migrations have been run. -/
inductive CounterCall
  | read
  | write (count : ℕ)

def CounterCall.Answer : CounterCall → Type
  | read => ℕ
  | write _ => Unit

def handleCounter : (c : CounterCall) → ℕ → c.Answer × ℕ
  | .read, count => (count, count)
  | .write count, _ => ((), count)

def handleState : (c : (Call V ⊕ MoveCall) ⊕ CounterCall) → Files V × ℕ →
    Sum.elim (Sum.elim (Call.Answer (V := V)) MoveCall.Answer) CounterCall.Answer c ×
      (Files V × ℕ) :=
  Proc.both handleMigration handleCounter

/-- What is done when the storage is opened. -/
abbrev Opening (V : Type) : Type → Type :=
  Proc (Sum.elim (Sum.elim (Call.Answer (V := V)) MoveCall.Answer) CounterCall.Answer)

/-- The number of migrations that have been run is read; it is none if there is no note of it. -/
def readCounter : Opening V ℕ := .ask (Sum.inr CounterCall.read)

def writeCounter (count : ℕ) : Opening V Unit := .ask (Sum.inr (CounterCall.write count))

def runMigration (migration : Migration V Unit × ℕ) : Opening V Unit := do
  migration.1.beside
  writeCounter (migration.2 + 1)

def state [Record V] : Opening V Unit := do
  let migration ← readCounter
  let _ ← Proc.each runMigration (migrations.zipIdx.drop migration)
  return ()

end OpenCms.Storage
