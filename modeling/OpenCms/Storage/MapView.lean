import OpenCms.Lib.Runs
import OpenCms.Storage.Mirror
import Mathlib.Data.List.ReduceOption

/-!
# The storage as a map

What the storage is for: a map from keys to values, in which a session takes its messages with it
when it is removed, and a message its parts. `OpenCms.Storage.Live` is this map, and
`OpenCms.Storage.storage_agrees` says when the files give the same answers.

They do if a part is written only when the index knows its message, if a message is in one session
only, and if a session is written with its project. A part that comes before its message is put
where nobody looks for it once the message is there.
-/

namespace OpenCms.Storage

variable {V : Type} [Document V]

/-! ### Operations on both -/

inductive Operation (V : Type)
  | read (key : List Name)
  | write (key : List Name) (content : V)
  | remove (key : List Name)
  | list (pre : List Name)

namespace Operation

def program : Operation V → Program V (Outcome V)
  | .read key => Storage.read key
  | .write key content => Storage.write key content
  | .remove key => Storage.remove key
  | .list pre => Storage.list pre

def exec (op : Operation V) (files : Files V) : Outcome V × Files V := op.program.run handle files

noncomputable def apply (op : Operation V) (live : Live V) : Live V :=
  match op with
  | .read _ => live
  | .write key content => live.write (keyOf key) content
  | .remove key => live.remove (keyOf key)
  | .list _ => live

end Operation

noncomputable def step (s : Files V × Live V) (op : Operation V) : Files V × Live V :=
  ((op.exec s.1).2, op.apply s.2)

/-- **The files answer as the map.** -/
def Agrees (s : Files V × Live V) (op : Operation V) : Prop :=
  match op with
  | .read key => (op.exec s.1).1 = (s.2 (keyOf key)).elim .notFound fun v => .content (.data v)
  | .write _ _ => (op.exec s.1).1 = .done
  | .remove _ => (op.exec s.1).1 = .done
  | .list pre => ∃ keys, (op.exec s.1).1 = .keys keys ∧ keys.Nodup ∧
      ∀ key, key ∈ keys ↔ s.2.Listed pre key

def Known (files : Files V) (messageID : Name) : Prop :=
  scopeOf (files.get (messageIndexPath messageID)) ≠ none ∨
    ∃ sessionID, project (files.get (messageInfoPath sessionID messageID)) ≠ none

/-- **When a value can be written**: a session with its project, a message to one session only, and
a part when its message is known. -/
def Writable (s : Files V × Live V) (key : List Name) (content : V) : Prop :=
  match keyOf key with
  | .session _ => ∃ projectID, truthy (Document.projectID content) = some projectID ∧
      (key[2]? ≠ none → key[1]?.map Subtype.val = some projectID)
  | .message sessionID messageID => Alone s.2 sessionID messageID
  | .part messageID _ => Known s.1 messageID
  | .plain _ => True

def Listable (live : Live V) : Path → Prop
  | [] => False
  | [domain] =>
    (domain = .message → ∀ s m, live (.message s m) = none) ∧
      (domain = .part → ∀ m p, live (.part m p) = none)
  | domain :: _ :: rest => domain = .message ∨ domain = .part → rest = []

/-- **When an operation goes well**: no key of the index is used, and what is written, removed or
listed is as it must be. -/
def Sound (s : Files V × Live V) : Operation V → Prop
  | .read key => key.head? ≠ some .index
  | .write key content => key.head? ≠ some .index ∧ Writable s key content
  | .remove key => key.head? ≠ some .index ∧
      ∀ sessionID messageID, keyOf key = .message sessionID messageID →
        Alone s.2 sessionID messageID
  | .list pre => pre.head? ≠ some .index ∧ Listable s.2 pre

/-! ### What the programs do -/

section Programs

variable {files : Files V} {live : Live V} {idx : Name → Option (String × Name)} {s m p : Name}
  {path : Path} {content : Content V} {rest : List Name} {name : Name} {v : V} {names : List Name}
  {domain : Name} {pre : List Name}

theorem Mirrors.scopeOf_get (h : Mirrors files live idx) :
    scopeOf (files.get (messageIndexPath m)) = idx m := by
  rw [h.get, fileOf_messageIndexPath, expected]
  cases hidx : idx m with
  | none => rfl
  | some scope =>
    have hproject : truthy (some scope.1) = some scope.1 :=
      truthy_of_ne (h.indexed m scope hidx).1
    simp [scopeOf, Storage.project, Content.projectID, Content.sessionID, hproject]

theorem Mirrors.mem_between (h : Mirrors files live idx) :
    s ∈ files.between [.session] [.messages, m, .info] ↔ live (.message s m) ≠ none := by
  rw [Files.mem_between]
  change files.get (messageInfoPath s m) ≠ none ↔ _
  rw [h.get, fileOf_messageInfoPath, expected, ne_eq, Option.map_eq_none_iff]

theorem Mirrors.live_of_project (h : Mirrors files live idx)
    (hproject : project (files.get (messageInfoPath s m)) ≠ none) :
    live (.message s m) ≠ none := by
  intro hnone
  refine hproject ?_
  rw [h.get, fileOf_messageInfoPath, expected, hnone]
  rfl

/-- **The session of a message is looked up**: what is found is in the index then, and it is found
if the message is known. -/
theorem Mirrors.resolveMessageScope (h : Mirrors files live idx) (m : Name) :
    ∃ idx', ((resolveMessageScope m).run handle files).1 = idx' m ∧
      Mirrors ((Storage.resolveMessageScope m).run handle files).2 live idx' ∧
      (Known files m → idx' m ≠ none) := by
  have hscope : scopeOf (files.get (messageIndexPath m)) = idx m := h.scopeOf_get
  rw [Storage.resolveMessageScope]
  simp only [Proc.bind_eq, Proc.run_bind, run_readJSON, hscope]
  cases hidx : idx m with
  | some scope =>
    refine ⟨idx, hidx.symm, h, fun _ => ?_⟩
    rw [hidx]
    exact Option.some_ne_none scope
  | none =>
    simp only [Proc.run_bind, run_globBetween]
    cases hhead : (files.between [.session] [.messages, m, .info]).head? with
    | none =>
      refine ⟨idx, hidx.symm, h, ?_⟩
      rintro (hknown | ⟨t, hknown⟩)
      · rw [hscope, hidx] at hknown
        exact absurd rfl hknown
      · -- the message would have been found
        have hmem := h.mem_between.mpr (h.live_of_project hknown)
        rw [List.head?_eq_none_iff.mp hhead] at hmem
        cases hmem
    | some t =>
      simp only [Proc.run_bind, run_readJSON]
      have hlive : live (.message t m) ≠ none := h.mem_between.mp (List.mem_of_mem_head? hhead)
      cases hproject : project (files.get (messageInfoPath t m)) with
      | none =>
        refine ⟨idx, hidx.symm, h, ?_⟩
        rintro (hknown | ⟨r, hknown⟩)
        · rw [hscope, hidx] at hknown
          exact absurd rfl hknown
        · obtain rfl := h.unique t m hlive r (h.live_of_project hknown)
          exact absurd hproject hknown
      | some projectID =>
        refine ⟨Function.update idx m (some (projectID, t)), ?_, ?_, fun _ => ?_⟩
        · rw [Function.update_self]
          rfl
        · refine h.writeIndex ?_ hlive fun scope hsome => ?_
          · exact ne_of_truthy hproject
          · rw [hidx] at hsome
            cases hsome
        · rw [Function.update_self]
          exact Option.some_ne_none _

/-! #### Plain keys -/

section Plain

variable {key : List Name} (hkey : keyOf key = .plain key)

include hkey

theorem plain_iff {a : Name} (heq : key = domain :: a :: rest) :
    domain ≠ .session ∧ (rest = [] ∨ domain ≠ .message ∧ domain ≠ .part) := by
  subst heq
  refine ⟨?_, ?_⟩
  · rintro rfl
    simp at hkey
  · rcases rest with _ | ⟨b, rest⟩
    · exact Or.inl rfl
    · refine Or.inr ⟨?_, ?_⟩
      · rintro rfl
        simp at hkey
      · rintro rfl
        simp at hkey

theorem resolvePath_plain : (resolvePath key : Program V Path) = .done key := by
  rcases key with _ | ⟨domain, _ | ⟨a, rest⟩⟩
  · rfl
  · rfl
  · obtain ⟨hsession, hrest⟩ := plain_iff hkey rfl
    rcases rest with _ | ⟨b, rest⟩
    · simp [resolvePath, hsession]
    · obtain ⟨hmessage, hpart⟩ := hrest.resolve_left (List.cons_ne_nil b rest)
      simp [resolvePath, hsession, hmessage, hpart]

theorem remove_plain : (remove key : Program V (Outcome V)) = removeFile key := by
  rw [remove, resolvePath_plain hkey, Proc.bind_eq, Proc.done_bind]
  rcases key with _ | ⟨domain, _ | ⟨a, rest⟩⟩
  · rfl
  · rfl
  · obtain ⟨hsession, hrest⟩ := plain_iff hkey rfl
    rcases rest with _ | ⟨b, rest⟩
    · simp [hsession]
    · obtain ⟨hmessage, -⟩ := hrest.resolve_left (List.cons_ne_nil b rest)
      simp [hsession, hmessage]

theorem writeIndex_plain : writeIndex key v = .done () := by
  rcases key with _ | ⟨domain, _ | ⟨a, rest⟩⟩
  · rfl
  · rfl
  · obtain ⟨hsession, hrest⟩ := plain_iff hkey rfl
    rcases rest with _ | ⟨b, rest⟩
    · simp [writeIndex, hsession]
    · obtain ⟨hmessage, -⟩ := hrest.resolve_left (List.cons_ne_nil b rest)
      simp [writeIndex, hsession, hmessage]

end Plain

/-! #### Where a value is -/

theorem run_resolvePath_part :
    (resolvePath (.part :: m :: p :: rest)).run handle files =
      ((((resolveMessageScope m).run handle files).1.elim (.part :: m :: p :: rest)
        fun scope => partPath scope.2 m p),
        ((resolveMessageScope m).run handle files).2) := by
  rw [resolvePath, if_neg part_ne_session]
  simp only [if_neg part_ne_message, if_pos, Proc.bind_eq, Proc.run_bind]
  cases ((resolveMessageScope m).run handle files).1 with
  | none => rfl
  | some scope => rfl

theorem resolvePath_session :
    (resolvePath (.session :: m :: rest) : Program V Path) =
      .done (sessionInfoPath (rest.head?.getD m)) := rfl

theorem resolvePath_message :
    (resolvePath (.message :: s :: m :: rest) : Program V Path) = .done (messageInfoPath s m) := by
  rfl

theorem Mirrors.get_part_key (h : Mirrors files live idx) :
    files.get (.part :: m :: p :: rest) = none := by
  have hlive : live (.plain (.part :: m :: p :: rest)) = none := by
    by_contra hlive
    obtain ⟨hkey, -⟩ := h.canonical _ hlive
    cases hkey
  rw [h.get, fileOf_of_head part_ne_session part_ne_index, expected, hlive, Option.map_none]

/-- **Every key leads to its value.** -/
theorem Mirrors.resolvePath (h : Mirrors files live idx) {key : List Name}
    (hindex : key.head? ≠ some .index) :
    ∃ idx', Mirrors ((Storage.resolvePath key).run handle files).2 live idx' ∧
      ((Storage.resolvePath key).run handle files).2.get
        ((Storage.resolvePath key).run handle files).1 = (live (keyOf key)).map .data := by
  induction key using key_cases with
  | session a rest =>
    refine ⟨idx, h, ?_⟩
    rw [resolvePath_session, Proc.run_done, keyOf_session, h.get, fileOf_sessionInfoPath, expected]
  | message a b rest =>
    rw [resolvePath_message, Proc.run_done, keyOf_message]
    refine ⟨idx, h, ?_⟩
    rw [h.get, fileOf_messageInfoPath, expected]
  | part a b rest =>
    obtain ⟨idx', hresult, hmirrors, -⟩ := h.resolveMessageScope a
    rw [run_resolvePath_part, hresult, keyOf_part]
    refine ⟨idx', hmirrors, ?_⟩
    cases hscope : idx' a with
    | none =>
      rw [Option.elim_none, hmirrors.get_part_key, hmirrors.unindexed a hscope b, Option.map_none]
    | some scope =>
      rw [Option.elim_some, hmirrors.get, fileOf_partPath, expected, hscope, Option.map_some,
        if_pos rfl]
  | plain key hkey =>
    refine ⟨idx, ?_, ?_⟩
    · rw [resolvePath_plain hkey]
      exact h
    · rw [resolvePath_plain hkey, Proc.run_done, h.get, fileOf_of_keyOf hkey hindex, expected, hkey]

/-! #### Reading and writing -/

theorem Mirrors.read (h : Mirrors files live idx) {key : List Name}
    (hindex : key.head? ≠ some .index) :
    ∃ idx', ((Storage.read key).run handle files).1 =
        (live (keyOf key)).elim .notFound (fun v => .content (.data v)) ∧
      Mirrors ((Storage.read key).run handle files).2 live idx' := by
  obtain ⟨idx', hmirrors, hget⟩ := h.resolvePath hindex
  simp only [Storage.read, Proc.bind_eq, Proc.run_bind, run_lockRead, run_readJSON, run_unlock,
    hget]
  refine ⟨idx', ?_, ?_⟩
  · cases live (keyOf key) with
    | none => rfl
    | some v => rfl
  · cases live (keyOf key) with
    | none => exact hmirrors
    | some v => exact hmirrors

theorem run_resolvePath {key : List Name} {target : Path}
    (h : (Storage.resolvePath key : Program V Path) = .done target) :
    (resolvePath key).run handle files = (target, files) := by rw [h, Proc.run_done]

theorem run_write {key : List Name} {target : Path} {files' : Files V}
    (htarget : (resolvePath key).run handle files = (target, files')) :
    (write key v).run handle files =
      (.done, ((writeIndex key v).run handle (files'.put target (.data v))).2) := by
  simp only [write, htarget, Proc.bind_eq, Proc.run_bind, run_mkdir, run_lockWrite,
    run_writeFile, run_unlock]
  rfl

theorem Mirrors.resolveSessionProjectID (h : Mirrors files live idx) :
    (resolveSessionProjectID s).run handle files =
      ((live (.session s)).bind fun v => truthy (Document.projectID v), files) := by
  have hindexed := h.get (sessionIndexPath s)
  have hinfo := h.get (sessionInfoPath s)
  rw [fileOf_sessionIndexPath, expected] at hindexed
  rw [fileOf_sessionInfoPath, expected] at hinfo
  rw [Storage.resolveSessionProjectID]
  simp only [Proc.bind_eq, Proc.run_bind, run_readJSON, hindexed]
  cases hlive : live (.session s) with
  | none =>
    rw [hlive] at hinfo
    simp [project, truthy, hinfo]
  | some v =>
    obtain ⟨x, hx⟩ := Option.ne_none_iff_exists'.mp (h.hasProject s v hlive)
    have hproject : truthy (some x) = some x := truthy_of_ne (ne_of_truthy hx)
    simp [project, hx, Content.projectID, hproject]

theorem run_writeIndex_session {a : Name} {projectID : String}
    (hproject : truthy (Document.projectID v) = some projectID)
    (hold : rest[0]? ≠ none → a.1 = projectID) :
    ((writeIndex (.session :: a :: rest) v).run handle files).2 =
      files.put (sessionIndexPath (rest.head?.getD a))
        (.sessionIndex projectID (Document.parentID v)) := by
  cases rest with
  | nil => simp [writeIndex, hproject, upsertSessionIndex]
  | cons b rest => simp [writeIndex, hold (by simp), upsertSessionIndex]

theorem run_writeIndex_message :
    ((writeIndex (.message :: s :: m :: rest) v).run handle files).2 =
      ((resolveSessionProjectID s).run handle files).1.elim
        ((resolveSessionProjectID s).run handle files).2
        fun projectID => ((resolveSessionProjectID s).run handle files).2.put (messageIndexPath m)
          (.messageIndex projectID s) := by
  simp only [writeIndex, if_neg message_ne_session, if_pos, Proc.bind_eq, Proc.run_bind]
  cases ((resolveSessionProjectID s).run handle files).1 with
  | none => rfl
  | some projectID => rfl

theorem writeIndex_part : writeIndex (.part :: m :: p :: rest) v =
    .done () := by
  rw [writeIndex, if_neg part_ne_session]
  exact if_neg part_ne_message

theorem Mirrors.write (h : Mirrors files live idx) {key : List Name}
    (hindex : key.head? ≠ some .index) (hwritable : Writable (files, live) key v) :
    ∃ idx', ((Storage.write key v).run handle files).1 = .done ∧
      Mirrors ((Storage.write key v).run handle files).2 (live.write (keyOf key) v) idx' := by
  induction key using key_cases with
  | session a rest =>
    obtain ⟨projectID, hproject, hold⟩ := hwritable
    rw [run_write (run_resolvePath resolvePath_session), keyOf_session,
      run_writeIndex_session hproject fun hrest => by simpa using hold hrest]
    exact ⟨idx, rfl, h.writeSession hproject⟩
  | message a b rest =>
    have hmirrors := h.writeMessage (v := v) hwritable
    rw [run_write (run_resolvePath resolvePath_message), keyOf_message, run_writeIndex_message,
      hmirrors.resolveSessionProjectID]
    cases hsession : (live.write (.message a b) v (.session a)).bind
        fun v => truthy (Document.projectID v) with
    | none => exact ⟨idx, rfl, hmirrors⟩
    | some projectID =>
      obtain ⟨w, -, hw⟩ := Option.bind_eq_some_iff.mp hsession
      refine ⟨_, rfl, hmirrors.writeIndex (ne_of_truthy hw) ?_ fun scope hscope => ?_⟩
      · rw [Live.write, Function.update_self]
        exact Option.some_ne_none v
      · exact hwritable _ (h.indexed b scope hscope).2
  | part a b rest =>
    obtain ⟨idx', hresult, hmirrors, hknown⟩ := h.resolveMessageScope a
    obtain ⟨scope, hscope⟩ := Option.ne_none_iff_exists'.mp (hknown hwritable)
    rw [run_write run_resolvePath_part, keyOf_part, writeIndex_part, hresult, hscope]
    exact ⟨idx', rfl, hmirrors.writePart hscope⟩
  | plain key hkey =>
    rw [run_write (run_resolvePath (resolvePath_plain hkey)), writeIndex_plain hkey, hkey]
    exact ⟨idx, rfl, h.writePlain hkey hindex⟩

/-! #### Removing -/

theorem run_unlinkIfOf (entry : Entry) (files : Files V) :
    ((unlinkIfOf s entry).run handle files).2 = unlinked s files entry := by
  cases entry with
  | dir name => rfl
  | file m =>
    change ((if (files.get (messageIndexPath m)).bind Content.sessionID = some s then
      unlink (messageIndexPath m) else .done ()).run handle files).2 = _
    rw [unlinked]
    by_cases hof : (files.get (messageIndexPath m)).bind Content.sessionID = some s
    · rw [if_pos hof, if_pos hof]
      rfl
    · rw [if_neg hof, if_neg hof]
      rfl

theorem run_remove_session {a : Name} {files' : Files V}
    (hfiles' : files' = ((files.dropBelow [.session, rest.head?.getD a]).drop
      (sessionIndexPath (rest.head?.getD a))).dropBelow [.message, rest.head?.getD a]) :
    (remove (.session :: a :: rest)).run handle files =
      (.done, (files'.entries [.index, .message]).foldl (unlinked (rest.head?.getD a)) files') := by
  have heach := Proc.run_each_of_changes (f := unlinkIfOf (V := V) (rest.head?.getD a))
    run_unlinkIfOf (files'.entries [.index, .message]) files'
  simp only [remove, resolvePath_session, Proc.bind_eq, Proc.done_bind, if_pos, removeSession,
    Proc.run_bind, run_rm, run_unlink, run_readdir]
  change (_, ((Proc.each _ _).run handle _).2) = _
  rw [show dirname (sessionInfoPath (rest.head?.getD a)) = [.session, rest.head?.getD a] from rfl,
    ← hfiles', heach]

theorem run_remove_part :
    (remove (.part :: m :: p :: rest)).run handle files =
      (.done, (((resolvePath (.part :: m :: p :: rest)).run handle files).2.drop
        ((resolvePath (.part :: m :: p :: rest)).run handle files).1)) := by
  rw [remove, Proc.bind_eq, Proc.run_bind]
  rfl

/-- **What is removed is gone**, with what goes with it. -/
theorem Mirrors.remove (h : Mirrors files live idx) {key : List Name}
    (hindex : key.head? ≠ some .index)
    (halone : ∀ s m, keyOf key = .message s m → Alone live s m) :
    ∃ idx', ((Storage.remove key).run handle files).1 = .done ∧
      Mirrors ((Storage.remove key).run handle files).2 (live.remove (keyOf key)) idx' := by
  induction key using key_cases with
  | session a rest =>
    rw [run_remove_session rfl, keyOf_session]
    exact ⟨_, rfl, h.removeSession rfl⟩
  | message a b rest =>
    exact ⟨_, rfl, h.removeMessage (halone a b keyOf_message)⟩
  | part a b rest =>
    obtain ⟨idx', hresult, hmirrors, -⟩ := h.resolveMessageScope a
    rw [run_remove_part, keyOf_part, run_resolvePath_part, hresult]
    refine ⟨idx', rfl, ?_⟩
    cases hscope : idx' a with
    | some scope => exact hmirrors.removePart hscope
    | none =>
      -- Nothing is at the place where the part would be without its message.
      refine hmirrors.removeNothing hmirrors.get_part_key (hmirrors.unindexed a hscope b) ?_
      intro other hother
      cases other with
      | part m p => simpa [Live.goesWith, eq_comm] using hother
      | session s | message s m | plain path => simp [Live.goesWith] at hother
  | plain key hkey =>
    rw [remove_plain hkey, hkey]
    exact ⟨idx, rfl, h.removePlain (fileOf_of_keyOf hkey hindex)⟩

/-! #### Listing -/

omit [Document V] in
theorem mem_names {entries : List Entry} {g : Entry → Option Name} :
    name ∈ (entries.map g).reduceOption ↔ ∃ e ∈ entries, g e = some name := by
  rw [List.reduceOption_mem_iff, List.mem_map]

omit [Document V] in
theorem nodup_names {entries : List Entry} (g : Entry → Option Name) (hnodup : entries.Nodup)
    (hown : ∀ e e' name, g e = some name → g e' = some name → e = e') :
    (entries.map g).reduceOption.Nodup := by
  rw [List.reduceOption, List.filterMap_map]
  exact hnodup.filterMap hown

omit [Document V] in
theorem mem_sort : name ∈ Name.sort names ↔ name ∈ names :=
  List.mem_insertionSort _

omit [Document V] in
theorem nodup_sort (h : names.Nodup) : (Name.sort names).Nodup :=
  (List.perm_insertionSort _ names).nodup_iff.mpr h

theorem listed_names {key : Name → Path} (hkey : Function.Injective key) (hnodup : names.Nodup)
    (h : ∀ path, live.Listed pre path ↔ ∃ name ∈ names, key name = path) :
    ((Name.sort names).map key).Nodup ∧
      ∀ path, path ∈ (Name.sort names).map key ↔ live.Listed pre path := by
  refine ⟨(nodup_sort hnodup).map hkey, fun path => ?_⟩
  rw [h, List.mem_map]
  exact exists_congr fun name => and_congr_left' mem_sort

def listOf (rest : List Name) (content : Option (Content V)) (name : Name) : Option Name :=
  if rest = [] then some name else if isOf rest content then some name else none

theorem run_listIf :
    (listIf rest name path).run handle files = (listOf rest (files.get path) name, files) := by
  rw [listIf, listOf]
  split
  next => rfl
  next => rfl

theorem run_listIndexed (e : Entry) :
    (listIndexed rest e).run handle files =
      (e.fileName.bind fun name => listOf rest (files.get (sessionIndexPath name)) name,
        files) := by
  cases e with
  | dir name => rfl
  | file name => exact run_listIf

omit [Document V] in
theorem eq_file_of_fileName {e : Entry} (h : e.fileName = some name) : e = .file name := by
  cases e with
  | file other => rw [Option.some.inj h]
  | dir other => cases h

theorem fileName_of_listOf {e : Entry}
    (h : (e.fileName.bind fun name => listOf rest (files.get (sessionIndexPath name)) name) = some name)
    : e = .file name := by
  obtain ⟨other, hother, hname⟩ := Option.bind_eq_some_iff.mp h
  refine eq_file_of_fileName (hother.trans (congrArg some ?_))
  rw [listOf] at hname
  split at hname
  · exact Option.some.inj hname
  · split at hname
    · exact Option.some.inj hname
    · cases hname

theorem run_listFlat (hnone : ∀ name, files.get (sessionInfoPath name) = none) (e : Entry) :
    (listFlat rest e).run handle files = (none, files) := by
  cases e with
  | file name => rfl
  | dir name =>
    rw [listFlat, Proc.bind_eq, Proc.run_bind, run_fileExists, hnone name]
    rfl

theorem Mirrors.mem_index (h : Mirrors files live idx) :
    .file s ∈ files.entries [.index, .session] ↔ live (.session s) ≠ none := by
  rw [Files.mem_entries_file]
  change files.get (sessionIndexPath s) ≠ none ↔ _
  rw [h.get, fileOf_sessionIndexPath, expected]
  cases hlive : live (.session s) with
  | none => simp
  | some v => simpa using h.hasProject s v hlive

theorem Mirrors.listOf (h : Mirrors files live idx) (hlive : live (.session s) = some v) :
    Storage.listOf rest (files.get (sessionIndexPath s)) s = some s ↔
      (∀ projectID ∈ rest[0]?, Document.projectID v = some projectID.1) ∧
        ∀ parentID ∈ rest[1]?, Document.parentID v = some parentID.1 := by
  obtain ⟨x, hx⟩ := Option.ne_none_iff_exists'.mp (h.hasProject s v hlive)
  have hproject : Document.projectID v = some x := (Option.filter_eq_some_iff.mp hx).1
  rw [h.get, fileOf_sessionIndexPath, expected, hlive, Option.bind_some, hx, Option.map_some]
  rcases rest with _ | ⟨a, _ | ⟨b, rest⟩⟩
  · simp [Storage.listOf]
  · simp [Storage.listOf, isOf, Content.projectID, hproject]
  · simp only [Storage.listOf, isOf, Content.projectID, Content.parentID, hproject, reduceCtorEq,
      if_false, Option.bind_some, Bool.and_eq_true, decide_eq_true_eq, List.getElem?_cons_zero,
      List.getElem?_cons_succ, Option.mem_def, Option.some.injEq, forall_eq']
    split
    next hof => exact iff_of_true rfl ⟨hof.1, of_decide_eq_true hof.2⟩
    next hof => exact iff_of_false (by rintro ⟨⟩) fun hof' => hof ⟨hof'.1, decide_eq_true hof'.2⟩

/-- **The sessions that are listed are those that are there**, of the project and with the parent
that are asked for. -/
theorem Mirrors.listSessions (h : Mirrors files live idx) (rest : List Name) :
    ∃ names, (Storage.listSessions rest).run handle files = (names, files) ∧ names.Nodup ∧
      ∀ s, s ∈ names ↔ ∃ v, live (.session s) = some v ∧
        (∀ projectID ∈ rest[0]?, Document.projectID v = some projectID.1) ∧
          ∀ parentID ∈ rest[1]?, Document.parentID v = some parentID.1 := by
  rw [Storage.listSessions, Proc.bind_eq, Proc.run_bind, run_readdir]
  by_cases hentries : files.entries [.index, .session] = []
  · -- Without an entry in the index there is no session.
    have hnone : ∀ s, live (.session s) = none := by
      intro s
      by_contra hlive
      have hmem := h.mem_index.mpr hlive
      rw [hentries] at hmem
      cases hmem
    have hflat : ∀ e, (listFlat rest e).run handle files = (none, files) := by
      refine run_listFlat fun s => ?_
      rw [h.get, fileOf_sessionInfoPath, expected, hnone s, Option.map_none]
    refine ⟨[], ?_, List.nodup_nil, fun s => ?_⟩
    · rw [if_neg (not_not.mpr hentries), Proc.bind_eq, Proc.run_bind, run_readdir, Proc.bind_eq,
        Proc.run_bind, Proc.run_each_of_looks hflat]
      simp
    · simp [hnone s]
  · refine ⟨_, ?_, nodup_names (fun e => e.fileName.bind fun name =>
      Storage.listOf rest (files.get (sessionIndexPath name)) name)
      (Files.nodup_entries : (files.entries [.index, .session]).Nodup) ?_, fun s => ?_⟩
    · rw [if_pos hentries, Proc.bind_eq, Proc.run_bind, Proc.run_each_of_looks run_listIndexed]
      rfl
    · intro e e' name he he'
      rw [fileName_of_listOf he, fileName_of_listOf he']
    · rw [mem_names]
      constructor
      · rintro ⟨e, he, hname⟩
        obtain rfl := fileName_of_listOf hname
        obtain ⟨v, hv⟩ := Option.ne_none_iff_exists'.mp (h.mem_index.mp he)
        exact ⟨v, hv, (h.listOf hv).mp hname⟩
      · rintro ⟨v, hv, hof⟩
        exact ⟨.file s, h.mem_index.mpr (hv ▸ Option.some_ne_none v), (h.listOf hv).mpr hof⟩

def messageOf (files : Files V) (s : Name) : Entry → Option Name
  | .file _ => none
  | .dir m => if (files.get (messageInfoPath s m)).isSome then some m else none

omit [Document V] in
theorem run_listMessage (e : Entry) :
    (listMessage s e).run handle files = (messageOf files s e, files) := by
  cases e with
  | file name => rfl
  | dir m => rfl

omit [Document V] in
theorem eq_dir_of_messageOf {e : Entry} (h : messageOf files s e = some m) :
    e = .dir m ∧ files.get (messageInfoPath s m) ≠ none := by
  cases e with
  | file name => cases h
  | dir other =>
    rw [messageOf] at h
    split at h
    next hsome =>
      obtain rfl := Option.some.inj h
      exact ⟨rfl, Option.isSome_iff_ne_none.mp hsome⟩
    next => cases h

theorem Mirrors.listMessages (h : Mirrors files live idx) (s : Name) :
    ∃ names, (Storage.listMessages s).run handle files = (names, files) ∧ names.Nodup ∧
      ∀ m, m ∈ names ↔ live (.message s m) ≠ none := by
  have hlive : ∀ m, files.get (messageInfoPath s m) ≠ none ↔ live (.message s m) ≠ none := by
    intro m
    rw [h.get, fileOf_messageInfoPath, expected, ne_eq, Option.map_eq_none_iff]
  refine ⟨((files.entries [.session, s, .messages]).map (messageOf files s)).reduceOption, ?_,
    nodup_names _ Files.nodup_entries ?_, fun m => ?_⟩
  · rw [Storage.listMessages, Proc.bind_eq, Proc.run_bind, run_readdir, Proc.bind_eq,
      Proc.run_bind, Proc.run_each_of_looks run_listMessage]
    rfl
  · intro e e' name he he'
    rw [(eq_dir_of_messageOf he).1, (eq_dir_of_messageOf he').1]
  · rw [mem_names, ← hlive]
    constructor
    · rintro ⟨e, -, hname⟩
      exact (eq_dir_of_messageOf hname).2
    · intro hget
      refine ⟨.dir m, Files.mem_entries_dir.mpr ⟨.info, [], hget⟩, ?_⟩
      rw [messageOf, if_pos (Option.isSome_iff_ne_none.mpr hget)]

theorem Mirrors.listParts (h : Mirrors files live idx) (m : Name) :
    ∃ idx', Mirrors ((Storage.listParts m).run handle files).2 live idx' ∧
      ((Storage.listParts m).run handle files).1.Nodup ∧
        ∀ p, p ∈ ((Storage.listParts m).run handle files).1 ↔ live (.part m p) ≠ none := by
  obtain ⟨idx', hresult, hmirrors, -⟩ := h.resolveMessageScope m
  refine ⟨idx', ?_⟩
  rw [Storage.listParts]
  simp only [Proc.bind_eq, Proc.run_bind, hresult]
  cases hscope : idx' m with
  | none =>
    refine ⟨hmirrors, List.nodup_nil, fun p => ?_⟩
    simp [hmirrors.unindexed m hscope p]
  | some scope =>
    simp only [Proc.run_bind, run_readdir, Proc.pure_eq, Proc.run_done]
    refine ⟨hmirrors, Files.nodup_entries.filterMap fun e e' name he he' => ?_, fun p => ?_⟩
    · rw [eq_file_of_fileName he, eq_file_of_fileName he']
    · have hlive : live (.part m p) ≠ none ↔ .file p ∈
          ((Storage.resolveMessageScope m).run handle files).2.entries
            [.session, scope.2, .messages, m, .parts] := by
        rw [Files.mem_entries_file]
        change _ ↔ ((Storage.resolveMessageScope m).run handle files).2.get
          (partPath scope.2 m p) ≠ none
        rw [hmirrors.get, fileOf_partPath, expected, hscope, Option.map_some, if_pos rfl, ne_eq,
          ne_eq, Option.map_eq_none_iff]
      rw [List.mem_filterMap, hlive]
      constructor
      · rintro ⟨e, he, hname⟩
        rwa [eq_file_of_fileName hname] at he
      · exact fun he => ⟨_, he, rfl⟩

/-! #### What is listed -/

theorem Mirrors.listed_session (h : Mirrors files live idx) :
    live.Listed [.session] path ↔ ∃ s, live (.session s) ≠ none ∧ [.session, s] = path := by
  constructor
  · rintro ⟨k, hk, rfl, hbelow⟩
    obtain ⟨name, rest, heq⟩ := Files.below_iff.mp hbelow
    cases k with
    | session s => exact ⟨s, hk, rfl⟩
    | message s m => exact absurd (List.cons.inj heq).1 message_ne_session
    | part m p => exact absurd (List.cons.inj heq).1 part_ne_session
    | plain other =>
      obtain ⟨hkey, -⟩ := h.canonical other hk
      obtain rfl : other = .session :: name :: rest := heq
      cases hkey
  · rintro ⟨s, hs, rfl⟩
    exact ⟨.session s, hs, rfl, Files.below_iff.mpr ⟨s, [], rfl⟩⟩

theorem Mirrors.listed_message (h : Mirrors files live idx) :
    live.Listed [.message, s] path ↔
      ∃ m, live (.message s m) ≠ none ∧ [.message, s, m] = path := by
  constructor
  · rintro ⟨k, hk, rfl, hbelow⟩
    obtain ⟨name, rest, heq⟩ := Files.below_iff.mp hbelow
    cases k with
    | session t => exact absurd (List.cons.inj heq).1 message_ne_session.symm
    | message t m =>
      obtain rfl : t = s := (List.cons.inj (List.cons.inj heq).2).1
      exact ⟨m, hk, rfl⟩
    | part m p => exact absurd (List.cons.inj heq).1 part_ne_message
    | plain other =>
      obtain ⟨hkey, -⟩ := h.canonical other hk
      obtain rfl : other = .message :: s :: name :: rest := heq
      cases hkey
  · rintro ⟨m, hm, rfl⟩
    exact ⟨.message s m, hm, rfl, Files.below_iff.mpr ⟨m, [], rfl⟩⟩

theorem Mirrors.listed_part (h : Mirrors files live idx) :
    live.Listed [.part, m] path ↔ ∃ p, live (.part m p) ≠ none ∧ [.part, m, p] = path := by
  constructor
  · rintro ⟨k, hk, rfl, hbelow⟩
    obtain ⟨name, rest, heq⟩ := Files.below_iff.mp hbelow
    cases k with
    | session t => exact absurd (List.cons.inj heq).1 part_ne_session.symm
    | message t n => exact absurd (List.cons.inj heq).1 part_ne_message.symm
    | part n p =>
      obtain rfl : n = m := (List.cons.inj (List.cons.inj heq).2).1
      exact ⟨p, hk, rfl⟩
    | plain other =>
      obtain ⟨hkey, -⟩ := h.canonical other hk
      obtain rfl : other = .part :: m :: name :: rest := heq
      cases hkey
  · rintro ⟨p, hp, rfl⟩
    exact ⟨.part m p, hp, rfl, Files.below_iff.mpr ⟨p, [], rfl⟩⟩

theorem Mirrors.listed_plain (hsession : domain ≠ .session)
    (hmessage : domain = .message → ∀ s m, live (.message s m) = none)
    (hpart : domain = .part → ∀ m p, live (.part m p) = none) :
    live.Listed (domain :: rest) path ↔
      live (.plain path) ≠ none ∧ Files.Below (domain :: rest) path := by
  have hlisted : live.Listed (domain :: rest) path ↔
      ∃ k : Key, live k ≠ none ∧ path = k.path ∧ Files.Below (domain :: rest) path := by
    cases rest with
    | nil => rfl
    | cons a rest => rw [Live.Listed, if_neg hsession]
  rw [hlisted]
  constructor
  · rintro ⟨k, hk, rfl, hbelow⟩
    obtain ⟨name, tail, heq⟩ := Files.below_iff.mp hbelow
    cases k with
    | session s => exact absurd (List.cons.inj heq).1.symm hsession
    | message s m => exact absurd (hmessage (List.cons.inj heq).1.symm s m) hk
    | part m p => exact absurd (hpart (List.cons.inj heq).1.symm m p) hk
    | plain other => exact ⟨hk, hbelow⟩
  · rintro ⟨hlive, hbelow⟩
    exact ⟨.plain path, hlive, rfl, hbelow⟩

omit [Document V] in
theorem run_listFiles (hpre : pre ≠ []) :
    (listFiles pre).run handle files = (Path.sort (files.below pre), files) := by
  rw [listFiles, Proc.bind_eq, Proc.run_bind, run_scan, if_neg hpre]
  rfl

theorem Mirrors.listFiles (h : Mirrors files live idx) (hsession : domain ≠ .session)
    (hindex : domain ≠ .index) (hmessage : domain = .message → ∀ s m, live (.message s m) = none)
    (hpart : domain = .part → ∀ m p, live (.part m p) = none) :
    (Path.sort (files.below (domain :: rest))).Nodup ∧
      ∀ path, path ∈ Path.sort (files.below (domain :: rest)) ↔
        live.Listed (domain :: rest) path := by
  refine ⟨(List.perm_insertionSort _ _).nodup_iff.mpr (Files.nodup_below h.distinct),
    fun path => ?_⟩
  rw [listed_plain hsession hmessage hpart, Path.sort, List.mem_insertionSort, Files.mem_below]
  refine and_congr_left fun hbelow => ?_
  obtain ⟨name, tail, rfl⟩ := Files.below_iff.mp hbelow
  rw [List.cons_append, h.get, fileOf_of_head hsession hindex, expected, ne_eq,
    Option.map_eq_none_iff]

theorem list_session :
    (Storage.list (.session :: rest) : Program V (Outcome V)) =
      (listSessions rest).bind fun ids =>
      .done (.keys ((Name.sort ids).map fun id => .session :: (rest.head?.toList ++ [id]))) := by
  simp only [Storage.list, if_pos, Proc.bind_eq, Proc.pure_eq]

theorem list_message :
    (Storage.list (.message :: s :: rest) : Program V (Outcome V)) =
      (listMessages s).bind fun ids =>
        .done (.keys ((Name.sort ids).map fun id => [.message, s, id])) := by
  simp only [Storage.list, if_neg message_ne_session, if_pos, Proc.bind_eq, Proc.pure_eq]

theorem list_part :
    (Storage.list (.part :: m :: rest) : Program V (Outcome V)) =
      (listParts m).bind fun ids =>
        .done (.keys ((Name.sort ids).map fun id => [.part, m, id])) := by
  simp only [Storage.list, if_neg part_ne_session, if_neg part_ne_message, if_pos, Proc.bind_eq,
    Proc.pure_eq]

theorem list_plain (hsession : domain ≠ .session)
    (hrest : rest = [] ∨ domain ≠ .message ∧ domain ≠ .part) :
    (Storage.list (domain :: rest) : Program V (Outcome V)) =
      (Storage.listFiles (domain :: rest)).bind fun keys => .done (.keys keys) := by
  refine (if_neg hsession).trans ?_
  rcases rest with _ | ⟨a, rest⟩
  · rfl
  · obtain ⟨hmessage, hpart⟩ := hrest.resolve_left (List.cons_ne_nil a rest)
    exact (if_neg hmessage).trans (if_neg hpart)

/-- **What is listed is there, and what is there is listed.** -/
theorem Mirrors.list (h : Mirrors files live idx) (hindex : pre.head? ≠ some .index)
    (hlistable : Listable live pre) :
    ∃ idx' keys, ((Storage.list pre).run handle files).1 = .keys keys ∧
      Mirrors ((Storage.list pre).run handle files).2 live idx' ∧ keys.Nodup ∧
        ∀ key, key ∈ keys ↔ live.Listed pre key := by
  rcases pre with _ | ⟨domain, rest⟩
  · exact hlistable.elim
  have hindex' : domain ≠ .index := fun heq => hindex (congrArg some heq)
  by_cases hsession : domain = .session
  · subst hsession
    obtain ⟨names, hrun, hnodup, hmem⟩ := h.listSessions rest
    have hkey : Function.Injective fun id : Name =>
        Name.session :: (rest.head?.toList ++ [id]) := by
      intro a b hab
      simpa using hab
    rw [list_session, Proc.run_bind, hrun, Proc.run_done]
    refine ⟨idx, _, rfl, h, listed_names hkey hnodup fun path => ?_⟩
    rcases rest with _ | ⟨projectID, rest⟩
    · rw [h.listed_session]
      refine exists_congr fun s => and_congr_left' ?_
      rw [hmem, Option.ne_none_iff_exists']
      simp
    · refine exists_congr fun s => ?_
      rw [hmem, List.getElem?_cons_zero, List.getElem?_cons_succ, ← List.head?_eq_getElem?]
      constructor
      · rintro ⟨v, hv, rfl, hproject, hparent⟩
        refine ⟨⟨v, hv, ?_, hparent⟩, rfl⟩
        rintro _ ⟨⟩
        exact hproject
      · rintro ⟨⟨v, hv, hproject, hparent⟩, rfl⟩
        exact ⟨v, hv, rfl, hproject projectID rfl, hparent⟩
  · rcases rest with _ | ⟨a, rest⟩
    · -- A prefix of one name.
      obtain ⟨hmessage, hpart⟩ := hlistable
      rw [list_plain hsession (.inl rfl), Proc.run_bind, run_listFiles (List.cons_ne_nil _ _),
        Proc.run_done]
      exact ⟨idx, _, rfl, h, h.listFiles hsession hindex' hmessage hpart⟩
    · by_cases hmessage : domain = .message
      · subst hmessage
        obtain rfl := hlistable (.inl rfl)
        obtain ⟨names, hrun, hnodup, hmem⟩ := h.listMessages a
        rw [list_message, Proc.run_bind, hrun, Proc.run_done]
        refine ⟨idx, _, rfl, h, listed_names ?_ hnodup fun path => ?_⟩
        · intro x y hxy
          simpa using hxy
        · rw [h.listed_message]
          exact exists_congr fun m => and_congr_left' (hmem m).symm
      · by_cases hpart : domain = .part
        · subst hpart
          obtain rfl := hlistable (.inr rfl)
          obtain ⟨idx', hmirrors, hnodup, hmem⟩ := h.listParts a
          rw [list_part, Proc.run_bind, Proc.run_done]
          refine ⟨idx', _, rfl, hmirrors, listed_names ?_ hnodup fun path => ?_⟩
          · intro x y hxy
            simpa using hxy
          · rw [h.listed_part]
            exact exists_congr fun p => and_congr_left' (hmem p).symm
        · rw [list_plain hsession (.inr ⟨hmessage, hpart⟩), Proc.run_bind,
            run_listFiles (List.cons_ne_nil _ _), Proc.run_done]
          exact ⟨idx, _, rfl, h, h.listFiles hsession hindex' (fun heq => absurd heq hmessage)
            fun heq => absurd heq hpart⟩

end Programs

/-! ### Runs -/

section Runs

variable {files : Files V} {live : Live V} {idx : Name → Option (String × Name)}
  {op : Operation V} {ops : List (Operation V)}

theorem mirrors_nil : Mirrors ([] : Files V) (fun _ => none) (fun _ => none) where
  distinct := List.nodup_nil
  get path := by
    cases fileOf path with
    | sessionInfo s => rfl
    | messageInfo s m => rfl
    | part s m p =>
      rfl
    | sessionIndex s | messageIndex m | plain path => rfl
  hasProject s v hv := by cases hv
  unique s m hm := absurd rfl hm
  indexed m scope hscope := by cases hscope
  unindexed m _ p := rfl
  canonical path hpath := absurd rfl hpath

/-- **One operation that goes well**: the files answer as the map, and mirror it again. -/
theorem Mirrors.step (h : Mirrors files live idx) (hsound : Sound (files, live) op) :
    Agrees (files, live) op ∧
      ∃ idx', Mirrors (Storage.step (files, live) op).1 (Storage.step (files, live) op).2 idx' := by
  cases op with
  | read key =>
    obtain ⟨idx', hresult, hmirrors⟩ := h.read hsound
    exact ⟨hresult, idx', hmirrors⟩
  | write key content =>
    obtain ⟨idx', hresult, hmirrors⟩ := h.write hsound.1 hsound.2
    exact ⟨hresult, idx', hmirrors⟩
  | remove key =>
    obtain ⟨idx', hresult, hmirrors⟩ := h.remove hsound.1 hsound.2
    exact ⟨hresult, idx', hmirrors⟩
  | list pre =>
    obtain ⟨idx', keys, hresult, hmirrors, hkeys⟩ := h.list hsound.1 hsound.2
    exact ⟨⟨keys, hresult, hkeys⟩, idx', hmirrors⟩

theorem mirrors_run (h : Meets step Sound ([], fun _ => none) ops) :
    ∃ idx, Mirrors (run step (([] : Files V), fun _ => none) ops).1
      (run step (([] : Files V), fun _ => none) ops).2 idx := by
  refine h.invariant (fun s => ∃ idx, Mirrors s.1 s.2 idx) ⟨_, mirrors_nil⟩ ?_
  rintro s op ⟨idx, hmirrors⟩ hsound
  exact (hmirrors.step hsound).2

/-- **The storage is a map, as long as its operations go well**: every answer is the one of the map,
and after every run each key can be read and listed as the map says. -/
theorem storage_agrees (h : Meets step Sound (([] : Files V), fun _ => none) ops) :
    Meets step Agrees (([] : Files V), fun _ => none) ops ∧
      ∀ op, Sound (run step (([] : Files V), fun _ => none) ops) op →
        Agrees (run step (([] : Files V), fun _ => none) ops) op := by
  refine ⟨Meets.iff_split.mpr fun before op after hsplit => ?_, fun op hsound => ?_⟩
  · obtain ⟨idx, hmirrors⟩ := mirrors_run (h.initial (hsplit ▸ List.prefix_append before _))
    exact (hmirrors.step (Meets.iff_split.mp h before op after hsplit)).1
  · obtain ⟨idx, hmirrors⟩ := mirrors_run h
    exact (hmirrors.step hsound).1

end Runs

/-! ### A part before its message -/

/-- A value of which only the project is read. -/
structure Tagged where
  tag : Option String
  deriving DecidableEq

instance Tagged.instDocument : Document Tagged where
  projectID := Tagged.tag
  parentID _ := none
  sessionID _ := none

namespace Tagged

def project : Name := ⟨"prj_a", by decide⟩

def session : Name := ⟨"ses_a", by decide⟩

def message : Name := ⟨"msg_a", by decide⟩

def part : Name := ⟨"prt_a", by decide⟩

end Tagged

def inOrder : List (Operation Tagged) :=
  [.write [.session, Tagged.session] ⟨some "prj_a"⟩,
    .write [.message, Tagged.session, Tagged.message] ⟨none⟩,
    .write [.part, Tagged.message, Tagged.part] ⟨none⟩,
    .read [.part, Tagged.message, Tagged.part]]

def partFirst : List (Operation Tagged) :=
  [.write [.part, Tagged.message, Tagged.part] ⟨none⟩,
    .write [.session, Tagged.session] ⟨some "prj_a"⟩,
    .write [.message, Tagged.session, Tagged.message] ⟨none⟩,
    .read [.part, Tagged.message, Tagged.part]]

theorem storage_agrees_inOrder :
    Meets step Agrees (([] : Files Tagged), fun _ => none) inOrder := by
  have hsound : Meets step Sound (([] : Files Tagged), fun _ => none) inOrder := by
    refine ⟨⟨by decide, ?_⟩, ⟨by decide, ?_⟩, ⟨by decide, ?_⟩, (by decide : _ ≠ _), trivial⟩
    · exact ⟨"prj_a", by decide, fun h => absurd rfl h⟩
    · intro other hother
      have hnone : (step (([] : Files Tagged), fun _ => none)
          (.write [.session, Tagged.session] ⟨some "prj_a"⟩)).2 (.message other Tagged.message) =
            none := by
        simp [step, Operation.apply, keyOf, Live.write]
      exact absurd hnone hother
    · exact Or.inl (by decide)
  exact (storage_agrees hsound).1

/-- **A part that is written before its message is not found afterwards.** -/
theorem not_storage_agrees : ¬∀ (V : Type) [Document V] (ops : List (Operation V)),
    Meets step Agrees (([] : Files V), fun _ => none) ops := by
  intro h
  obtain ⟨-, -, -, hread, -⟩ := h Tagged partFirst
  -- the files: nothing is found under the message
  have hfiles : ((Operation.read [.part, Tagged.message, Tagged.part]).exec
      (((partFirst.take 3).foldl (fun files op => (op.exec files).2) []))).1 = .notFound := by
    decide
  -- the map: the part is there
  have hlive : (partFirst.take 3).foldl (fun live op => op.apply live) (fun _ => none)
      (.part Tagged.message Tagged.part) = some ⟨none⟩ := by
    change (((Live.write (fun _ => none) (.part Tagged.message Tagged.part) ⟨none⟩).write
      (.session Tagged.session) ⟨some "prj_a"⟩).write (.message Tagged.session Tagged.message)
        ⟨none⟩) (.part Tagged.message Tagged.part) = some (⟨none⟩ : Tagged)
    rw [Live.write, Function.update_of_ne (by rintro ⟨⟩), Live.write,
      Function.update_of_ne (by rintro ⟨⟩), Live.write, Function.update_self]
  have hanswer : Outcome.notFound = .content (.data (⟨none⟩ : Tagged)) :=
    calc Outcome.notFound
      _ = _ := hfiles.symm
      _ = _ := hread
      _ = _ := congrArg (Option.elim · .notFound fun v => Outcome.content (.data v)) hlive
  cases hanswer

end OpenCms.Storage
