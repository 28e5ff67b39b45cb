import OpenCms.Storage.Layout
import Mathlib.Logic.Function.Basic

/-!
# The files as a mirror of a map

What the storage is for: a map from keys to values, in which a session takes its messages with it
when it is removed, and a message its parts. `OpenCms.Storage.Live` is this map.
`OpenCms.Storage.Mirrors` says what has to be in each file, given the map and the index of the
messages; and for each change of the map there is one lemma about the files that mirror it.
-/

namespace OpenCms.Storage

variable {V : Type}

/-! ### The map -/

abbrev Live (V : Type) : Type := Key → Option V

namespace Live

variable (live : Live V)

def write (key : Key) (content : V) : Live V := Function.update live key (some content)

def goesWith (removed : Key) : Key → Prop
  | .session s => removed = .session s
  | .message s m => removed = .message s m ∨ removed = .session s
  | .part m p => removed = .part m p ∨ (∃ s, removed = .message s m) ∨
      ∃ s, removed = .session s ∧ live (.message s m) ≠ none
  | .plain path => removed = .plain path

open Classical in
noncomputable def remove (removed : Key) : Live V :=
  fun key => if live.goesWith removed key then none else live key

variable {live} {removed key : Key}

theorem remove_of_goes (h : live.goesWith removed key) : live.remove removed key = none :=
  if_pos h

theorem remove_of_stays (h : ¬live.goesWith removed key) : live.remove removed key = live key :=
  if_neg h

theorem ne_none_of_remove (h : live.remove removed key ≠ none) :
    ¬live.goesWith removed key ∧ live key ≠ none := by
  by_cases hgoes : live.goesWith removed key
  · exact absurd (remove_of_goes hgoes) h
  · exact ⟨hgoes, remove_of_stays hgoes ▸ h⟩

variable [Document V] (live)

def Listed (pre key : Path) : Prop :=
  match pre with
  | domain :: projectID :: rest =>
    if domain = .session then
      ∃ s v, live (.session s) = some v ∧ key = [.session, projectID, s] ∧
        Document.projectID v = some projectID.1 ∧
          ∀ parentID ∈ rest.head?, Document.parentID v = some parentID.1
    else ∃ k : Key, live k ≠ none ∧ key = k.path ∧ Files.Below pre key
  | _ => ∃ k : Key, live k ≠ none ∧ key = k.path ∧ Files.Below pre key

end Live

variable [Document V]

def Alone (live : Live V) (sessionID messageID : Name) : Prop :=
  ∀ other, live (.message other messageID) ≠ none → other = sessionID

/-! ### The files as a mirror of the map -/

def expected (live : Live V) (idx : Name → Option (String × Name)) : File → Option (Content V)
  | .sessionInfo s => (live (.session s)).map .data
  | .messageInfo s m => (live (.message s m)).map .data
  | .part s m p => if (idx m).map Prod.snd = some s then (live (.part m p)).map .data else none
  | .sessionIndex s => (live (.session s)).bind fun v =>
      (truthy (Document.projectID v)).map fun projectID =>
        .sessionIndex projectID (Document.parentID v)
  | .messageIndex m => (idx m).map fun scope => .messageIndex scope.1 scope.2
  | .plain path => (live (.plain path)).map .data

/-- **The files mirror the map**: each of them is as expected; a message of which a part is there
is in the index, a message that is in the index is there, and is in one session only. -/
structure Mirrors (files : Files V) (live : Live V) (idx : Name → Option (String × Name)) :
    Prop where
  distinct : files.Distinct
  get : ∀ path, files.get path = expected live idx (fileOf path)
  hasProject : ∀ s v, live (.session s) = some v → truthy (Document.projectID v) ≠ none
  unique : ∀ s m, live (.message s m) ≠ none → Alone live s m
  indexed : ∀ m scope, idx m = some scope → scope.1 ≠ "" ∧ live (.message scope.2 m) ≠ none
  unindexed : ∀ m, idx m = none → ∀ p, live (.part m p) = none
  canonical : ∀ path, live (.plain path) ≠ none →
    keyOf path = .plain path ∧ path.head? ≠ some .index

/-! ### What each change keeps -/

section Changes

variable {files : Files V} {live : Live V} {idx : Name → Option (String × Name)} {s m p : Name}
  {v : V} {path : Path}

omit [Document V] in
theorem Live.ne_none_of_write {key key' : Key} (h : live.write key v key' ≠ none) :
    key' = key ∨ live key' ≠ none := by
  rcases eq_or_ne key' key with heq | hne
  · exact Or.inl heq
  · rw [Live.write, Function.update_of_ne hne] at h
    exact Or.inr h

/-- **A value that is written** keeps what is not about the files. -/
theorem Mirrors.more (h : Mirrors files live idx) {files' : Files V} {key : Key}
    (hdistinct : files'.Distinct)
    (hget : ∀ path, files'.get path = expected (live.write key v) idx (fileOf path))
    (hproject : ∀ s, key = .session s → truthy (Document.projectID v) ≠ none)
    (hunique : ∀ s m, key = .message s m → Alone live s m)
    (hindexed : ∀ m p, key = .part m p → idx m ≠ none)
    (hcanonical : ∀ path, key = .plain path →
      keyOf path = .plain path ∧ path.head? ≠ some .index) :
    Mirrors files' (live.write key v) idx where
  distinct := hdistinct
  get := hget
  hasProject s w hw := by
    rcases eq_or_ne (.session s) key with heq | hne
    · rw [heq, Live.write, Function.update_self] at hw
      obtain rfl := Option.some.inj hw
      exact hproject s heq.symm
    · rw [Live.write, Function.update_of_ne hne] at hw
      exact h.hasProject s w hw
  unique s m hm other hother := by
    rcases Live.ne_none_of_write hm with hs | hm
    · rcases Live.ne_none_of_write hother with heq | hother
      · exact (Key.message.inj (heq.trans hs.symm)).1
      · exact hunique s m hs.symm other hother
    · rcases Live.ne_none_of_write hother with heq | hother
      · exact (hunique other m heq.symm s hm).symm
      · exact h.unique s m hm other hother
  indexed m scope hscope := by
    refine ⟨(h.indexed m scope hscope).1, ?_⟩
    rw [Live.write, Function.update_apply]
    split
    next => exact Option.some_ne_none _
    next => exact (h.indexed m scope hscope).2
  unindexed m hm p := by
    refine (Function.update_of_ne ?_ _ _).trans (h.unindexed m hm p)
    rintro heq
    exact hindexed m p heq.symm hm
  canonical path hpath := by
    rcases Live.ne_none_of_write hpath with heq | hpath
    · exact hcanonical path heq.symm
    · exact h.canonical path hpath

theorem Mirrors.writeSession (h : Mirrors files live idx) {projectID : String}
    (hproject : truthy (Document.projectID v) = some projectID) :
    Mirrors ((files.put (sessionInfoPath s) (.data v)).put (sessionIndexPath s)
        (.sessionIndex projectID (Document.parentID v)))
      (live.write (.session s) v) idx := by
  refine h.more h.distinct.put.put (fun path => ?_) (fun _ _ => ?_) nofun nofun nofun
  · rw [get_put_of fileOf_sessionIndexPath, get_put_of fileOf_sessionInfoPath, h.get]
    generalize fileOf path = file
    cases file with
    | sessionInfo t => by_cases hst : t = s <;> simp [expected, Live.write, hst]
    | sessionIndex t => by_cases hst : t = s <;> simp [expected, Live.write, hst, hproject]
    | messageInfo t m | part t m p | messageIndex m | plain path => simp [expected, Live.write]
  · rw [hproject]
    exact Option.some_ne_none _

theorem Mirrors.writeMessage (h : Mirrors files live idx) (halone : Alone live s m) :
    Mirrors (files.put (messageInfoPath s m) (.data v)) (live.write (.message s m) v) idx := by
  refine h.more h.distinct.put (fun path => ?_) nofun (fun t n heq => ?_) nofun nofun
  · rw [get_put_of fileOf_messageInfoPath, h.get]
    generalize fileOf path = file
    cases file with
    | messageInfo t n =>
      by_cases hsm : t = s ∧ n = m
      · obtain ⟨rfl, rfl⟩ := hsm
        simp [expected, Live.write]
      · have hne : Key.message t n ≠ .message s m := by simpa using hsm
        rw [expected, expected, Live.write, Function.update_of_ne hne, if_neg (by simpa using hsm)]
    | sessionInfo t | sessionIndex t | part t n p | messageIndex n | plain path =>
      simp [expected, Live.write]
  · obtain ⟨rfl, rfl⟩ := Key.message.inj heq
    exact halone

theorem Mirrors.writeIndex (h : Mirrors files live idx) {projectID : String}
    (hproject : projectID ≠ "") (hlive : live (.message s m) ≠ none)
    (hsame : ∀ scope, idx m = some scope → scope.2 = s) :
    Mirrors (files.put (messageIndexPath m) (.messageIndex projectID s)) live
      (Function.update idx m (some (projectID, s))) where
  distinct := h.distinct.put
  get path := by
    rw [get_put_of fileOf_messageIndexPath, h.get]
    generalize fileOf path = file
    cases file with
    | messageIndex n => by_cases hnm : n = m <;> simp [expected, hnm]
    | part t n p =>
      by_cases hnm : n = m
      · subst hnm
        cases hidx : idx n with
        | none => simp [expected, hidx, h.unindexed n hidx p]
        | some scope => simp [expected, hidx, hsame scope hidx]
      · rw [expected, expected, Function.update_of_ne hnm, if_neg (by simp)]
    | sessionInfo t | sessionIndex t | messageInfo t n | plain path => simp [expected]
  hasProject := h.hasProject
  unique := h.unique
  indexed n scope hscope := by
    by_cases hnm : n = m
    · rw [hnm, Function.update_self] at hscope
      obtain rfl := Option.some.inj hscope
      rw [hnm]
      exact ⟨hproject, hlive⟩
    · rw [Function.update_of_ne hnm] at hscope
      exact h.indexed n scope hscope
  unindexed n hn p := by
    by_cases hnm : n = m
    · rw [hnm, Function.update_self] at hn
      cases hn
    · rw [Function.update_of_ne hnm] at hn
      exact h.unindexed n hn p
  canonical := h.canonical

theorem Mirrors.writePart (h : Mirrors files live idx) {scope : String × Name}
    (hscope : idx m = some scope) :
    Mirrors (files.put (partPath scope.2 m p) (.data v)) (live.write (.part m p) v) idx := by
  refine h.more h.distinct.put (fun path => ?_) nofun nofun (fun n q heq => ?_) nofun
  · rw [get_put_of fileOf_partPath, h.get]
    generalize fileOf path = file
    cases file with
    | part t n q =>
      by_cases hpart : n = m ∧ q = p
      · obtain ⟨rfl, rfl⟩ := hpart
        by_cases ht : t = scope.2
        · simp [expected, Live.write, hscope, ht]
        · simp [expected, hscope, ht, Ne.symm ht]
      · have hne : Key.part n q ≠ .part m p := by simpa using hpart
        rw [expected, expected, Live.write, Function.update_of_ne hne,
          if_neg fun heq => hpart (by simpa using (File.part.inj heq).2)]
    | sessionInfo t | sessionIndex t | messageInfo t n | messageIndex n | plain path =>
      simp [expected, Live.write]
  · obtain ⟨rfl, -⟩ := Key.part.inj heq
    rw [hscope]
    exact Option.some_ne_none scope

theorem Mirrors.writePlain (h : Mirrors files live idx) (hkey : keyOf path = .plain path)
    (hindex : path.head? ≠ some .index) :
    Mirrors (files.put path (.data v)) (live.write (.plain path) v) idx := by
  refine h.more h.distinct.put (fun other => ?_) nofun nofun nofun fun other heq => ?_
  · rw [get_put_of (fileOf_of_keyOf hkey hindex), h.get]
    generalize fileOf other = file
    cases file with
    | plain third => by_cases hpath : third = path <;> simp [expected, Live.write, hpath]
    | sessionInfo t | sessionIndex t | messageInfo t n | messageIndex n | part t n q =>
      simp [expected, Live.write]
  · obtain rfl := Key.plain.inj heq
    exact ⟨hkey, hindex⟩

omit [Document V] in
theorem Live.remove_less {removed key : Key} (h : live.remove removed key = some v) :
    live key = some v := by
  obtain ⟨hstays, -⟩ := Live.ne_none_of_remove (h ▸ Option.some_ne_none v)
  rwa [Live.remove_of_stays hstays] at h

/-- **A change of the map that only takes values away** keeps what is not about the files. -/
theorem Mirrors.less (h : Mirrors files live idx) {files' : Files V} {live' : Live V}
    {idx' : Name → Option (String × Name)} (hdistinct : files'.Distinct)
    (hget : ∀ path, files'.get path = expected live' idx' (fileOf path))
    (hless : ∀ key v, live' key = some v → live key = some v)
    (hindexed : ∀ m scope, idx' m = some scope →
      idx m = some scope ∧ live' (.message scope.2 m) ≠ none)
    (hunindexed : ∀ m, idx' m = none → ∀ p, live' (.part m p) = none) :
    Mirrors files' live' idx' where
  distinct := hdistinct
  get := hget
  hasProject s v hv := h.hasProject s v (hless _ v hv)
  unique s m hm other hother := by
    obtain ⟨v, hv⟩ := Option.ne_none_iff_exists'.mp hm
    obtain ⟨w, hw⟩ := Option.ne_none_iff_exists'.mp hother
    refine h.unique s m ?_ other ?_
    · rw [hless _ v hv]
      exact Option.some_ne_none v
    · rw [hless _ w hw]
      exact Option.some_ne_none w
  indexed m scope hscope :=
    ⟨(h.indexed m scope (hindexed m scope hscope).1).1, (hindexed m scope hscope).2⟩
  unindexed := hunindexed
  canonical path hpath := by
    obtain ⟨v, hv⟩ := Option.ne_none_iff_exists'.mp hpath
    refine h.canonical path ?_
    rw [hless _ v hv]
    exact Option.some_ne_none v

theorem Mirrors.plain_eq_none (h : Mirrors files live idx) {dir : Name}
    (hdir : dir = .session ∨ dir = .message) (hbelow : Files.Below [dir, s] path) :
    live (.plain path) = none := by
  by_contra hlive
  obtain ⟨hkey, -⟩ := h.canonical path hlive
  obtain ⟨name, rest, rfl⟩ := Files.below_iff.mp hbelow
  rcases hdir with rfl | rfl
  · simp [keyOf] at hkey
  · simp [keyOf, message_ne_session] at hkey

theorem Mirrors.removeMessage (h : Mirrors files live idx) (halone : Alone live s m) :
    Mirrors ((files.dropBelow [.session, s, .messages, m]).drop (messageIndexPath m))
      (live.remove (.message s m)) (Function.update idx m none) := by
  refine h.less h.distinct.dropBelow.drop (fun path => ?_) (fun key v => Live.remove_less)
    (fun n scope hscope => ?_) fun n hn p => ?_
  · rw [get_drop_of fileOf_messageIndexPath, Files.get_dropBelow, h.get]
    have hpath : (fileOf path).path = path := path_fileOf
    cases hfile : fileOf path with
    | sessionInfo t =>
      rw [hfile] at hpath
      simp [← hpath, File.path, sessionInfoPath, Files.Below, expected, Live.remove, Live.goesWith]
    | messageInfo t n =>
      rw [hfile] at hpath
      by_cases hsm : s = t ∧ m = n
      · obtain ⟨rfl, rfl⟩ := hsm
        simp [← hpath, File.path, messageInfoPath, Files.Below, expected, Live.remove,
          Live.goesWith]
      · simp [← hpath, File.path, messageInfoPath, Files.Below, expected, Live.remove,
          Live.goesWith, hsm]
    | part t n p =>
      rw [hfile] at hpath
      by_cases hnm : m = n
      · subst hnm
        by_cases hst : s = t
        · simp [← hpath, File.path, partPath, Files.Below, expected, hst]
        · have hidx : (idx m).map Prod.snd ≠ some t := by
            intro hidx
            obtain ⟨scope, hscope, rfl⟩ := Option.map_eq_some_iff.mp hidx
            exact hst (halone _ (h.indexed m scope hscope).2).symm
          simp [← hpath, File.path, partPath, Files.Below, expected, hst, hidx]
      · have hupdate : Function.update idx m none n = idx n :=
          Function.update_of_ne (Ne.symm hnm) ..
        rw [expected, expected, hupdate]
        simp [← hpath, File.path, partPath, Files.Below, hnm, Live.remove, Live.goesWith]
    | sessionIndex t =>
      rw [hfile] at hpath
      simp [← hpath, File.path, sessionIndexPath, Files.Below, expected, Live.remove,
        Live.goesWith, index_ne_session.symm]
    | messageIndex n =>
      rw [hfile] at hpath
      by_cases hnm : n = m
      · simp [expected, hnm]
      · simp [← hpath, File.path, messageIndexPath, Files.Below, expected, hnm,
          index_ne_session.symm]
    | plain other =>
      rw [hfile] at hpath
      obtain rfl : other = path := hpath
      have hplain : Files.Below [.session, s, .messages, m] other → live (.plain other) = none := by
        intro hbelow
        refine h.plain_eq_none (s := s) (Or.inl rfl) ?_
        obtain ⟨name, rest, rfl⟩ := Files.below_iff.mp hbelow
        exact Files.below_iff.mpr ⟨.messages, m :: name :: rest, rfl⟩
      rw [if_neg (by simp), expected, expected, Live.remove_of_stays (by simp [Live.goesWith])]
      split
      next hbelow => rw [hplain hbelow, Option.map_none]
      next => rfl
  · by_cases hnm : n = m
    · rw [hnm, Function.update_self] at hscope
      cases hscope
    · rw [Function.update_of_ne hnm] at hscope
      refine ⟨hscope, ?_⟩
      rw [Live.remove_of_stays (by simp [Live.goesWith, Ne.symm hnm])]
      exact (h.indexed n scope hscope).2
  · by_cases hnm : n = m
    · exact Live.remove_of_goes (Or.inr (Or.inl ⟨s, by rw [hnm]⟩))
    · rw [Function.update_of_ne hnm] at hn
      rw [Live.remove_of_stays (by simp [Live.goesWith, Ne.symm hnm])]
      exact h.unindexed n hn p

def withoutSession (s : Name) (idx : Name → Option (String × Name)) (m : Name) :
    Option (String × Name) :=
  if (idx m).map Prod.snd = some s then none else idx m

omit [Document V] in
theorem withoutSession_eq_some {scope : String × Name} :
    withoutSession s idx m = some scope ↔ idx m = some scope ∧ scope.2 ≠ s := by
  rw [withoutSession]
  split
  next h =>
    refine iff_of_false (by rintro ⟨⟩) ?_
    rintro ⟨hscope, hne⟩
    rw [hscope] at h
    exact hne (Option.some.inj h)
  next h =>
    refine ⟨fun hscope => ⟨hscope, fun hs => h ?_⟩, And.left⟩
    rw [hscope, ← hs]
    rfl

def unlinked (s : Name) (files : Files V) : Entry → Files V
  | .dir _ => files
  | .file m => if (files.get (messageIndexPath m)).bind Content.sessionID = some s then
      files.drop (messageIndexPath m) else files

theorem distinct_unlinked (hdistinct : files.Distinct) (entries : List Entry) :
    (entries.foldl (unlinked s) files).Distinct := by
  induction entries generalizing files with
  | nil => exact hdistinct
  | cons entry entries ih =>
    refine ih ?_
    cases entry with
    | dir => exact hdistinct
    | file m =>
      rw [unlinked]
      split
      next => exact hdistinct.drop
      next => exact hdistinct

open Classical in
theorem get_unlinked (entries : List Entry) :
    (entries.foldl (unlinked s) files).get path =
      if (∃ m, Entry.file m ∈ entries ∧ path = messageIndexPath m) ∧
          (files.get path).bind Content.sessionID = some s then none
      else files.get path := by
  induction entries generalizing files with
  | nil => simp
  | cons entry entries ih =>
    rw [List.foldl_cons, ih]
    cases entry with
    | dir n => simp [unlinked]
    | file n =>
      rw [unlinked]
      by_cases hpath : path = messageIndexPath n
      · subst hpath
        by_cases hsession : (files.get (messageIndexPath n)).bind Content.sessionID = some s
        · simp [hsession, Files.get_drop]
        · simp [hsession]
      · have hsame : (if (files.get (messageIndexPath n)).bind Content.sessionID = some s then
            files.drop (messageIndexPath n) else files).get path = files.get path := by
          split
          next => rw [Files.get_drop, if_neg hpath]
          next => rfl
        rw [hsame]
        simp [hpath]

open Classical in
theorem get_unlinked_entries :
    ((files.entries [.index, .message]).foldl (unlinked s) files).get path =
      if (∃ m, path = messageIndexPath m) ∧
          (files.get path).bind Content.sessionID = some s then none
      else files.get path := by
  rw [get_unlinked]
  refine if_congr (and_congr_left fun hsession => exists_congr fun m => ?_) rfl rfl
  refine and_iff_right_of_imp fun hpath => Files.mem_entries_file.mpr fun hnone => ?_
  have hget : files.get path = none := hpath ▸ hnone
  rw [hget] at hsession
  cases hsession

theorem Mirrors.removeSession (h : Mirrors files live idx) {files' : Files V}
    (hfiles' : files' = ((files.dropBelow [.session, s]).drop (sessionIndexPath s)).dropBelow
      [.message, s]) :
    Mirrors ((files'.entries [.index, .message]).foldl (unlinked s) files')
      (live.remove (.session s)) (withoutSession s idx) := by
  have hdistinct : files'.Distinct := hfiles' ▸ h.distinct.dropBelow.drop.dropBelow
  have hget' : ∀ path, files'.get path =
      if Files.Below [.message, s] path then none
      else if fileOf path = .sessionIndex s then none
      else if Files.Below [.session, s] path then none else expected live idx (fileOf path) := by
    intro path
    rw [hfiles', Files.get_dropBelow, get_drop_of fileOf_sessionIndexPath, Files.get_dropBelow,
      h.get]
  refine h.less (distinct_unlinked hdistinct _) (fun path => ?_) (fun key v => Live.remove_less)
    (fun n scope hscope => ?_) fun n hn p => ?_
  · rw [get_unlinked_entries, hget']
    have hpath : (fileOf path).path = path := path_fileOf
    cases hfile : fileOf path with
    | sessionInfo t =>
      rw [hfile] at hpath
      by_cases hst : s = t
      · subst hst
        simp [← hpath, File.path, sessionInfoPath, Files.Below, expected, Live.remove,
          Live.goesWith]
      · simp [← hpath, File.path, sessionInfoPath, messageIndexPath, Files.Below, expected,
          Live.remove, Live.goesWith, hst, message_ne_session, index_ne_session.symm]
    | messageInfo t n =>
      rw [hfile] at hpath
      by_cases hst : s = t
      · subst hst
        simp [← hpath, File.path, messageInfoPath, Files.Below, expected, Live.remove,
          Live.goesWith]
      · simp [← hpath, File.path, messageInfoPath, messageIndexPath, Files.Below, expected,
          Live.remove, Live.goesWith, hst, message_ne_session]
    | part t n p =>
      rw [hfile] at hpath
      have hnot : ¬∃ m, path = messageIndexPath m := by
        simp [← hpath, File.path, partPath, messageIndexPath]
      rw [if_neg fun hindex => hnot hindex.1, if_neg (by
        simp [← hpath, File.path, partPath, Files.Below, message_ne_session]), if_neg (by simp)]
      by_cases hst : s = t
      · subst hst
        have hnone : (withoutSession s idx n).map Prod.snd ≠ some s := by
          intro hsome
          obtain ⟨scope, hscope, hs⟩ := Option.map_eq_some_iff.mp hsome
          exact (withoutSession_eq_some.mp hscope).2 hs
        rw [if_pos (by simp [← hpath, File.path, partPath, Files.Below]), expected, if_neg hnone]
      · rw [if_neg (by simp [← hpath, File.path, partPath, Files.Below, hst]), expected, expected]
        by_cases hidx : (idx n).map Prod.snd = some t
        · obtain ⟨scope, hscope, rfl⟩ := Option.map_eq_some_iff.mp hidx
          have hstays : ¬live.goesWith (.session s) (.part n p) := by
            simp only [Live.goesWith, reduceCtorEq, false_or, exists_false, Key.session.injEq]
            rintro ⟨_, rfl, hmessage⟩
            exact hst (h.unique _ n (h.indexed n scope hscope).2 _ hmessage)
          rw [withoutSession_eq_some.mpr ⟨hscope, Ne.symm hst⟩, hscope,
            Live.remove_of_stays hstays]
        · have hother : (withoutSession s idx n).map Prod.snd ≠ some t := by
            intro hsome
            obtain ⟨scope, hscope, ht⟩ := Option.map_eq_some_iff.mp hsome
            rw [(withoutSession_eq_some.mp hscope).1, Option.map_some, ht] at hidx
            exact hidx rfl
          rw [if_neg hidx, if_neg hother]
    | sessionIndex t =>
      rw [hfile] at hpath
      by_cases hst : s = t
      · subst hst
        simp [← hpath, File.path, sessionIndexPath, Files.Below, expected, Live.remove,
          Live.goesWith]
      · simp [← hpath, File.path, sessionIndexPath, messageIndexPath, Files.Below, expected,
          Live.remove, Live.goesWith, hst, Ne.symm hst, message_ne_session.symm,
          index_ne_message.symm, index_ne_session.symm]
    | messageIndex n =>
      rw [hfile] at hpath
      obtain rfl : messageIndexPath n = path := hpath
      have hmessage : ¬Files.Below [.message, s] (messageIndexPath n) := by
        simp [messageIndexPath, Files.Below, index_ne_message.symm]
      have hsession : ¬Files.Below [.session, s] (messageIndexPath n) := by
        simp [messageIndexPath, Files.Below, index_ne_session.symm]
      rw [if_neg hmessage, if_neg (c := File.messageIndex n = _) (by simp), if_neg hsession]
      cases hidx : idx n with
      | none => simp [expected, withoutSession, hidx]
      | some scope =>
        by_cases hs : scope.2 = s
        · simp [expected, withoutSession, hidx, hs, Content.sessionID]
        · simp [expected, withoutSession, hidx, hs, Content.sessionID]
    | plain other =>
      rw [hfile] at hpath
      obtain rfl : other = path := hpath
      have hnot : ¬∃ m, other = messageIndexPath m := by
        rintro ⟨m, rfl⟩
        cases hfile
      rw [if_neg fun hindex => hnot hindex.1, if_neg (c := File.plain other = _) (by simp),
        expected, expected, Live.remove_of_stays (by simp [Live.goesWith])]
      split
      next hbelow => rw [h.plain_eq_none (Or.inr rfl) hbelow, Option.map_none]
      next =>
        split
        next hbelow => rw [h.plain_eq_none (Or.inl rfl) hbelow, Option.map_none]
        next => rfl
  · obtain ⟨hscope, hne⟩ := withoutSession_eq_some.mp hscope
    refine ⟨hscope, ?_⟩
    rw [Live.remove_of_stays (by simp [Live.goesWith, Ne.symm hne])]
    exact (h.indexed n scope hscope).2
  · cases hidx : idx n with
    | none =>
      by_contra hlive
      exact (Live.ne_none_of_remove hlive).2 (h.unindexed n hidx p)
    | some scope =>
      obtain rfl : scope.2 = s := by
        by_contra hne
        rw [withoutSession_eq_some.mpr ⟨hidx, hne⟩] at hn
        cases hn
      exact Live.remove_of_goes (Or.inr (Or.inr ⟨_, rfl, (h.indexed n scope hidx).2⟩))

theorem Mirrors.removePart (h : Mirrors files live idx) {scope : String × Name}
    (hscope : idx m = some scope) :
    Mirrors (files.drop (partPath scope.2 m p)) (live.remove (.part m p)) idx := by
  refine h.less h.distinct.drop (fun path => ?_) (fun key v => Live.remove_less)
    (fun n scope' hscope' => ⟨hscope', ?_⟩) fun n hn q => ?_
  · rw [get_drop_of fileOf_partPath, h.get]
    generalize fileOf path = file
    cases file with
    | part t n q =>
      by_cases hpart : m = n ∧ p = q
      · obtain ⟨rfl, rfl⟩ := hpart
        by_cases ht : t = scope.2
        · simp [expected, Live.remove, Live.goesWith, hscope, ht]
        · simp [expected, hscope, ht, Ne.symm ht]
      · rw [if_neg fun heq => hpart ⟨(File.part.inj heq).2.1.symm, (File.part.inj heq).2.2.symm⟩,
          expected, expected, Live.remove_of_stays (by simpa [Live.goesWith] using hpart)]
    | sessionInfo t | sessionIndex t | messageInfo t n =>
      simp [expected, Live.remove, Live.goesWith]
    | messageIndex n => simp [expected]
    | plain path => simp [expected, Live.remove, Live.goesWith]
  · rw [Live.remove_of_stays (by simp [Live.goesWith])]
    exact (h.indexed n scope' hscope').2
  · by_contra hlive
    exact (Live.ne_none_of_remove hlive).2 (h.unindexed n hn q)

theorem Mirrors.removeNothing (h : Mirrors files live idx) {key : Key}
    (hpath : files.get path = none) (hkey : live key = none)
    (halone : ∀ other, live.goesWith key other → other = key) :
    Mirrors (files.drop path) (live.remove key) idx := by
  have hlive : live.remove key = live := by
    funext other
    by_cases hgoes : live.goesWith key other
    · rw [Live.remove_of_goes hgoes, halone other hgoes, hkey]
    · exact Live.remove_of_stays hgoes
  rw [hlive]
  refine { h with distinct := h.distinct.drop, get := fun other => ?_ }
  rw [Files.get_drop, ← h.get]
  split
  next heq => rw [heq, hpath]
  next => rfl

theorem Mirrors.removePlain (h : Mirrors files live idx) (hfile : fileOf path = .plain path) :
    Mirrors (files.drop path) (live.remove (.plain path)) idx := by
  refine h.less h.distinct.drop (fun other => ?_) (fun key v => Live.remove_less)
    (fun n scope hscope => ⟨hscope, ?_⟩) fun n hn q => ?_
  · rw [get_drop_of hfile, h.get]
    generalize fileOf other = file
    cases file with
    | plain third =>
      by_cases hthird : path = third
      · simp [expected, Live.remove, Live.goesWith, hthird]
      · simp [expected, Live.remove, Live.goesWith, hthird, Ne.symm hthird]
    | sessionInfo t | sessionIndex t | messageInfo t n =>
      simp [expected, Live.remove, Live.goesWith]
    | messageIndex n => simp [expected]
    | part t n q => simp [expected, Live.remove, Live.goesWith]
  · rw [Live.remove_of_stays (by simp [Live.goesWith])]
    exact (h.indexed n scope hscope).2
  · by_contra hlive
    exact (Live.ne_none_of_remove hlive).2 (h.unindexed n hn q)

end Changes

end OpenCms.Storage
