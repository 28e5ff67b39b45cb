import OpenCms.Storage.Layout
import OpenCms.Storage.Migrations

/-!
# What the migrations write

The migrations that bring the sessions together remove nothing: wherever they are stopped, they have
only written files, and each of them when something else was there already. `OpenCms.Storage.Adds`
is a run of such writes, and says what is written by what is allowed; so what a migration leaves
alone, and what it has brought about at its end, is read off once for all of them.
-/

namespace OpenCms.Storage

variable {V : Type}

/-! ### Writes -/

def File.IsIndex : File → Prop
  | sessionIndex _ => True
  | messageIndex _ => True
  | _ => False

/-- Files are written, each of them allowed by what is there. -/
inductive Adds (A : Files V → File → Content V → Prop) (files : Files V) : Files V → Prop
  | refl : Adds A files files
  | put {t : Files V} {file : File} {c : Content V} (h : Adds A files t)
      (hallowed : A t file c) : Adds A files (t.put file.path c)

/-- **What is allowed is careful**: only files of the new layout are written, none but those of the
indexes is written over, and a message is written only when its session is there. -/
structure Careful (A : Files V → File → Content V → Prop) : Prop where
  plain : ∀ t path c, ¬A t (.plain path) c
  fresh : ∀ t file c, A t file c → file.IsIndex ∨ t.get file.path = none
  headed : ∀ t s m c, A t (.messageInfo s m) c → t.get (sessionInfoPath s) ≠ none

def Headed (files : Files V) : Prop :=
  ∀ s m, files.get (messageInfoPath s m) ≠ none → files.get (sessionInfoPath s) ≠ none

section Adds

variable {A A' : Files V → File → Content V → Prop} {s t u : Files V} {path : Path}
  {file : File} {c : Content V}

theorem fileOf_path (h : ∀ path, file ≠ .plain path) : fileOf file.path = file := by
  cases file with
  | sessionInfo s => exact fileOf_sessionInfoPath
  | messageInfo s m => exact fileOf_messageInfoPath
  | part s m p => exact fileOf_partPath
  | sessionIndex s => exact fileOf_sessionIndexPath
  | messageIndex m => exact fileOf_messageIndexPath
  | plain path => exact absurd rfl (h path)

theorem head_of_isIndex (h : (fileOf path).IsIndex) : ∃ rest, path = .index :: rest := by
  have heq : (fileOf path).path = path := path_fileOf
  cases hfile : fileOf path with
  | sessionIndex s | messageIndex m =>
    rw [hfile] at heq
    exact ⟨_, heq.symm⟩
  | sessionInfo s | messageInfo s m | part s m q | plain path =>
    rw [hfile] at h
    exact h.elim

theorem Adds.trans (h : Adds A s t) (h' : Adds A t u) : Adds A s u := by
  induction h' with
  | refl => exact h
  | put _ hallowed ih => exact ih.put hallowed

theorem Adds.mono (himp : ∀ t file c, A t file c → A' t file c)
    (h : Adds A s t) : Adds A' s t := by
  induction h with
  | refl => exact .refl
  | put _ hallowed ih => exact ih.put (himp _ _ _ hallowed)

theorem Adds.distinct (h : Adds A s t) (hs : s.Distinct) : t.Distinct := by
  induction h with
  | refl => exact hs
  | put _ _ ih => exact ih.put

theorem Adds.single (file : File) (h : A s file c) : Adds A s (s.put file.path c) := Adds.refl.put h

variable (hcareful : Careful A)

include hcareful

theorem Careful.get_put (h : A t file c) :
    (t.put file.path c).get path = if fileOf path = file then some c else t.get path :=
  get_put_of (fileOf_path fun path heq => hcareful.plain t path c (heq ▸ h))

theorem Adds.get_ne_none (h : Adds A s t) (hpath : s.get path ≠ none) :
    t.get path ≠ none := by
  induction h with
  | refl => exact hpath
  | put _ hallowed ih =>
    rw [hcareful.get_put hallowed]
    split
    next => exact Option.some_ne_none _
    next => exact ih

theorem Adds.mem_entries {dir : Path} {e : Entry} (h : Adds A s t)
    (he : e ∈ s.entries dir) : e ∈ t.entries dir := by
  cases e with
  | file name =>
    exact Files.mem_entries_file.mpr (h.get_ne_none hcareful (Files.mem_entries_file.mp he))
  | dir name =>
    obtain ⟨second, rest, hget⟩ := Files.mem_entries_dir.mp he
    exact Files.mem_entries_dir.mpr ⟨second, rest, h.get_ne_none hcareful hget⟩

theorem Adds.entries_eq {domain : Name} {dir : Path} (hsession : domain ≠ .session)
    (hindex : domain ≠ .index) (h : Adds A s t) :
    t.entries (domain :: dir) = s.entries (domain :: dir) := by
  induction h with
  | refl => rfl
  | @put t file c _ hallowed ih =>
    rw [Files.entries_put, ih]
    rintro ⟨hstart, -⟩
    have hfile : ∃ name rest, file.path = name :: rest ∧ (name = .session ∨ name = .index) := by
      cases file with
      | plain path => exact absurd hallowed (hcareful.plain _ _ _)
      | sessionInfo s | messageInfo s m | part s m q => exact ⟨_, _, rfl, .inl rfl⟩
      | sessionIndex s => exact ⟨_, _, rfl, .inr rfl⟩
      | messageIndex m => exact ⟨_, _, rfl, .inr rfl⟩
    obtain ⟨name, rest, hpath, hname⟩ := hfile
    rw [hpath] at hstart
    obtain rfl := (List.cons_prefix_cons.mp hstart).1
    rcases hname with rfl | rfl
    · exact hsession rfl
    · exact hindex rfl

theorem Adds.get_eq (h : Adds A s t) (hindex : ¬(fileOf path).IsIndex)
    (hpath : s.get path = some c) : t.get path = some c := by
  induction h with
  | refl => exact hpath
  | @put t file c' _ hallowed ih =>
    rw [hcareful.get_put hallowed, if_neg ?_]
    · exact ih
    · rintro rfl
      have hfresh := (hcareful.fresh _ _ _ hallowed).resolve_left hindex
      rw [path_fileOf, ih] at hfresh
      cases hfresh

theorem Adds.headed (h : Adds A s t) (hs : Headed s) : Headed t := by
  induction h with
  | refl => exact hs
  | put _ hallowed ih =>
    intro sid m hmessage
    have hput := Adds.single _ hallowed
    rw [hcareful.get_put hallowed] at hmessage
    split at hmessage
    next heq =>
      subst heq
      exact hput.get_ne_none hcareful (hcareful.headed _ _ _ _ hallowed)
    next => exact hput.get_ne_none hcareful (ih sid m hmessage)

theorem Adds.get_of_not (h : Adds A s t)
    (hpath : ∀ t c, Adds A s t → ¬A t (fileOf path) c) : t.get path = s.get path := by
  induction h with
  | refl => rfl
  | @put t file c h hallowed ih =>
    rw [hcareful.get_put hallowed, if_neg, ih]
    rintro rfl
    exact hpath t c h hallowed

theorem Adds.get_plain (h : Adds A s t) (hplain : fileOf path = .plain path) :
    t.get path = s.get path :=
  h.get_of_not hcareful fun u c _ hallowed => hcareful.plain u path c (hplain ▸ hallowed)

end Adds

/-! ### Where programs are stopped -/

section Stops

open Proc

variable {β : Type} {s t : Files V} {path : Path} {c : Content V}

@[simp] theorem stops_readJSON {f : Option (Content V) → Program V β} :
    Stops handle ((readJSON path).bind f) s t ↔ Stops handle (f (s.get path)) s t :=
  stops_ask_bind rfl

@[simp] theorem stops_fileExists {f : Bool → Program V β} :
    Stops handle ((fileExists path).bind f) s t ↔ Stops handle (f (s.get path).isSome) s t :=
  stops_ask_bind rfl

@[simp] theorem stops_mkdir {f : Unit → Program V β} :
    Stops handle ((mkdir path).bind f) s t ↔ Stops handle (f ()) s t := stops_ask_bind rfl

@[simp] theorem stops_readdir {f : List Entry → Program V β} :
    Stops handle ((readdir path).bind f) s t ↔ Stops handle (f (s.entries path)) s t :=
  stops_ask_bind rfl

@[simp] theorem stops_scan {f : List Path → Program V β} :
    Stops handle ((scan path).bind f) s t ↔ Stops handle (f (s.below path)) s t :=
  stops_ask_bind rfl

@[simp] theorem stops_writeFile :
    Stops handle (writeFile path c) s t ↔ t = s ∨ t = s.put path c := Iff.rfl

@[simp] theorem stops_writeFile_bind {f : Unit → Program V β} :
    Stops handle ((writeFile path c).bind f) s t ↔ t = s ∨ Stops handle (f ()) (s.put path c) t :=
  Iff.rfl

theorem stops_beside {α : Type} {x : Program V α} :
    Stops handleMigration (x.beside : Migration V α) s t ↔ Stops handle x s t :=
  stops_beside_either

theorem run_beside {α : Type} {x : Program V α} :
    (x.beside : Migration V α).run handleMigration s = x.run handle s := run_beside_either

theorem stops_readdir_beside {β : Type} {dir : Path} {f : List Entry → Migration V β} :
    Stops handleMigration ((readdir dir).beside.bind f) s t ↔
      Stops handleMigration (f (s.entries dir)) s t := by
  refine stops_beside_bind.trans ⟨?_, Or.inr⟩
  rintro ((rfl | rfl) | h)
  · exact stops_self _ _
  · exact stops_self _ _
  · exact h

end Stops

/-! ### Programs that write -/

section Programs

variable {α β : Type} {A : Files V → File → Content V → Prop} {s t : Files V}
  {f : α → Program V β} {as : List α}

theorem adds_each (h : ∀ a ∈ as, ∀ u, Adds A s u → ∀ t, Proc.Stops handle (f a) u t →
      Adds A u t) (ht : Proc.Stops handle (Proc.each f as) s t) : Adds A s t :=
  Proc.stops_each (Adds A s) (fun a ha u hu t ht => hu.trans (h a ha u hu t ht)) .refl ht

/-- What one element brings about holds in the end, if it is kept by all writes. -/
theorem goal_run_each {a : α} (goal : Files V → Prop) (ha : a ∈ as)
    (h : ∀ a ∈ as, ∀ u, Adds A s u → ∀ t, Proc.Stops handle (f a) u t → Adds A u t)
    (hgoal : ∀ u, Adds A s u → goal ((f a).run handle u).2)
    (hkeep : ∀ u v, Adds A u v → goal u → goal v) :
    goal ((Proc.each f as).run handle s).2 :=
  Proc.run_each_of_mem (Adds A s) goal ha
    (fun a ha u hu => hu.trans (h a ha u hu _ (Proc.stops_run _ _))) hgoal
    (fun b hb u hu => hkeep u _ (h b hb u hu _ (Proc.stops_run _ _))) Adds.refl

end Programs

/-! ### One directory for each session -/

/-- What is copied when the directories of some projects are gone through: what is missing, of the
sessions in them. -/
def Copied (P : Name → Prop) (t : Files V) : File → Content V → Prop
  | .sessionInfo s, c =>
    t.get (sessionInfoPath s) = none ∧ ∃ p, P p ∧ t.get [.session, p, s] = some c
  | .messageInfo s m, c =>
    t.get (messageInfoPath s m) = none ∧ t.get (sessionInfoPath s) ≠ none ∧
      t.get [.message, s, m] = some c
  | .part s m q, c =>
    t.get (partPath s m q) = none ∧ t.get (sessionInfoPath s) ≠ none ∧
      (∃ p, P p ∧ t.get [.session, p, s] ≠ none) ∧ t.get [.part, m, q] = some c
  | .sessionIndex s, _ =>
    t.get (sessionInfoPath s) ≠ none ∧ ∃ p, P p ∧ t.get [.session, p, s] ≠ none
  | .messageIndex _, _ => ∃ s, t.get (sessionInfoPath s) ≠ none
  | .plain _, _ => False

theorem careful_copied {P : Name → Prop} : Careful (Copied (V := V) P) where
  plain _ _ _ h := h
  fresh t file c h := by
    cases file with
    | sessionInfo s | messageInfo s m | part s m q => exact .inr h.1
    | sessionIndex s => exact .inl trivial
    | messageIndex m => exact .inl trivial
    | plain path => exact h.elim
  headed _ _ _ _ h := h.2.1

section Copying

variable {P : Name → Prop} {s t : Files V} {source target : Path} {p sid m q : Name}
  {c : Content V} {e : Entry}

/-- **A copy is made or not**, and when it is, there was none and something to copy. -/
theorem stops_copyMissing (h : Proc.Stops handle (copyMissing source target) s t) :
    t = s ∨ ∃ c, s.get target = none ∧ s.get source = some c ∧ t = s.put target c := by
  rw [copyMissing, Proc.bind_eq, stops_mkdir, Proc.bind_eq, stops_fileExists] at h
  cases htarget : s.get target with
  | some c =>
    rw [htarget, if_pos (Option.isSome_some)] at h
    exact .inl h
  | none =>
    rw [htarget, if_neg (by simp), Proc.bind_eq, stops_readJSON] at h
    cases hsource : s.get source with
    | none =>
      rw [hsource] at h
      exact .inl h
    | some c =>
      rw [hsource] at h
      exact h.imp_right fun h => ⟨c, rfl, rfl, h⟩

theorem run_copyMissing_of_ne (h : s.get target ≠ none) :
    ((copyMissing source target).run handle s).2 = s := by
  obtain ⟨c, hc⟩ := Option.ne_none_iff_exists'.mp h
  simp [copyMissing, hc]

theorem run_copyMissing_of_eq (h : s.get target = none) (hsource : s.get source = some c) :
    ((copyMissing source target).run handle s).2 = s.put target c := by
  simp [copyMissing, h, hsource]

theorem get_run_copyMissing (target : Path) (h : s.get source ≠ none) :
    ((copyMissing source target).run handle s).2.get target ≠ none := by
  by_cases htarget : s.get target = none
  · obtain ⟨c, hc⟩ := Option.ne_none_iff_exists'.mp h
    rw [run_copyMissing_of_eq htarget hc, Files.get_put, if_pos rfl]
    exact Option.some_ne_none c
  · rw [run_copyMissing_of_ne htarget]
    exact htarget

theorem adds_copyMissing {A : Files V → File → Content V → Prop} (file : File)
    (hallowed : ∀ c, s.get file.path = none → s.get source = some c → A s file c)
    (ht : Proc.Stops handle (copyMissing source file.path) s t) : Adds A s t := by
  obtain rfl | ⟨c, hnone, hsource, rfl⟩ := stops_copyMissing ht
  · exact .refl
  · exact .single file (hallowed c hnone hsource)

theorem adds_unifyPart (hinfo : s.get (sessionInfoPath sid) ≠ none)
    (hsession : ∃ p, P p ∧ s.get [.session, p, sid] ≠ none)
    (ht : Proc.Stops handle (unifyPart sid m e) s t) : Adds (Copied P) s t := by
  cases e with
  | dir name =>
    obtain rfl : t = s := ht
    exact .refl
  | file q =>
    exact adds_copyMissing (.part sid m q)
      (fun c hnone hsource => ⟨hnone, hinfo, hsession, hsource⟩) ht

theorem adds_messageHead (p : Name) (hinfo : s.get (sessionInfoPath sid) ≠ none)
    {first : Files V}
    (hfirst : ((copyMissing [.message, sid, m] (messageInfoPath sid m)).run handle s).2 = first) :
    Adds (Copied P) s first ∧ Adds (Copied P) first
      (first.put (messageIndexPath m) (.messageIndex p.1 sid)) := by
  subst hfirst
  have hcopy := adds_copyMissing (.messageInfo sid m) (A := Copied P)
    (fun c hnone hsource => ⟨hnone, hinfo, hsource⟩) (Proc.stops_run _ _)
  exact ⟨hcopy, .single (.messageIndex m) ⟨sid, hcopy.get_ne_none careful_copied hinfo⟩⟩

theorem adds_unifyMessage (hinfo : s.get (sessionInfoPath sid) ≠ none)
    (hsession : ∃ p, P p ∧ s.get [.session, p, sid] ≠ none)
    (ht : Proc.Stops handle (unifyMessage p sid e) s t) : Adds (Copied P) s t := by
  cases e with
  | dir name =>
    obtain rfl : t = s := ht
    exact .refl
  | file m =>
    obtain ⟨hfirst, hindex⟩ := adds_messageHead (P := P) (m := m) p hinfo rfl
    simp only [unifyMessage, Proc.bind_eq, Proc.pure_eq] at ht
    rw [Proc.stops_bind, stops_writeFile_bind, stops_readdir, Proc.stops_bind_done] at ht
    rcases ht with ht | rfl | ht
    · exact adds_copyMissing (.messageInfo sid m)
        (fun c hnone hsource => ⟨hnone, hinfo, hsource⟩) ht
    · exact hfirst
    · obtain ⟨p', hp', hget⟩ := hsession
      refine (hfirst.trans hindex).trans (adds_each (fun e _ u hu v hv => ?_) ht)
      have hall := (hfirst.trans hindex).trans hu
      exact adds_unifyPart (hall.get_ne_none careful_copied hinfo)
        ⟨p', hp', hall.get_ne_none careful_copied hget⟩ hv

theorem adds_sessionHead (hp : P p) (hget : s.get [.session, p, sid] ≠ none)
    {first : Files V}
    (hfirst : ((copyMissing [.session, p, sid] (sessionInfoPath sid)).run handle s).2 = first) :
    first.get (sessionInfoPath sid) ≠ none ∧ Adds (Copied P) s first ∧
      Adds (Copied P) first (first.put (sessionIndexPath sid) (.sessionIndex p.1 none)) := by
  subst hfirst
  have hcopy := adds_copyMissing (.sessionInfo sid) (s := s) (A := Copied P)
    (fun c hnone hsource => ⟨hnone, p, hp, hsource⟩) (Proc.stops_run _ _)
  have hinfo := get_run_copyMissing (sessionInfoPath sid) hget
  exact ⟨hinfo, hcopy, .single (.sessionIndex sid)
    ⟨hinfo, p, hp, hcopy.get_ne_none careful_copied hget⟩⟩

theorem adds_unifySession (hp : P p) (he : e ∈ s.entries [.session, p])
    (ht : Proc.Stops handle (unifySession p e) s t) : Adds (Copied P) s t := by
  cases e with
  | dir name =>
    obtain rfl : t = s := ht
    exact .refl
  | file sid =>
    have hget : s.get [.session, p, sid] ≠ none := Files.mem_entries_file.mp he
    obtain ⟨hinfo, hfirst, hindex⟩ := adds_sessionHead (P := P) hp hget rfl
    simp only [unifySession, Proc.bind_eq, Proc.pure_eq] at ht
    rw [Proc.stops_bind, stops_writeFile_bind, stops_readdir, Proc.stops_bind_done] at ht
    rcases ht with ht | rfl | ht
    · exact adds_copyMissing (.sessionInfo sid)
        (fun c hnone hsource => ⟨hnone, p, hp, hsource⟩) ht
    · exact hfirst
    · -- From here on the file of the session is in its new place.
      refine (hfirst.trans hindex).trans (adds_each (fun e _ u hu v hv => ?_) ht)
      exact adds_unifyMessage ((hindex.trans hu).get_ne_none careful_copied hinfo)
        ⟨p, hp, ((hfirst.trans hindex).trans hu).get_ne_none careful_copied hget⟩ hv

theorem adds_unifyProject (he : ∀ p, e = .dir p → P p)
    (ht : Proc.Stops handle (unifyProject e) s t) : Adds (Copied P) s t := by
  cases e with
  | file name =>
    obtain rfl : t = s := ht
    exact .refl
  | dir p =>
    simp only [unifyProject, Proc.bind_eq, Proc.pure_eq] at ht
    rw [stops_readdir, Proc.stops_bind_done] at ht
    refine adds_each (fun e he' u hu v hv => ?_) ht
    exact adds_unifySession (he p rfl) (hu.mem_entries careful_copied he') hv

/-- **Wherever the sessions are brought together, it is only copied**, out of the directories that
were there. -/
theorem adds_sessionStorageUnify (ht : Proc.Stops handle sessionStorageUnify s t) :
    Adds (Copied fun p => .dir p ∈ s.entries [.session]) s t := by
  simp only [sessionStorageUnify, Proc.bind_eq, Proc.pure_eq] at ht
  rw [stops_readdir, Proc.stops_bind_done] at ht
  refine adds_each (fun e he u _ v hv => adds_unifyProject ?_ hv) ht
  rintro p rfl
  exact he

/-! ### What is there in the end -/

def MessageMoved (s t : Files V) (sid m : Name) : Prop :=
  t.get (messageInfoPath sid m) ≠ none ∧
    ∀ q, s.get [.part, m, q] ≠ none → t.get (partPath sid m q) ≠ none

/-- A session is in its new place and in the index, and its messages are in their new places. -/
def Moved (s t : Files V) (sid : Name) : Prop :=
  t.get (sessionInfoPath sid) ≠ none ∧ t.get (sessionIndexPath sid) ≠ none ∧
    ∀ m, s.get [.message, sid, m] ≠ none → MessageMoved s t sid m

section Kept

variable {A : Files V → File → Content V → Prop} {u : Files V} (hcareful : Careful A)

include hcareful

theorem MessageMoved.adds (h : MessageMoved s t sid m) (ht : Adds A t u) :
    MessageMoved s u sid m :=
  ⟨ht.get_ne_none hcareful h.1, fun q hq => ht.get_ne_none hcareful (h.2 q hq)⟩

theorem MessageMoved.of_adds (h : MessageMoved s t sid m) (hs : Adds A u s) :
    MessageMoved u t sid m :=
  ⟨h.1, fun q hq => h.2 q (hs.get_ne_none hcareful hq)⟩

theorem Moved.adds (h : Moved s t sid) (ht : Adds A t u) : Moved s u sid :=
  ⟨ht.get_ne_none hcareful h.1, ht.get_ne_none hcareful h.2.1,
    fun m hm => (h.2.2 m hm).adds hcareful ht⟩

theorem Moved.of_adds (h : Moved s t sid) (hs : Adds A u s) : Moved u t sid :=
  ⟨h.1, h.2.1, fun m hm => (h.2.2 m (hs.get_ne_none hcareful hm)).of_adds hcareful hs⟩

end Kept

/-- **A message has been moved when it has been gone through.** -/
theorem moved_unifyMessage (hinfo : s.get (sessionInfoPath sid) ≠ none)
    (hsession : s.get [.session, p, sid] ≠ none) (hget : s.get [.message, sid, m] ≠ none) :
    MessageMoved s ((unifyMessage p sid (.file m)).run handle s).2 sid m := by
  obtain ⟨hfirst, hindex⟩ := adds_messageHead (P := fun p' => p' = p) (m := m) p hinfo rfl
  have hplaced := get_run_copyMissing (messageInfoPath sid m) hget
  simp only [unifyMessage, Proc.bind_eq, Proc.pure_eq, Proc.run_bind, run_writeFile, run_readdir,
    Proc.run_done]
  have hhead := hfirst.trans hindex
  have hparts : ∀ e : Entry, ∀ u, Adds (Copied fun p' => p' = p) _ u → ∀ v,
      Proc.Stops handle (unifyPart sid m e) u v → Adds (Copied fun p' => p' = p) u v :=
    fun e u hu v hv => adds_unifyPart ((hhead.trans hu).get_ne_none careful_copied hinfo)
      ⟨p, rfl, (hhead.trans hu).get_ne_none careful_copied hsession⟩ hv
  have hrest := fun es => adds_each (fun e _ => hparts e) (Proc.stops_run (.each _ es) _)
  refine ⟨(hindex.trans (hrest _)).get_ne_none careful_copied hplaced, fun q hq => ?_⟩
  have hold := hhead.get_ne_none careful_copied hq
  refine goal_run_each (fun t => t.get (partPath sid m q) ≠ none)
    (Files.mem_entries_file.mpr hold) (fun e _ => hparts e) (fun u hu => ?_)
    (fun u v huv => huv.get_ne_none careful_copied)
  exact get_run_copyMissing _ (hu.get_ne_none careful_copied hold)

theorem moved_unifySession (hget : s.get [.session, p, sid] ≠ none) :
    Moved s ((unifySession p (.file sid)).run handle s).2 sid := by
  obtain ⟨hinfo, hfirst, hindex⟩ := adds_sessionHead (P := fun p' => p' = p) rfl hget rfl
  simp only [unifySession, Proc.bind_eq, Proc.pure_eq, Proc.run_bind, run_writeFile, run_readdir,
    Proc.run_done]
  have hhead := hfirst.trans hindex
  have hmessages : ∀ e : Entry, ∀ u, Adds (Copied fun p' => p' = p) _ u → ∀ v,
      Proc.Stops handle (unifyMessage p sid e) u v → Adds (Copied fun p' => p' = p) u v :=
    fun e u hu v hv => adds_unifyMessage ((hindex.trans hu).get_ne_none careful_copied hinfo)
      ⟨p, rfl, (hhead.trans hu).get_ne_none careful_copied hget⟩ hv
  have hrest := fun es => adds_each (fun e _ => hmessages e) (Proc.stops_run (.each _ es) _)
  refine ⟨(hindex.trans (hrest _)).get_ne_none careful_copied hinfo,
    (hrest _).get_ne_none careful_copied ?_, fun m hm => ?_⟩
  · rw [Files.get_put, if_pos rfl]
    exact Option.some_ne_none _
  · have hold := hhead.get_ne_none careful_copied hm
    refine goal_run_each (fun t => MessageMoved s t sid m)
      (Files.mem_entries_file.mpr hold) (fun e _ => hmessages e) (fun u hu => ?_)
      (fun u v huv h => h.adds careful_copied huv)
    refine (moved_unifyMessage ?_ ?_ ?_).of_adds careful_copied (hhead.trans hu)
    · exact (hindex.trans hu).get_ne_none careful_copied hinfo
    · exact (hhead.trans hu).get_ne_none careful_copied hget
    · exact hu.get_ne_none careful_copied hold

theorem moved_unifyProject (hget : s.get [.session, p, sid] ≠ none) :
    Moved s ((unifyProject (.dir p)).run handle s).2 sid := by
  simp only [unifyProject, Proc.bind_eq, Proc.pure_eq, Proc.run_bind, run_readdir, Proc.run_done]
  refine goal_run_each (A := Copied fun p' => p' = p) (fun t => Moved s t sid)
    (Files.mem_entries_file.mpr hget) (fun e he u hu v hv => ?_) (fun u hu => ?_)
    (fun u v huv h => h.adds careful_copied huv)
  · exact adds_unifySession rfl (hu.mem_entries careful_copied he) hv
  · exact (moved_unifySession (hu.get_ne_none careful_copied hget)).of_adds careful_copied hu

/-- **When the sessions have been brought together, every session of a project has been moved.** -/
theorem moved_sessionStorageUnify (hget : s.get [.session, p, sid] ≠ none) :
    Moved s (sessionStorageUnify.run handle s).2 sid := by
  simp only [sessionStorageUnify, Proc.bind_eq, Proc.pure_eq, Proc.run_bind, run_readdir,
    Proc.run_done]
  refine goal_run_each (A := Copied fun _ => True) (fun t => Moved s t sid)
    (Files.mem_entries_dir.mpr ⟨sid, [], hget⟩)
    (fun e _ u _ v hv => adds_unifyProject (fun _ _ => trivial) hv) (fun u hu => ?_)
    (fun u v huv h => h.adds careful_copied huv)
  exact (moved_unifyProject (hu.get_ne_none careful_copied hget)).of_adds careful_copied hu

end Copying

end OpenCms.Storage
