import OpenCms.Storage.Legacy

/-!
# Migrations that are stopped

The process may stop anywhere while the migrations are run. The number of those that have been run
is noted after each of them, so the one that was stopped is run again, on what it has left.
`OpenCms.Storage.survives_iff` says when this comes to the same as if it had not been stopped, and
nothing is lost.

Two places are not safe. The third migration takes every directory among the sessions for a project,
and so it takes the directory of a session that it made itself for one when it is run again. And the
fifth passes over a session that has its file, although it was stopped before it had copied the
messages. Besides, the fifth leaves the parts of the messages that it moves where they are, whether
it is stopped or not.
-/

namespace OpenCms.Storage

variable {V : Type}

/-! ### What has been added -/

/-- **Nothing of the old store is gone, and what is new is of a kind.** -/
structure GrownBy (R : File → Content V → Prop) (files t : Files V) : Prop where
  kept : ∀ path c, files.get path = some c → t.get path = some c
  only : ∀ path c, t.get path = some c → files.get path = some c ∨ R (fileOf path) c

section Grown

variable {files s t : Files V} {A : Files V → File → Content V → Prop}
  {R R' : File → Content V → Prop} {path : Path} {file : File} {c : Content V}

theorem GrownBy.refl : GrownBy R files files := ⟨fun _ _ h => h, fun _ _ h => .inl h⟩

theorem GrownBy.mono (himp : ∀ file c, R file c → R' file c) (h : GrownBy R files t) :
    GrownBy R' files t :=
  ⟨h.kept, fun path c hc => (h.only path c hc).imp_right (himp _ _)⟩

theorem GrownBy.adds (hcareful : Careful A) (hindex : ∀ rest, files.get (.index :: rest) = none)
    (himp : ∀ u, Adds A s u → GrownBy R files u → ∀ file c, A u file c → R file c)
    (h : GrownBy R files s) (ht : Adds A s t) : GrownBy R files t := by
  induction ht with
  | refl => exact h
  | @put u file c hu hallowed ih =>
    refine ⟨fun path c' hc' => ?_, fun path c' hc' => ?_⟩
    · refine (Adds.single file hallowed).get_eq hcareful (fun hpath => ?_) (ih.kept path c' hc')
      -- No file of an index was there.
      obtain ⟨rest, rfl⟩ := head_of_isIndex hpath
      rw [hindex rest] at hc'
      cases hc'
    · rw [hcareful.get_put hallowed] at hc'
      split at hc'
      next heq =>
        rw [heq, ← Option.some.inj hc']
        exact .inr (himp u hu ih file c hallowed)
      next => exact ih.only path c' hc'

end Grown

/-- What is new when the sessions have been brought together. -/
def Unified (files : Files V) : File → Content V → Prop
  | .sessionInfo s, c => ∃ p, isSes p = false ∧ files.get [.session, p, s] = some c
  | .messageInfo s m, c => files.get [.message, s, m] = some c
  | .part s m q, c =>
    (∃ p, files.get [.session, p, s] ≠ none) ∧ files.get [.part, m, q] = some c
  | .sessionIndex s, _ => isSes s = true
  | .messageIndex _, _ => True
  | .plain _, _ => False

/-- What is new in the end: a session may have been made up if it had no file. -/
def Grown (files : Files V) : File → Content V → Prop
  | .sessionInfo s, c => ∀ p c', files.get [.session, p, s] = some c' → c = c'
  | file, c => Unified files file c

section Stages

variable {files s t : Files V} {p sid m q : Name} {c : Content V}

theorem GrownBy.get_plain {R : File → Content V → Prop} {path : Path}
    (hplain : fileOf path = .plain path) (hR : ∀ c, ¬R (.plain path) c) (h : GrownBy R files t) :
    t.get path = files.get path := by
  cases hget : t.get path with
  | some c =>
    rcases h.only path c hget with hc | hc
    · exact hc.symm
    · rw [hplain] at hc
      exact absurd hc (hR c)
  | none =>
    cases hold : files.get path with
    | none => rfl
    | some c =>
      rw [h.kept path c hold] at hget
      cases hget

theorem GrownBy.get_old {domain : Name} {rest : Path} (hsession : domain ≠ .session)
    (hindex : domain ≠ .index) (h : GrownBy (Unified files) files t) :
    t.get (domain :: rest) = files.get (domain :: rest) :=
  h.get_plain (fileOf_of_head hsession hindex) fun _ hc => hc

/-- **Either nothing has been copied, or a session has its file.** -/
theorem eq_or_sessionInfo_of_copied {P : Name → Prop} (ht : Adds (Copied P) s t) :
    t = s ∨ ∃ sid, t.get (sessionInfoPath sid) ≠ none := by
  induction ht with
  | refl => exact .inl rfl
  | @put u file c hu hallowed ih =>
    refine .inr ?_
    have hput := Adds.single file hallowed
    cases file with
    | sessionInfo sid =>
      refine ⟨sid, ?_⟩
      change (u.put (sessionInfoPath sid) c).get (sessionInfoPath sid) ≠ none
      rw [Files.get_put, if_pos rfl]
      exact Option.some_ne_none c
    | messageInfo sid m => exact ⟨sid, hput.get_ne_none careful_copied hallowed.2.1⟩
    | part sid m q => exact ⟨sid, hput.get_ne_none careful_copied hallowed.2.1⟩
    | sessionIndex sid => exact ⟨sid, hput.get_ne_none careful_copied hallowed.1⟩
    | messageIndex m =>
      obtain ⟨sid, hsid⟩ := hallowed
      exact ⟨sid, hput.get_ne_none careful_copied hsid⟩
    | plain path => exact hallowed.elim

variable [Record V] {count : ℕ} {list : List (Migration V Unit)} {done : ℕ}

theorem grown_of_unified (hlegacy : Legacy files) (file : File) (c : Content V)
    (h : Unified files file c) : Grown files file c := by
  cases file with
  | sessionInfo s =>
    obtain ⟨p, -, hp⟩ := h
    intro p' c' hp'
    obtain rfl := hlegacy.alone p p' s (hp ▸ Option.some_ne_none c) (hp' ▸ Option.some_ne_none c')
    exact Option.some.inj (hp.symm.trans hp')
  | messageInfo s m | part s m q | sessionIndex s | messageIndex m | plain path => exact h

theorem Legacy.sessionInfo (h : Legacy files) : files.get (sessionInfoPath sid) = none := by
  by_contra hne
  obtain ⟨-, -, -, -, -, hses⟩ := h.session_of_get hne
  exact absurd hses (by decide)

theorem Legacy.messageInfo (h : Legacy files) : files.get (messageInfoPath sid m) = none := by
  by_contra hne
  obtain ⟨p, s, v, heq, -⟩ := h.session _ hne
  simp at heq

theorem Legacy.partPath (h : Legacy files) : files.get (partPath sid m q) = none := by
  by_contra hne
  obtain ⟨p, s, v, heq, -⟩ := h.session _ hne
  simp at heq

theorem Legacy.headed (h : Legacy files) : Headed files := fun _ _ hne => absurd h.messageInfo hne

theorem Legacy.tidy (h : Legacy files) : Tidy files := by
  intro p sid _ _ hdir
  obtain ⟨second, rest, hget⟩ := Files.mem_entries_dir.mp hdir
  obtain ⟨p', s', v, heq, -⟩ := h.session _ hget
  simp at heq

theorem Legacy.isSes_of_mem (h : Legacy files) (hp : .dir p ∈ files.entries [.session]) :
    isSes p = false := by
  obtain ⟨second, rest, hget⟩ := Files.mem_entries_dir.mp hp
  obtain ⟨p', s', v, heq, -, -, -, hp', -⟩ := h.session _ hget
  cases heq
  exact hp'

theorem GrownBy.get_session (hlegacy : Legacy files) (hp : isSes p = false)
    (h : GrownBy (Unified files) files t) (hget : t.get [.session, p, sid] = some c) :
    files.get [.session, p, sid] = some c := by
  refine (h.only _ _ hget).resolve_right fun hnew => ?_
  by_cases hinfo : sid = .info
  · subst hinfo
    change Unified files (fileOf (sessionInfoPath p)) c at hnew
    obtain ⟨p', -, hp'⟩ := hnew
    obtain ⟨-, -, -, -, -, hses⟩ := hlegacy.session_of_get (hp' ▸ Option.some_ne_none c)
    rw [hp] at hses
    cases hses
  · simp [fileOf, hinfo, index_ne_session.symm, Unified] at hnew

/-- **Where the sessions are brought together, what is new is of a kind.** -/
theorem grownBy_copied (hlegacy : Legacy files)
    (ht : Adds (Copied fun p => .dir p ∈ files.entries [.session]) files t) :
    GrownBy (Unified files) files t := by
  refine GrownBy.refl.adds careful_copied hlegacy.index (fun u _ hu file c hallowed => ?_) ht
  have hold : ∀ {p s}, .dir p ∈ files.entries [.session] → u.get [.session, p, s] ≠ none →
      files.get [.session, p, s] ≠ none := by
    intro p s hp hget
    obtain ⟨c, hc⟩ := Option.ne_none_iff_exists'.mp hget
    rw [hu.get_session hlegacy (hlegacy.isSes_of_mem hp) hc]
    exact Option.some_ne_none c
  cases file with
  | sessionInfo s =>
    obtain ⟨-, p, hp, hget⟩ := hallowed
    exact ⟨p, hlegacy.isSes_of_mem hp, hu.get_session hlegacy (hlegacy.isSes_of_mem hp) hget⟩
  | messageInfo s m =>
    obtain ⟨-, -, hget⟩ := hallowed
    rwa [hu.get_old message_ne_session index_ne_message.symm] at hget
  | part s m q =>
    obtain ⟨-, -, ⟨p, hp, hsession⟩, hget⟩ := hallowed
    rw [hu.get_old part_ne_session part_ne_index] at hget
    exact ⟨⟨p, hold hp hsession⟩, hget⟩
  | sessionIndex s =>
    obtain ⟨-, p, hp, hget⟩ := hallowed
    obtain ⟨-, -, -, -, -, hses⟩ := hlegacy.session_of_get (hold hp hget)
    exact hses
  | messageIndex m => trivial
  | plain path => exact hallowed

/-! ### One migration after the other -/

/-- **The sessions have been brought together**: what is new is of a kind, every message has its
session, and every session under a project has been moved with its messages. -/
structure Underway (files t : Files V) : Prop where
  distinct : t.Distinct
  grown : GrownBy (Unified files) files t
  headed : Headed t
  tidy : Tidy t
  moved : ∀ p sid, files.get [.session, p, sid] ≠ none → Moved files t sid

theorem underway_sessionStorageUnify (h : Legacy files) :
    Underway files (sessionStorageUnify.run handle files).2 := by
  have hadds := adds_sessionStorageUnify (Proc.stops_run sessionStorageUnify files)
  exact ⟨hadds.distinct h.distinct, grownBy_copied h hadds, hadds.headed careful_copied h.headed,
    h.tidy.adds careful_copied hadds, fun p sid hget => moved_sessionStorageUnify hget⟩

theorem Underway.sessionIndexV2 (hlegacy : Legacy files) (h : Underway files s)
    (ht : Proc.Stops handle sessionIndexV2 s t) : Underway files t := by
  have hadds := adds_sessionIndexV2 ht
  refine ⟨hadds.distinct h.distinct,
    h.grown.adds careful_indexes hlegacy.index (fun u _ _ file c hallowed => ?_) hadds,
    hadds.headed careful_indexes h.headed, h.tidy.adds careful_indexes hadds,
    fun p sid hget => (h.moved p sid hget).adds careful_indexes hadds⟩
  obtain ⟨sid, rfl, hses⟩ := hallowed
  exact hses

theorem Underway.whole (hlegacy : Legacy files) (h : Underway files t) : Whole t := by
  intro sid m hinfo hmessage
  rw [h.grown.get_old message_ne_session index_ne_message.symm] at hmessage
  obtain ⟨c, hc⟩ := Option.ne_none_iff_exists'.mp hinfo
  rcases h.grown.only _ _ hc with hold | hnew
  · rw [hlegacy.sessionInfo] at hold
    cases hold
  · obtain ⟨p, -, hp⟩ := hnew
    exact ((h.moved p sid (hp ▸ Option.some_ne_none c)).2.2 m hmessage).1

/-- **Sessions have been made up for the other messages.** -/
structure Finished (files t : Files V) : Prop where
  distinct : t.Distinct
  grown : GrownBy (Grown files) files t
  whole : Whole t
  moved : ∀ p sid, files.get [.session, p, sid] ≠ none → Moved files t sid
  found : ∀ sid m, files.get [.message, sid, m] ≠ none → t.get (sessionInfoPath sid) ≠ none

theorem Underway.rescueOrphanedSessions (hlegacy : Legacy files) (h : Underway files s) :
    Finished files (rescueOrphanedSessions.run handle s).2 := by
  have hadds := adds_rescueOrphanedSessions (Proc.stops_run Storage.rescueOrphanedSessions s)
  refine ⟨hadds.distinct h.distinct, ?_, whole_rescueOrphanedSessions (h.whole hlegacy),
    fun p sid hget => (h.moved p sid hget).adds careful_rescues hadds, fun sid m hget => ?_⟩
  · refine (h.grown.mono (grown_of_unified hlegacy)).adds careful_rescues hlegacy.index
      (fun u hu hgrown file c hallowed => ?_) hadds
    obtain ⟨sid, hallowed⟩ := hallowed
    cases file with
    | sessionInfo s' =>
      obtain ⟨-, -, hnone⟩ := hallowed
      -- No session that stood under a project is made up.
      intro p c' hp
      have hmoved := (h.moved p s' (hp ▸ Option.some_ne_none c')).1
      exact absurd hnone (hu.get_ne_none careful_rescues hmoved)
    | messageInfo s' m =>
      obtain ⟨-, -, -, hget⟩ := hallowed
      rwa [hgrown.get_plain (fileOf_of_head message_ne_session index_ne_message.symm)
        fun _ hc => hc] at hget
    | sessionIndex s' => exact hallowed.2
    | part s' m q => exact hallowed.elim
    | messageIndex m => trivial
    | plain path => exact hallowed.elim
  · refine sessionInfo_rescueOrphanedSessions (hlegacy.message sid m hget) (m := m) ?_
    rwa [h.grown.get_old message_ne_session index_ne_message.symm]

theorem Finished.sessionIndexV2 (hlegacy : Legacy files) (h : Finished files s)
    (ht : Proc.Stops handle sessionIndexV2 s t) : Finished files t := by
  have hadds := adds_sessionIndexV2 ht
  refine ⟨hadds.distinct h.distinct,
    h.grown.adds careful_indexes hlegacy.index (fun u _ _ file c hallowed => ?_) hadds, ?_,
    fun p sid hget => (h.moved p sid hget).adds careful_indexes hadds,
    fun sid m hget => hadds.get_ne_none careful_indexes (h.found sid m hget)⟩
  · obtain ⟨sid, rfl, hses⟩ := hallowed
    exact hses
  · intro sid m hinfo hmessage
    rw [hadds.get_plain careful_indexes (fileOf_of_head message_ne_session index_ne_message.symm)]
      at hmessage
    refine hadds.get_ne_none careful_indexes (h.whole sid m ?_ hmessage)
    rwa [hadds.get_of_not careful_indexes] at hinfo
    rintro u c - ⟨sid', heq, -⟩
    rw [fileOf_sessionInfoPath] at heq
    cases heq

/-! ### The migrations as a whole -/

def opened (s : Files V × ℕ) : Files V := (state.run handleState s).2.1

def runAll (list : List (Migration V Unit)) (s : Files V) : Files V :=
  list.foldl (fun s migration => (migration.run handleMigration s).2) s

def StopsAt : List (Migration V Unit) → Files V → ℕ → Files V → Prop
  | [], s, done, t => done = 0 ∧ t = s
  | migration :: _, s, 0, t => Proc.Stops handleMigration migration s t
  | migration :: list, s, done + 1, t =>
    StopsAt list (migration.run handleMigration s).2 done t

omit [Record V] in
theorem run_runMigration {migration : Migration V Unit × ℕ} :
    ((runMigration migration).run handleState (s, count)).2 =
      ((migration.1.run handleMigration s).2, migration.2 + 1) := by
  rw [runMigration, Proc.bind_eq, Proc.run_bind, handleState, Proc.run_beside_both]
  rfl

omit [Record V] in
theorem stops_runMigration {migration : Migration V Unit × ℕ} {t : Files V × ℕ}
    (ht : Proc.Stops handleState (runMigration migration) (s, count) t) :
    (t.2 = count ∧ Proc.Stops handleMigration migration.1 s t.1) ∨
      t = ((migration.1.run handleMigration s).2, migration.2 + 1) := by
  rw [runMigration, Proc.bind_eq, Proc.stops_bind, handleState, Proc.stops_beside_both,
    Proc.run_beside_both] at ht
  rcases ht with ⟨ht, hcount⟩ | rfl | rfl
  · exact .inl ⟨hcount, ht⟩
  · exact .inl ⟨rfl, Proc.stops_run _ _⟩
  · exact .inr rfl

omit [Record V] in
theorem run_runMigrations {list : List (Migration V Unit × ℕ)} :
    ((Proc.each runMigration list).run handleState (s, count)).2.1 =
      runAll (list.map Prod.fst) s := by
  induction list generalizing s count with
  | nil => rfl
  | cons migration list ih =>
    rw [Proc.run_each_cons, run_runMigration, ih]
    rfl

theorem opened_eq : opened (s, count) = runAll (migrations.drop count) s := by
  rw [opened, state, Proc.bind_eq, Proc.run_bind, Proc.bind_eq, Proc.run_bind]
  change ((Proc.each runMigration (migrations.zipIdx.drop count)).run handleState
    (s, count)).2.1 = _
  rw [run_runMigrations, List.map_drop, List.zipIdx_map_fst]

omit [Record V] in
theorem stopsAt_zero : StopsAt list s 0 s := by
  cases list with
  | nil => exact ⟨rfl, rfl⟩
  | cons migration list => exact Proc.stops_self migration s

omit [Record V] in
/-- **The migrations are stopped in one of them**, and those before it have been run. -/
theorem stopsAt_of_stops {t : Files V × ℕ}
    (ht : Proc.Stops handleState (Proc.each runMigration (list.zipIdx count)) (s, count) t) :
    ∃ done, t.2 = count + done ∧ StopsAt list s done t.1 := by
  induction list generalizing s count with
  | nil =>
    obtain rfl : t = (s, count) := ht
    exact ⟨0, rfl, rfl, rfl⟩
  | cons migration list ih =>
    rw [List.zipIdx_cons, Proc.stops_each_cons, run_runMigration] at ht
    rcases ht with ht | ht
    · rcases stops_runMigration ht with ⟨hcount, ht⟩ | rfl
      · exact ⟨0, hcount, ht⟩
      · exact ⟨1, rfl, stopsAt_zero⟩
    · obtain ⟨done, hdone, hstops⟩ := ih ht
      refine ⟨done + 1, ?_, hstops⟩
      omega

omit [Record V] in
theorem drop_zipIdx {i : ℕ} :
    (list.zipIdx i).drop count = (list.drop count).zipIdx (i + count) := by
  induction count generalizing i list with
  | zero => rfl
  | succ count ih =>
    cases list with
    | nil => rfl
    | cons migration list =>
      rw [List.zipIdx_cons, List.drop_succ_cons, List.drop_succ_cons, ih, Nat.add_assoc,
        Nat.add_comm 1]

omit [Record V] in
theorem stops_readCounter {u : Files V × ℕ} {t : Files V × ℕ} {f : ℕ → Opening V Unit} :
    Proc.Stops handleState (readCounter.bind f) u t ↔ Proc.Stops handleState (f u.2) u t :=
  Proc.stops_ask_bind rfl

/-- **When the storage is opened, it is stopped in one of the migrations that are left.** -/
theorem stopsAt_of_stops_state {t : Files V × ℕ} (ht : Proc.Stops handleState state (s, count) t) :
    ∃ done, t.2 = count + done ∧ StopsAt (migrations.drop count) s done t.1 := by
  simp only [state, Proc.bind_eq, Proc.pure_eq] at ht
  rw [stops_readCounter, Proc.stops_bind_done, drop_zipIdx, Nat.zero_add] at ht
  exact stopsAt_of_stops ht

theorem opened_of_beside {x : Program V Unit}
    (hx : migrations.drop count = x.beside :: migrations.drop (count + 1)) :
    opened (s, count) = opened ((x.run handle s).2, count + 1) := by
  rw [opened_eq, opened_eq, hx, ← run_beside, runAll, runAll, List.foldl_cons]

theorem opened_two : opened (s, 2) = opened ((sessionStorageUnify.run handle s).2, 3) :=
  opened_of_beside rfl

theorem opened_three (h : Tidy s) :
    opened (s, 3) = opened ((Storage.sessionIndexV2.run handle s).2, 4) := by
  have hlist : migrations.drop 3 = sessionIndexBackfill :: (migrations (V := V)).drop 4 := rfl
  rw [opened_eq, opened_eq, hlist, ← run_sessionIndexBackfill h, runAll, runAll, List.foldl_cons]

theorem opened_four : opened (s, 4) = opened ((Storage.rescueOrphanedSessions.run handle s).2, 5) :=
  opened_of_beside rfl

theorem opened_six : opened (s, 6) = s := by
  rfl

theorem opened_five : opened (s, 5) = (Storage.sessionIndexV2.run handle s).2 :=
  (opened_of_beside rfl).trans opened_six

/-! ### Where it is stopped -/

omit [Record V] in
theorem stopsAt_beside {x : Program V Unit} :
    StopsAt (x.beside :: list) s (done + 1) t ↔ StopsAt list (x.run handle s).2 done t := by
  rw [StopsAt, run_beside]

theorem stopsAt_two : StopsAt (migrations.drop 2) s (done + 1) t ↔
    StopsAt (migrations.drop 3) (sessionStorageUnify.run handle s).2 done t := stopsAt_beside

theorem stopsAt_three (h : Tidy s) : StopsAt (migrations.drop 3) s (done + 1) t ↔
    StopsAt (migrations.drop 4) (Storage.sessionIndexV2.run handle s).2 done t := by
  rw [← run_sessionIndexBackfill h]
  rfl

theorem stopsAt_four : StopsAt (migrations.drop 4) s (done + 1) t ↔
    StopsAt (migrations.drop 5) (Storage.rescueOrphanedSessions.run handle s).2 done t :=
  stopsAt_beside

theorem stopsAt_five : StopsAt (migrations.drop 5) s (done + 1) t ↔
    done = 0 ∧ t = (Storage.sessionIndexV2.run handle s).2 := stopsAt_beside

/-- **Where the migrations may be stopped without harm**: in the third, before a session has its
file; in the fifth, when every session that has its file has its messages. -/
def Calm (t : Files V × ℕ) : Prop :=
  (t.2 = 2 → ∀ sid, t.1.get (sessionInfoPath sid) = none) ∧ (t.2 = 4 → Whole t.1)

theorem finished_opened (h : Legacy files) : Finished files (opened (files, 2)) := by
  have hunderway := underway_sessionStorageUnify h
  rw [opened_two, opened_three hunderway.tidy, opened_four, opened_five]
  have hbackfilled := hunderway.sessionIndexV2 h (Proc.stops_run _ _)
  exact (hbackfilled.rescueOrphanedSessions h).sessionIndexV2 h (Proc.stops_run _ _)

/-- **Where the migrations are stopped without harm, it is as if they had not been stopped.** -/
theorem opened_of_calm {u : Files V} (h : Legacy files)
    (ht : StopsAt (migrations.drop 2) files done u) (hcalm : Calm (u, 2 + done)) :
    opened (u, 2 + done) = opened (files, 2) := by
  have hunderway := underway_sessionStorageUnify h
  have hbackfilled := hunderway.sessionIndexV2 h (Proc.stops_run _ _)
  have hfinished := hbackfilled.rescueOrphanedSessions h
  rcases done with _ | _ | _ | _ | done
  · -- Nothing has been written yet.
    have hstops : Proc.Stops handle sessionStorageUnify files u := stops_beside.mp ht
    rcases eq_or_sessionInfo_of_copied (adds_sessionStorageUnify hstops) with rfl | ⟨sid, hsid⟩
    · rfl
    · exact absurd (hcalm.1 rfl sid) hsid
  · have hstops : Proc.Stops handle Storage.sessionIndexV2 _ u :=
      (stops_sessionIndexBackfill hunderway.tidy).mp (stopsAt_two.mp ht)
    have htidy := (hunderway.sessionIndexV2 h hstops).tidy
    have hagain := run_sessionIndexV2_of_stops hunderway.distinct hstops
    calc opened (u, 3) = opened ((Storage.sessionIndexV2.run handle u).2, 4) := opened_three htidy
      _ = opened (files, 2) := by rw [hagain, opened_two, opened_three hunderway.tidy]
  · rw [stopsAt_two, stopsAt_three hunderway.tidy] at ht
    have hstops : Proc.Stops handle Storage.rescueOrphanedSessions _ u := stops_beside.mp ht
    have hagain := run_rescueOrphanedSessions_of_stops hbackfilled.headed hstops (hcalm.2 rfl)
    calc opened (u, 4) = opened ((Storage.rescueOrphanedSessions.run handle u).2, 5) := opened_four
      _ = opened (files, 2) := by rw [hagain, opened_two, opened_three hunderway.tidy, opened_four]
  · rw [stopsAt_two, stopsAt_three hunderway.tidy, stopsAt_four] at ht
    have hstops : Proc.Stops handle Storage.sessionIndexV2 _ u := stops_beside.mp ht
    have hagain := run_sessionIndexV2_of_stops hfinished.distinct hstops
    calc opened (u, 5) = (Storage.sessionIndexV2.run handle u).2 := opened_five
      _ = opened (files, 2) := by
        rw [hagain, opened_two, opened_three hunderway.tidy, opened_four, opened_five]
  · -- All of them have been run.
    rw [stopsAt_two, stopsAt_three hunderway.tidy, stopsAt_four, stopsAt_five] at ht
    obtain ⟨hdone, hu⟩ := ht
    subst hdone
    calc opened (u, 6) = u := opened_six
      _ = opened (files, 2) := by
        rw [hu, opened_two, opened_three hunderway.tidy, opened_four, opened_five]

/-- **Only there**: otherwise the index gets an entry for what is no session, or a message is not in
its new place. -/
theorem calm_of_opened {u : Files V} (h : Legacy files)
    (ht : StopsAt (migrations.drop 2) files done u)
    (hindex : (opened (u, 2 + done)).get (sessionIndexPath .info) = none)
    (hmessages : ∀ sid m, files.get [.message, sid, m] ≠ none →
      (opened (u, 2 + done)).get (messageInfoPath sid m) ≠ none) : Calm (u, 2 + done) := by
  have hunderway := underway_sessionStorageUnify h
  refine ⟨fun hcount sid => ?_, fun hcount sid m hinfo hmessage => ?_⟩
  · obtain rfl : done = 0 := Nat.add_left_cancel hcount
    have hstops : Proc.Stops handle sessionStorageUnify files u := stops_beside.mp ht
    by_contra hsid
    -- The directory of the session is taken for a project, and its file for a session.
    have hmoved : Moved u (sessionStorageUnify.run handle u).2 .info :=
      moved_sessionStorageUnify (p := sid) hsid
    have htidy : Tidy (sessionStorageUnify.run handle u).2 :=
      (h.tidy.adds careful_copied (adds_sessionStorageUnify hstops)).adds careful_copied
        (adds_sessionStorageUnify (Proc.stops_run _ _))
    rw [opened_two, opened_three htidy, opened_four, opened_five] at hindex
    refine absurd hindex ?_
    refine (adds_sessionIndexV2 (Proc.stops_run _ _)).get_ne_none careful_indexes ?_
    refine (adds_rescueOrphanedSessions (Proc.stops_run _ _)).get_ne_none careful_rescues ?_
    exact (adds_sessionIndexV2 (Proc.stops_run _ _)).get_ne_none careful_indexes hmoved.2.1
  · obtain rfl : done = 2 := Nat.add_left_cancel hcount
    rw [stopsAt_two, stopsAt_three hunderway.tidy] at ht
    have hstops : Proc.Stops handle Storage.rescueOrphanedSessions _ u := stops_beside.mp ht
    have hbackfilled := hunderway.sessionIndexV2 h (Proc.stops_run _ _)
    have hold : files.get [.message, sid, m] ≠ none := by
      rwa [(adds_rescueOrphanedSessions hstops).get_plain careful_rescues
          (fileOf_of_head message_ne_session index_ne_message.symm),
        hbackfilled.grown.get_old message_ne_session index_ne_message.symm] at hmessage
    by_contra hnone
    -- The session is passed over, and nothing else copies its messages.
    have hlost := messageInfo_rescueOrphanedSessions hinfo hnone
    have hafter := hmessages sid m hold
    rw [opened_four, opened_five,
      (adds_sessionIndexV2 (Proc.stops_run _ _)).get_of_not careful_indexes] at hafter
    · exact hafter hlost
    · rintro v c - ⟨sid', heq, -⟩
      cases heq

/-! ### From the start -/

theorem opened_zero : opened (s, 0) = opened (s, 1) := by
  have hlist : (migrations (V := V)).drop 0 = .done () :: migrations.drop 1 := rfl
  rw [opened_eq, opened_eq, hlist, runAll, runAll, List.foldl_cons, Proc.run_done]

theorem opened_one : opened (s, 1) = opened ((sessionDiffs.run handle s).2, 2) :=
  opened_of_beside rfl

/-- The files when the third migration begins, of a store of which so many have been run. -/
def unsplit (count : ℕ) (files : Files V) : Files V :=
  if count ≤ 1 then (sessionDiffs.run handle files).2 else files

/-- **Before the third migration the store is of the old layout still.** -/
structure Settled (count : ℕ) (files t : Files V) : Prop where
  legacy : Legacy t
  other : ∀ domain rest, domain ≠ .session → domain ≠ .sessionDiff →
    t.get (domain :: rest) = files.get (domain :: rest)
  present : ∀ p sid, t.get [.session, p, sid] ≠ none ↔ files.get [.session, p, sid] ≠ none
  session : ∀ p sid v, files.get [.session, p, sid] = some (.data v) →
    t.get [.session, p, sid] = some (.data (if count ≤ 1 then settle v else v))

theorem settled_unsplit (h : Legacy files) : Settled count files (unsplit count files) := by
  rw [unsplit]
  split
  next hcount =>
    obtain ⟨hsplit, hsettle⟩ := splitFrom_sessionDiffs h
    refine ⟨hsplit.legacy, hsplit.other, fun p sid => ?_, fun p sid v hv => ?_⟩
    · have hbelow : Files.Below [.session] [.session, p, sid] :=
        Files.below_iff.mpr ⟨p, [sid], rfl⟩
      have hmem : [Name.session, p, sid] ∈ (sessionDiffs.run handle files).2.below [.session] ↔
          [Name.session, p, sid] ∈ files.below [.session] := by rw [hsplit.below]
      rw [Files.mem_below, Files.mem_below] at hmem
      simpa [hbelow] using hmem
    · rw [if_pos hcount]
      exact hsettle p sid v hv
  next hcount =>
    refine ⟨h, fun _ _ _ _ => rfl, fun _ _ => Iff.rfl, fun p sid v hv => ?_⟩
    rw [if_neg hcount, hv]

theorem opened_unsplit (hcount : count ≤ 2) :
    opened (files, count) = opened (unsplit count files, 2) := by
  rcases count with _ | _ | _ | count
  · exact opened_zero.trans opened_one
  · exact opened_one
  · rfl
  · omega

/-- **The store is opened and stopped**: before the third migration, without harm, or later. -/
theorem stops_unsplit {t : Files V × ℕ} (h : Legacy files) (hcount : count ≤ 2)
    (ht : Proc.Stops handleState state (files, count) t) :
    (t.2 ≤ 1 ∧ opened t = opened (files, count)) ∨
      ∃ done, t.2 = 2 + done ∧ StopsAt (migrations.drop 2) (unsplit count files) done t.1 := by
  obtain ⟨u, noted⟩ := t
  obtain ⟨done, hnoted, hstops⟩ := stopsAt_of_stops_state ht
  change noted = count + done at hnoted
  subst hnoted
  have hone : ∀ done, StopsAt (migrations.drop 1) files done u →
      (done = 0 ∧ opened (u, 1) = opened (files, 1)) ∨
        ∃ d, done = d + 1 ∧ StopsAt (migrations.drop 2) (sessionDiffs.run handle files).2 d u := by
    intro done hstops
    cases done with
    | zero =>
      have hagain := run_sessionDiffs_of_stops h (stops_beside.mp hstops)
      refine .inl ⟨rfl, ?_⟩
      rw [opened_one, opened_one, hagain]
    | succ d => exact .inr ⟨d, rfl, stopsAt_beside.mp hstops⟩
  rcases count with _ | _ | _ | count
  · cases done with
    | zero =>
      have hu : u = files := hstops
      subst hu
      exact .inl ⟨Nat.zero_le 1, rfl⟩
    | succ done =>
      rcases hone done hstops with ⟨rfl, hopened⟩ | ⟨d, rfl, hlater⟩
      · exact .inl ⟨le_rfl, hopened.trans opened_zero.symm⟩
      · refine .inr ⟨d, ?_, hlater⟩
        omega
  · rcases hone done hstops with ⟨rfl, hopened⟩ | ⟨d, rfl, hlater⟩
    · exact .inl ⟨le_rfl, hopened⟩
    · refine .inr ⟨d, ?_, hlater⟩
      omega
  · exact .inr ⟨done, rfl, hstops⟩
  · omega

/-! ### What is to come to the same -/

def Same (s t : Files V) : Prop :=
  ∀ file : File, (∀ path, file ≠ .plain path) → t.get file.path = s.get file.path

/-- **Everything of the old store is in the new one**: every session, without its diffs if they have
not been taken out before, every message, and every part, with the message that it is of. -/
structure Complete (count : ℕ) (files t : Files V) : Prop where
  session : ∀ p sid v, files.get [.session, p, sid] = some (.data v) →
    t.get (sessionInfoPath sid) = some (.data (if count ≤ 1 then settle v else v))
  message : ∀ sid m c, files.get [.message, sid, m] = some c →
    t.get (messageInfoPath sid m) = some c
  part : ∀ m q c, files.get [.part, m, q] = some c → ∃ sid, files.get [.message, sid, m] ≠ none ∧
    t.get (partPath sid m q) = some c

/-- **The migrations survive that they are stopped**: what is there when the storage is opened again
is what would be there if they had not been stopped, and nothing is lost. -/
def Survives (files : Files V) (count : ℕ) (t : Files V × ℕ) : Prop :=
  Same (opened (files, count)) (opened t) ∧ Complete count files (opened t)

def Housed (files : Files V) : Prop :=
  ∀ m q, files.get [.part, m, q] ≠ none →
    ∃ p sid, files.get [.session, p, sid] ≠ none ∧ files.get [.message, sid, m] ≠ none

theorem Finished.sessionInfo (hlegacy : Legacy files) (h : Finished files t)
    (hget : files.get [.session, p, sid] = some c) : t.get (sessionInfoPath sid) = some c := by
  obtain ⟨c', hc'⟩ := Option.ne_none_iff_exists'.mp
    (h.moved p sid (hget ▸ Option.some_ne_none c)).1
  rcases h.grown.only _ _ hc' with hold | hnew
  · rw [hlegacy.sessionInfo] at hold
    cases hold
  · rw [hc', hnew p c hget]

theorem Finished.messageInfo (hlegacy : Legacy files) (h : Finished files t)
    (hget : files.get [.message, sid, m] = some c) : t.get (messageInfoPath sid m) = some c := by
  have hold : files.get [.message, sid, m] ≠ none := hget ▸ Option.some_ne_none c
  have hplaced := h.whole sid m (h.found sid m hold)
    (h.grown.kept _ _ hget ▸ Option.some_ne_none c)
  obtain ⟨c', hc'⟩ := Option.ne_none_iff_exists'.mp hplaced
  rcases h.grown.only _ _ hc' with hold | hnew
  · rw [hlegacy.messageInfo] at hold
    cases hold
  · rw [hc', ← hnew, hget]

theorem Finished.partPath (hlegacy : Legacy files) (h : Finished files t)
    (hget : t.get (partPath sid m q) = some c) :
    (∃ p, files.get [.session, p, sid] ≠ none) ∧ files.get [.part, m, q] = some c := by
  rcases h.grown.only _ _ hget with hold | hnew
  · rw [hlegacy.partPath] at hold
    cases hold
  · rwa [fileOf_partPath] at hnew

theorem Finished.complete (hsettled : Settled count files s) (h : Finished s t)
    (hhoused : Housed files) : Complete count files t := by
  have hmessage := fun rest => hsettled.other .message rest message_ne_session (by decide)
  have hpart := fun rest => hsettled.other .part rest part_ne_session (by decide)
  refine ⟨fun p sid v hv => ?_, fun sid m c hc => ?_, fun m q c hc => ?_⟩
  · exact h.sessionInfo hsettled.legacy (hsettled.session p sid v hv)
  · exact h.messageInfo hsettled.legacy (by rwa [hmessage])
  · obtain ⟨p, sid, hsession, hm⟩ := hhoused m q (hc ▸ Option.some_ne_none c)
    have hmoved := h.moved p sid ((hsettled.present p sid).mpr hsession)
    have hplaced := (hmoved.2.2 m (by rwa [hmessage])).2 q (by
      rw [hpart, hc]
      exact Option.some_ne_none c)
    obtain ⟨c', hc'⟩ := Option.ne_none_iff_exists'.mp hplaced
    have hnew := (h.partPath hsettled.legacy hc').2
    rw [hpart, hc] at hnew
    exact ⟨sid, hm, hnew ▸ hc'⟩

/-- **The migrations survive that they are stopped exactly if every part is housed, and where they
were stopped does no harm.** -/
theorem survives_iff {count : ℕ} {t : Files V × ℕ} (hlegacy : Legacy files) (hcount : count ≤ 2)
    (ht : Proc.Stops handleState state (files, count) t) :
    Survives files count t ↔ Housed files ∧ Calm t := by
  have hsettled : Settled count files (unsplit count files) := settled_unsplit hlegacy
  have hfinished : Finished (unsplit count files) (opened (files, count)) := by
    rw [opened_unsplit hcount]
    exact finished_opened hsettled.legacy
  constructor
  · rintro ⟨hsame, hcomplete⟩
    refine ⟨fun m q hpart => ?_, ?_⟩
    · obtain ⟨c, hc⟩ := Option.ne_none_iff_exists'.mp hpart
      obtain ⟨sid, hmessage, hplaced⟩ := hcomplete.part m q c hc
      have hwhole : (opened (files, count)).get (partPath sid m q) = some c := by
        rw [← hplaced]
        exact (hsame (.part sid m q) fun _ heq => by cases heq).symm
      obtain ⟨⟨p, hsession⟩, -⟩ := hfinished.partPath hsettled.legacy hwhole
      exact ⟨p, sid, (hsettled.present p sid).mp hsession, hmessage⟩
    · rcases stops_unsplit hlegacy hcount ht with ⟨hearly, -⟩ | ⟨done, hdone, hstops⟩
      · exact ⟨fun h => by omega, fun h => by omega⟩
      · obtain ⟨u, noted⟩ := t
        change noted = 2 + done at hdone
        subst hdone
        refine calm_of_opened hsettled.legacy hstops ?_ fun sid m hm => ?_
        · have hindex := hsame (.sessionIndex .info) fun _ heq => by cases heq
          refine hindex.trans ?_
          by_contra hne
          obtain ⟨c, hc⟩ := Option.ne_none_iff_exists'.mp hne
          -- The name of the file is not the one of a session.
          rcases hfinished.grown.only _ _ hc with hold | hnew
          · rw [show (File.sessionIndex Name.info).path = .index :: [.session, .info] from rfl,
              hsettled.legacy.index] at hold
            cases hold
          · change Grown _ (fileOf (sessionIndexPath .info)) c at hnew
            have hses : isSes .info = true := hnew
            exact absurd hses (by decide)
        · rw [hsettled.other .message [sid, m] message_ne_session (by decide)] at hm
          obtain ⟨c, hc⟩ := Option.ne_none_iff_exists'.mp hm
          rw [hcomplete.message sid m c hc]
          exact Option.some_ne_none c
  · rintro ⟨hhoused, hcalm⟩
    have hopened : opened t = opened (files, count) := by
      rcases stops_unsplit hlegacy hcount ht with ⟨-, hopened⟩ | ⟨done, hdone, hstops⟩
      · exact hopened
      · obtain ⟨u, noted⟩ := t
        change noted = 2 + done at hdone
        subst hdone
        rw [opened_of_calm hsettled.legacy hstops hcalm, opened_unsplit hcount]
    rw [Survives, hopened]
    exact ⟨fun _ _ => rfl, hfinished.complete hsettled hhoused⟩

end Stages

/-! ### One session -/

/-- A value that has the fields that are read. -/
structure Note where
  name : Name
  project : String
  deriving DecidableEq

instance Note.instRecord : Record Note where
  projectID note := some note.project
  parentID _ := none
  sessionID _ := none
  id := Note.name
  diffs _ := none
  totalled note := note
  rescued sid projectID _ := ⟨sid, projectID⟩
  diffs_totalled _ := rfl
  projectID_totalled _ := rfl
  id_totalled _ := rfl

namespace Note

def prj : Name := ⟨"project", by decide⟩

theorem isName_session : IsName "ses_a" := by decide

theorem isName_message : IsName "msg_a" := by decide

theorem isName_part : IsName "prt_a" := by decide

def session : Name := ⟨"ses_a", isName_session⟩

def message : Name := ⟨"msg_a", isName_message⟩

def part : Name := ⟨"prt_a", isName_part⟩

end Note

def legacyStore : Files Note :=
  [([.session, Note.prj, Note.session], .data ⟨Note.session, "project"⟩),
    ([.message, Note.session, Note.message], .data ⟨Note.message, "project"⟩),
    ([.part, Note.message, Note.part], .data ⟨Note.part, "project"⟩)]

theorem mem_legacyStore {path : Path} (h : legacyStore.get path ≠ none) :
    path = [.session, Note.prj, Note.session] ∨ path = [.message, Note.session, Note.message] ∨
      path = [.part, Note.message, Note.part] := by
  have hmem := Files.get_ne_none.mp h
  simpa [legacyStore] using hmem

theorem legacy_legacyStore : Legacy legacyStore where
  distinct := (by decide : (legacyStore.map Prod.fst).Nodup)
  session rest h := by
    rcases mem_legacyStore h with heq | heq | heq
    · obtain rfl := (List.cons.inj heq).2
      exact ⟨Note.prj, Note.session, _, rfl, rfl, rfl, rfl, by decide, by decide⟩
    · exact absurd (List.cons.inj heq).1 (by decide)
    · exact absurd (List.cons.inj heq).1 (by decide)
  alone p p' s h h' := by
    rcases mem_legacyStore h with heq | heq | heq
    · rcases mem_legacyStore h' with heq' | heq' | heq'
      · simp only [List.cons.injEq, true_and, and_true] at heq heq'
        rw [heq.1, heq'.1]
      · exact absurd (List.cons.inj heq').1 (by decide)
      · exact absurd (List.cons.inj heq').1 (by decide)
    · exact absurd (List.cons.inj heq).1 (by decide)
    · exact absurd (List.cons.inj heq).1 (by decide)
  message s m h := by
    rcases mem_legacyStore h with heq | heq | heq
    · exact absurd (List.cons.inj heq).1 (by decide)
    · obtain ⟨rfl, rfl⟩ : s = Note.session ∧ m = Note.message := by simpa using heq
      decide
    · exact absurd (List.cons.inj heq).1 (by decide)
  index rest := by
    by_contra h
    rcases mem_legacyStore h with heq | heq | heq
    · exact absurd (List.cons.inj heq).1 (by decide)
    · exact absurd (List.cons.inj heq).1 (by decide)
    · exact absurd (List.cons.inj heq).1 (by decide)

/-- The process stops when the sessions have been brought together, and it has been noted. -/
theorem survives_afterUnify :
    Survives legacyStore 0 ((sessionStorageUnify.run handle legacyStore).2, 3) := by
  refine (survives_iff legacy_legacyStore (by decide) ?_).mpr ⟨?_, ?_⟩
  · exact Proc.stops_iff_mem_trace.mpr (by decide)
  · intro m q h
    refine ⟨Note.prj, Note.session, by decide, ?_⟩
    rcases mem_legacyStore h with heq | heq | heq
    · exact absurd (List.cons.inj heq).1 (by decide)
    · exact absurd (List.cons.inj heq).1 (by decide)
    · obtain ⟨rfl, rfl⟩ : m = Note.message ∧ q = Note.part := by simpa using heq
      decide
  · exact ⟨fun h => absurd h (by decide), fun h => absurd h (by decide)⟩

/-- The process stops when the session has its file, and the index gets an entry for what is no
session. -/
theorem not_survives : ¬∀ (V : Type) [Record V] (files : Files V) (count : ℕ) (t : Files V × ℕ),
    Legacy files → count ≤ 2 → Proc.Stops handleState state (files, count) t →
      Survives files count t := by
  intro h
  have hsurvives := h Note legacyStore 2
    (legacyStore.put (sessionInfoPath Note.session) (.data ⟨Note.session, "project"⟩), 2)
    legacy_legacyStore le_rfl (Proc.stops_iff_mem_trace.mpr (by decide))
  have hindex := hsurvives.1 (.sessionIndex .info) fun _ heq => by cases heq
  revert hindex
  decide +kernel

end OpenCms.Storage
