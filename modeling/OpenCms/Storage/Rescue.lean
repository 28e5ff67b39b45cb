import OpenCms.Storage.Unify

/-!
# The index again, and the sessions that are made up

The migrations after the one that brings the sessions together, and what they come to when they are
stopped and run again. The index is written anew from the files of the sessions, so it is the same
however often this is done. A session that is made up for its messages has its file before its
messages; a second run takes it for one that was there, and leaves the messages where they are. So
the second run comes to the same only if every session that has its file has its messages too
(`OpenCms.Storage.run_rescueOrphanedSessions_of_stops`).
-/

namespace OpenCms.Storage

variable {V : Type}

theorem Careful.exists {ι : Type} {A : ι → Files V → File → Content V → Prop}
    (h : ∀ i, Careful (A i)) : Careful fun t file c => ∃ i, A i t file c where
  plain := by
    rintro t path c ⟨i, hi⟩
    exact (h i).plain t path c hi
  fresh := by
    rintro t file c ⟨i, hi⟩
    exact (h i).fresh t file c hi
  headed := by
    rintro t s m c ⟨i, hi⟩
    exact (h i).headed t s m c hi

/-! ### Directories of sessions under projects -/

section Tidy

variable {s t : Files V} {sid : Name} {e : Entry}

def Tidy (files : Files V) : Prop :=
  ∀ p sid, isSes p = false → isSes sid = true → .dir sid ∉ files.entries [.session, p]

theorem fileOf_under {p second : Name} {rest : Path} (h : sid ≠ .messages) :
    fileOf (.session :: p :: sid :: second :: rest) =
      .plain (.session :: p :: sid :: second :: rest) := by
  rw [fileOf.eq_def]
  split
  next heq => cases heq
  next heq =>
    cases heq
    rw [if_neg fun hcon => h hcon.2.1]
  next heq =>
    cases heq
    rw [if_neg fun hcon => h hcon.2.1]
  next => rfl

theorem Tidy.adds {A : Files V → File → Content V → Prop} (hcareful : Careful A) (h : Tidy s)
    (ht : Adds A s t) : Tidy t := by
  intro p sid hp hses hdir
  obtain ⟨second, rest, hget⟩ := Files.mem_entries_dir.mp hdir
  have hmessages : sid ≠ .messages := by
    rintro rfl
    exact absurd hses (by decide)
  rw [ht.get_of_not hcareful] at hget
  · exact h p sid hp hses (Files.mem_entries_dir.mpr ⟨second, rest, hget⟩)
  · intro u c _ hallowed
    rw [List.cons_append, List.cons_append, List.nil_append, fileOf_under hmessages] at hallowed
    exact hcareful.plain _ _ _ hallowed

theorem stops_moveSessions (h : Tidy s) (ht : Proc.Stops handleMigration (moveSessions e) s t) :
    t = s := by
  cases e with
  | file name => exact ht
  | dir p =>
    rw [moveSessions] at ht
    cases hp : isSes p with
    | true =>
      rw [hp] at ht
      exact ht
    | false =>
      simp only [hp, Bool.false_eq_true, if_false, Proc.bind_eq] at ht
      rw [stops_readdir_beside, Proc.stops_bind] at ht
      have heach : ∀ t, Proc.Stops handleMigration
          (Proc.each (moveSession p) (s.entries [.session, p])) s t → t = s := by
        intro t ht
        refine Proc.stops_each (fun u => u = s) (fun e he u hu v hv => ?_) rfl ht
        cases e with
        | file name => exact hv.trans hu
        | dir sid =>
          cases hses : isSes sid with
          | true => exact absurd he (h p sid hp hses)
          | false =>
            rw [moveSession, hses] at hv
            exact hv.trans hu
      rcases ht with ht | ht
      · exact heach t ht
      · rw [heach _ (Proc.stops_run _ _), stops_readdir_beside] at ht
        split at ht
        · rcases ht with ht | ht
          · exact ht
          · exact ht
        · exact ht

end Tidy

/-! ### The index -/

def Indexed (sid : Name) (_ : Files V) (file : File) (_ : Content V) : Prop :=
  file = .sessionIndex sid ∧ isSes sid

theorem careful_indexed {sid : Name} : Careful (Indexed (V := V) sid) where
  plain := by
    rintro t path c ⟨h, -⟩
    cases h
  fresh := by
    rintro t file c ⟨rfl, -⟩
    exact .inl trivial
  headed := by
    rintro t s m c ⟨h, -⟩
    cases h

theorem careful_indexes : Careful (V := V) fun t file c => ∃ sid, Indexed sid t file c :=
  Careful.exists fun _ => careful_indexed

section Index

variable [Document V] {s t : Files V} {sid : Name} {e : Entry}

def indexEntry (info : Option (Content V)) : Option (Content V) :=
  (project info).map fun projectID => .sessionIndex projectID (info.bind Content.parentID)

def reindex (sid : Name) (s : Files V) : Files V :=
  match indexEntry (s.get (sessionInfoPath sid)) with
  | some c => s.put (sessionIndexPath sid) c
  | none => s

/-- **An entry of the index is written or not**, and when it has been, it is as it should be. -/
theorem stops_backfillSession (h : Proc.Stops handle (backfillSession e) s t) :
    t = s ∨ ∃ sid, e = .dir sid ∧ isSes sid ∧ t = reindex sid s := by
  cases e with
  | file name => exact .inl h
  | dir sid =>
    rw [backfillSession] at h
    by_cases hses : isSes sid
    · rw [if_pos hses, Proc.bind_eq, stops_readJSON] at h
      cases hproject : project (s.get (sessionInfoPath sid)) with
      | none =>
        rw [hproject] at h
        exact .inl h
      | some projectID =>
        rw [hproject] at h
        simp only [upsertSessionIndex, Proc.bind_eq] at h
        rw [stops_mkdir, stops_writeFile] at h
        refine h.imp_right fun h => ⟨sid, rfl, hses, ?_⟩
        rw [h, reindex, indexEntry, hproject, Option.map_some]
    · rw [if_neg hses] at h
      exact .inl h

theorem run_backfillSession (hses : isSes sid) :
    ((backfillSession (.dir sid)).run handle s).2 = reindex sid s := by
  rw [backfillSession, if_pos hses, reindex, indexEntry]
  cases hproject : project (s.get (sessionInfoPath sid)) with
  | none => simp [hproject]
  | some projectID => simp [hproject, upsertSessionIndex]

theorem adds_reindex (hses : isSes sid) : Adds (Indexed sid) s (reindex sid s) := by
  rw [reindex]
  split
  next c _ => exact .single (.sessionIndex sid) ⟨rfl, hses⟩
  next => exact .refl

theorem adds_backfillSession (h : Proc.Stops handle (backfillSession e) s t) :
    Adds (fun t file c => ∃ sid, Indexed sid t file c) s t := by
  obtain rfl | ⟨sid, -, hses, rfl⟩ := stops_backfillSession h
  · exact .refl
  · exact (adds_reindex hses).mono fun t file c h => ⟨sid, h⟩

/-- **Wherever the index is written anew, only entries for sessions are written.** -/
theorem adds_sessionIndexV2 (h : Proc.Stops handle sessionIndexV2 s t) :
    Adds (fun t file c => ∃ sid, Indexed sid t file c) s t := by
  simp only [sessionIndexV2, Proc.bind_eq, Proc.pure_eq] at h
  rw [stops_readdir, Proc.stops_bind_done] at h
  exact adds_each (fun e _ u _ v hv => adds_backfillSession hv) h

def Backfilled (e : Entry) (s : Files V) : Prop :=
  ∀ sid, e = .dir sid → isSes sid → ∀ c, indexEntry (s.get (sessionInfoPath sid)) = some c →
    s.get (sessionIndexPath sid) = some c

theorem reindex_eq_self (hdistinct : s.Distinct) (hses : isSes sid)
    (h : Backfilled (.dir sid) s) : reindex sid s = s := by
  rw [reindex]
  split
  next c hc => exact Files.put_eq_self hdistinct (h sid rfl hses c hc)
  next => rfl

theorem sessionInfo_reindex {sid' : Name} :
    (reindex sid s).get (sessionInfoPath sid') = s.get (sessionInfoPath sid') := by
  rw [reindex]
  split
  next => rw [get_put_of fileOf_sessionIndexPath, if_neg (by simp)]
  next => rfl

theorem Backfilled.reindex (h : Backfilled e s) : Backfilled e (reindex sid s) := by
  intro sid' he hses c hc
  rw [sessionInfo_reindex] at hc
  have hold := h sid' he hses c hc
  rw [Storage.reindex]
  split
  next c' hc' =>
    rw [get_put_of fileOf_sessionIndexPath, fileOf_sessionIndexPath]
    split
    next heq =>
      obtain rfl := File.sessionIndex.inj heq
      rw [← hc', hc]
    next => exact hold
  next => exact hold

theorem backfilled_reindex : Backfilled (.dir sid) (reindex sid s) := by
  rintro _ ⟨⟩ hses c hc
  rw [sessionInfo_reindex] at hc
  rw [reindex, hc, get_put_of fileOf_sessionIndexPath, fileOf_sessionIndexPath, if_pos rfl]

theorem entries_reindex {dir : Path} (h : ¬Files.Below dir (sessionIndexPath sid)) :
    (reindex sid s).entries dir = s.entries dir := by
  rw [reindex]
  split
  next => exact Files.entries_put h
  next => rfl

theorem distinct_reindex (h : s.Distinct) : (reindex sid s).Distinct := by
  rw [reindex]
  split
  next => exact h.put
  next => exact h

theorem distinct_backfillSession (h : s.Distinct) (ht : Proc.Stops handle (backfillSession e) s t) :
    t.Distinct := by
  obtain rfl | ⟨sid, -, -, rfl⟩ := stops_backfillSession ht
  · exact h
  · exact distinct_reindex h

theorem backfilled_backfillSession : Backfilled e ((backfillSession e).run handle s).2 := by
  rintro sid rfl hses
  rw [run_backfillSession hses]
  exact backfilled_reindex sid rfl hses

theorem run_backfillSession_of_backfilled (hdistinct : s.Distinct) (h : Backfilled e s) :
    ((backfillSession e).run handle s).2 = s := by
  obtain heq | ⟨sid, rfl, hses, heq⟩ := stops_backfillSession (Proc.stops_run (backfillSession e) s)
  · exact heq
  · rw [heq, reindex_eq_self hdistinct hses h]

/-- **The index can be written anew again**, after it was stopped. -/
theorem run_sessionIndexV2_of_stops (hdistinct : s.Distinct)
    (ht : Proc.Stops handle sessionIndexV2 s t) :
    (sessionIndexV2.run handle t).2 = (sessionIndexV2.run handle s).2 := by
  simp only [sessionIndexV2, Proc.bind_eq, Proc.pure_eq] at ht ⊢
  rw [stops_readdir, Proc.stops_bind_done] at ht
  simp only [Proc.run_bind, run_readdir, Proc.run_done]
  have hentries : t.entries [.session] = s.entries [.session] := by
    refine Proc.stops_each (fun u => u.entries [.session] = s.entries [.session])
      (fun e _ u hu v hv => ?_) rfl ht
    obtain rfl | ⟨sid, -, -, rfl⟩ := stops_backfillSession hv
    · exact hu
    · rw [entries_reindex (by simp [Files.Below, sessionIndexPath, index_ne_session.symm]), hu]
  rw [hentries]
  refine Proc.run_each_of_resumes Files.Distinct (fun _ => True) Backfilled
    (fun e _ u hu v hv => ?_) (fun e _ u hu v hv _ => ?_) (fun e _ u hu => ?_)
    (fun a _ b _ u hu hb v hv => ?_) (fun e _ u hu he => ?_) hdistinct ht trivial
  · exact distinct_backfillSession hu hv
  · obtain rfl | ⟨sid, rfl, hses, rfl⟩ := stops_backfillSession hv
    · rfl
    · rw [run_backfillSession hses, run_backfillSession hses,
        reindex_eq_self (distinct_reindex hu) hses backfilled_reindex]
  · exact backfilled_backfillSession
  · obtain rfl | ⟨sid, -, -, rfl⟩ := stops_backfillSession hv
    · exact hb
    · exact hb.reindex
  · exact run_backfillSession_of_backfilled hu he

theorem stops_sessionIndexBackfill (h : Tidy s) :
    Proc.Stops handleMigration sessionIndexBackfill s t ↔ Proc.Stops handle sessionIndexV2 s t := by
  have heach : ∀ t, Proc.Stops handleMigration
      (Proc.each moveSessions (s.entries [.session])) s t → t = s := by
    intro t ht
    refine Proc.stops_each (fun u => u = s) (fun e he u hu v hv => ?_) rfl ht
    subst hu
    exact stops_moveSessions h hv
  simp only [sessionIndexBackfill, Proc.bind_eq]
  rw [stops_readdir_beside, Proc.stops_bind, heach _ (Proc.stops_run _ _), stops_beside]
  refine ⟨?_, Or.inr⟩
  rintro (ht | ht)
  · rw [heach t ht]
    exact Proc.stops_self _ _
  · exact ht

theorem run_sessionIndexBackfill (h : Tidy s) :
    (sessionIndexBackfill.run handleMigration s).2 = (sessionIndexV2.run handle s).2 := by
  have heach : ((Proc.each moveSessions (s.entries [.session])).run handleMigration s).2 = s := by
    refine Proc.stops_each (fun u => u = s) (fun e he u hu v hv => ?_) rfl (Proc.stops_run _ _)
    subst hu
    exact stops_moveSessions h hv
  simp only [sessionIndexBackfill, Proc.bind_eq, Proc.run_bind, run_beside, run_readdir, heach]

end Index

/-! ### Sessions that are made up -/

/-- What is written when a session is made up for its messages. -/
def Rescued (sid : Name) (t : Files V) : File → Content V → Prop
  | .sessionInfo s, _ => s = sid ∧ isSes s ∧ t.get (sessionInfoPath s) = none
  | .messageInfo s m, c =>
    s = sid ∧ t.get (messageInfoPath s m) = none ∧ t.get (sessionInfoPath s) ≠ none ∧
      t.get [.message, s, m] = some c
  | .sessionIndex s, _ => s = sid ∧ isSes s
  | _, _ => False

theorem careful_rescued {sid : Name} : Careful (Rescued (V := V) sid) where
  plain _ _ _ h := h
  fresh t file c h := by
    cases file with
    | sessionInfo s => exact .inr h.2.2
    | messageInfo s m => exact .inr h.2.1
    | sessionIndex s => exact .inl trivial
    | part s m q | messageIndex m | plain path => exact h.elim
  headed _ _ _ _ h := h.2.2.1

theorem careful_rescues : Careful (V := V) fun t file c => ∃ sid, Rescued sid t file c :=
  Careful.exists fun _ => careful_rescued

def Whole (files : Files V) : Prop :=
  ∀ s m, files.get (sessionInfoPath s) ≠ none → files.get [.message, s, m] ≠ none →
    files.get (messageInfoPath s m) ≠ none

section Rescue

variable {s t : Files V} {sid m first : Name} {rest : List Name} {e : Entry}

theorem rescueMessage_eq :
    (rescueMessage sid m : Program V Unit) =
      copyMissing [.message, sid, m] (messageInfoPath sid m) := rfl

def legacyMessages (sid : Name) (s : Files V) : List Name :=
  Name.sortFiles ((s.entries [.message, sid]).filterMap Entry.fileName)

theorem mem_legacyMessages : m ∈ legacyMessages sid s ↔ s.get [.message, sid, m] ≠ none := by
  have hperm := List.perm_insertionSort
    (fun a b : Name => js (a.1 ++ ".json") ≤ js (b.1 ++ ".json"))
    ((s.entries [.message, sid]).filterMap Entry.fileName)
  rw [legacyMessages, Name.sortFiles, hperm.mem_iff, List.mem_filterMap]
  change _ ↔ s.get ([.message, sid] ++ [m]) ≠ none
  rw [← Files.mem_entries_file]
  constructor
  · rintro ⟨e, he, hname⟩
    cases e with
    | file name =>
      obtain rfl := Option.some.inj hname
      exact he
    | dir name => cases hname
  · exact fun h => ⟨_, h, rfl⟩

theorem adds_rescueMessages {names : List Name} (hinfo : s.get (sessionInfoPath sid) ≠ none)
    (ht : Proc.Stops handle (Proc.each (rescueMessage sid) names) s t) :
    Adds (Rescued sid) s t := by
  refine adds_each (fun m _ u hu v hv => ?_) ht
  exact adds_copyMissing (.messageInfo sid m) (fun c hnone hsource =>
    ⟨rfl, hnone, hu.get_ne_none careful_rescued hinfo, hsource⟩) hv

/-- **Where all messages are in their new place, the copying is over.** -/
theorem run_rescueMessages_of_stops {names : List Name}
    (ht : Proc.Stops handle (Proc.each (rescueMessage sid) names) s t)
    (h : ∀ m ∈ names, t.get (messageInfoPath sid m) ≠ none) :
    ((Proc.each (rescueMessage sid) names).run handle s).2 = t := by
  induction names generalizing s with
  | nil => exact ht.symm
  | cons m names ih =>
    rw [Proc.run_each_cons]
    have hm := h m List.mem_cons_self
    have hrest : ∀ m ∈ names, t.get (messageInfoPath sid m) ≠ none :=
      fun m hm => h m (List.mem_cons_of_mem _ hm)
    rcases Proc.stops_each_cons.mp ht with ht | ht
    · refine ih ?_ hrest
      obtain rfl | ⟨c, hnone, hsource, rfl⟩ := stops_copyMissing ht
      · rw [rescueMessage_eq, run_copyMissing_of_ne hm]
        exact Proc.stops_self _ _
      · rw [rescueMessage_eq, run_copyMissing_of_eq hnone hsource]
        exact Proc.stops_self _ _
    · exact ih ht hrest

theorem get_run_rescueMessages {names : List Name} (hinfo : s.get (sessionInfoPath sid) ≠ none)
    (hm : m ∈ names) (hget : s.get [.message, sid, m] ≠ none) :
    ((Proc.each (rescueMessage sid) names).run handle s).2.get (messageInfoPath sid m) ≠ none := by
  refine goal_run_each (A := Rescued sid) (fun t => t.get (messageInfoPath sid m) ≠ none) hm
    (fun m _ u hu v hv => ?_) (fun u hu => ?_) (fun u v huv => huv.get_ne_none careful_rescued)
  · exact adds_copyMissing (.messageInfo sid m) (fun c hnone hsource =>
      ⟨rfl, hnone, hu.get_ne_none careful_rescued hinfo, hsource⟩) hv
  · exact get_run_copyMissing _ (hu.get_ne_none careful_rescued hget)

theorem legacyMessages_adds {sid' : Name} (h : Adds (Rescued sid) s t) :
    legacyMessages sid' t = legacyMessages sid' s := by
  rw [legacyMessages, legacyMessages,
    h.entries_eq careful_rescued message_ne_session index_ne_message.symm]

def Attended (e : Entry) (s : Files V) : Prop :=
  ∀ sid, e = .dir sid → isSes sid → s.get (sessionInfoPath sid) ≠ none ∨ legacyMessages sid s = []

theorem Attended.adds (h : Attended e s) (ht : Adds (Rescued sid) s t) : Attended e t := by
  intro sid' he hses
  refine (h sid' he hses).imp (ht.get_ne_none careful_rescued) fun hnames => ?_
  rw [legacyMessages_adds ht, hnames]

variable [Record V]

def madeProject (sid first : Name) (s : Files V) : String :=
  (project (s.get [.message, sid, first])).getD "global"

def made (sid first : Name) (s : Files V) : Files V :=
  s.put (sessionInfoPath sid)
    (.data (Record.rescued sid (madeProject sid first s) (s.get [.message, sid, first])))

def begun (sid first : Name) (s : Files V) : Files V :=
  (made sid first s).put (sessionIndexPath sid) (.sessionIndex (madeProject sid first s) none)

/-- **Nothing is done, or a session is made up**: its file comes first, then its entry in the index,
then its messages. -/
theorem stops_rescueSession (h : Proc.Stops handle (rescueSession e) s t) :
    t = s ∨ ∃ sid first rest, e = .dir sid ∧ isSes sid ∧ s.get (sessionInfoPath sid) = none ∧
      legacyMessages sid s = first :: rest ∧
      (t = made sid first s ∨
        Proc.Stops handle (Proc.each (rescueMessage sid) (first :: rest))
          (begun sid first s) t) := by
  cases e with
  | file name => exact .inl h
  | dir sid =>
    rw [rescueSession] at h
    by_cases hses : isSes sid
    · rw [if_pos hses, Proc.bind_eq, stops_fileExists] at h
      cases hinfo : s.get (sessionInfoPath sid) with
      | some c =>
        rw [hinfo, if_pos (Option.isSome_some)] at h
        exact .inl h
      | none =>
        rw [hinfo, if_neg (by simp), Proc.bind_eq, stops_readdir] at h
        change Proc.Stops handle (rescueWith sid (legacyMessages sid s)) s t at h
        cases hnames : legacyMessages sid s with
        | nil =>
          rw [hnames] at h
          exact .inl h
        | cons first rest =>
          rw [hnames] at h
          simp only [rescueWith, upsertSessionIndex, Proc.bind_eq, Proc.pure_eq] at h
          rw [stops_mkdir, stops_readJSON, stops_writeFile_bind, Proc.bind_assoc, stops_mkdir,
            stops_writeFile_bind, Proc.stops_bind_done] at h
          refine h.imp_right fun h => ⟨sid, first, rest, rfl, hses, hinfo, hnames, h⟩
    · rw [if_neg hses] at h
      exact .inl h

theorem run_rescueSession_of_ne (h : s.get (sessionInfoPath sid) ≠ none) :
    ((rescueSession (.dir sid)).run handle s).2 = s := by
  rcases stops_rescueSession (Proc.stops_run (rescueSession (.dir sid)) s) with heq | hmade
  · exact heq
  · obtain ⟨_, _, _, ⟨⟩, -, hnone, -⟩ := hmade
    exact absurd hnone h

theorem run_rescueSession_of_nil (h : legacyMessages sid s = []) :
    ((rescueSession (.dir sid)).run handle s).2 = s := by
  rcases stops_rescueSession (Proc.stops_run (rescueSession (.dir sid)) s) with heq | hmade
  · exact heq
  · obtain ⟨_, _, _, ⟨⟩, -, -, hnames, -⟩ := hmade
    rw [h] at hnames
    cases hnames

theorem run_rescueSession (hses : isSes sid) (hinfo : s.get (sessionInfoPath sid) = none)
    (hnames : legacyMessages sid s = first :: rest) :
    ((rescueSession (.dir sid)).run handle s).2 =
      ((Proc.each (rescueMessage sid) (first :: rest)).run handle (begun sid first s)).2 := by
  have hnames' : Name.sortFiles ((s.entries [.message, sid]).filterMap Entry.fileName) =
      first :: rest := hnames
  simp [rescueSession, hses, hinfo, hnames', rescueWith, upsertSessionIndex, begun, made,
    madeProject]

theorem adds_begun (first : Name) (hses : isSes sid) (hinfo : s.get (sessionInfoPath sid) = none) :
    Adds (Rescued sid) s (made sid first s) ∧
      Adds (Rescued sid) (made sid first s) (begun sid first s) :=
  ⟨.single (.sessionInfo sid) ⟨rfl, hses, hinfo⟩, .single (.sessionIndex sid) ⟨rfl, hses⟩⟩

theorem sessionInfo_made : (made sid first s).get (sessionInfoPath sid) ≠ none := by
  rw [made, Files.get_put, if_pos rfl]
  exact Option.some_ne_none _

/-- **Only files of one session are written**, and only if it had none. -/
theorem adds_rescueSession (h : Proc.Stops handle (rescueSession e) s t) :
    t = s ∨ ∃ sid, e = .dir sid ∧ s.get (sessionInfoPath sid) = none ∧ Adds (Rescued sid) s t := by
  refine (stops_rescueSession h).imp_right ?_
  rintro ⟨sid, first, rest, rfl, hses, hinfo, -, ht⟩
  obtain ⟨hmade, hbegun⟩ := adds_begun first hses hinfo
  refine ⟨sid, rfl, hinfo, ?_⟩
  rcases ht with rfl | ht
  · exact hmade
  · refine (hmade.trans hbegun).trans (adds_rescueMessages ?_ ht)
    exact hbegun.get_ne_none careful_rescued sessionInfo_made

theorem adds_rescued (h : Proc.Stops handle (rescueSession e) s t) :
    Adds (fun t file c => ∃ sid, Rescued sid t file c) s t := by
  obtain rfl | ⟨sid, -, -, hadds⟩ := adds_rescueSession h
  · exact .refl
  · exact hadds.mono fun t file c h => ⟨sid, h⟩

/-- **Wherever sessions are made up, only files of them are written.** -/
theorem adds_rescueOrphanedSessions (h : Proc.Stops handle rescueOrphanedSessions s t) :
    Adds (fun t file c => ∃ sid, Rescued sid t file c) s t := by
  simp only [rescueOrphanedSessions, Proc.bind_eq, Proc.pure_eq] at h
  rw [stops_readdir, Proc.stops_bind_done] at h
  exact adds_each (fun e _ u _ v hv => adds_rescued hv) h

theorem attended_rescueSession : Attended e ((rescueSession e).run handle s).2 := by
  rintro sid rfl hses
  by_cases hinfo : s.get (sessionInfoPath sid) = none
  · cases hnames : legacyMessages sid s with
    | nil =>
      rw [run_rescueSession_of_nil hnames]
      exact .inr hnames
    | cons first rest =>
      rw [run_rescueSession hses hinfo hnames]
      obtain ⟨-, hbegun⟩ := adds_begun first hses hinfo
      have hmade := hbegun.get_ne_none careful_rescued sessionInfo_made
      have hrest := adds_rescueMessages hmade (Proc.stops_run (.each _ (first :: rest)) _)
      exact .inl (hrest.get_ne_none careful_rescued hmade)
  · rw [run_rescueSession_of_ne hinfo]
    exact .inl hinfo

theorem run_rescueSession_of_attended (h : Attended e s) :
    ((rescueSession e).run handle s).2 = s := by
  rcases stops_rescueSession (Proc.stops_run (rescueSession e) s) with heq | hmade
  · exact heq
  · obtain ⟨sid, first, rest, rfl, hses, hinfo, hnames, -⟩ := hmade
    rcases h sid rfl hses with hget | hnil
    · exact absurd hinfo hget
    · rw [hnames] at hnil
      cases hnil

/-- **One session can be attended to again** if it was not stopped between its file and the last of
its messages. -/
theorem run_rescueSession_of_stops (hheaded : Headed s)
    (ht : Proc.Stops handle (rescueSession e) s t) (hwhole : Whole t) :
    ((rescueSession e).run handle t).2 = ((rescueSession e).run handle s).2 := by
  rcases stops_rescueSession ht with rfl | hmade
  · rfl
  obtain ⟨sid, first, rest, rfl, hses, hinfo, hnames, hmade⟩ := hmade
  obtain ⟨hmadeAdds, hbegunAdds⟩ := adds_begun first hses hinfo
  have hmessages : ∀ m ∈ first :: rest, s.get [.message, sid, m] ≠ none := by
    intro m hm
    rw [← hnames] at hm
    exact mem_legacyMessages.mp hm
  rcases hmade with rfl | hrest
  · -- The first message is not in its new place yet.
    have hplaced := hwhole sid first sessionInfo_made
      (hmadeAdds.get_ne_none careful_rescued (hmessages first List.mem_cons_self))
    rw [made, get_put_of fileOf_sessionInfoPath, if_neg (by simp)] at hplaced
    exact absurd hinfo (hheaded sid first hplaced)
  · have hbegun := hbegunAdds.get_ne_none careful_rescued sessionInfo_made
    have hadds := adds_rescueMessages hbegun hrest
    have hinfo' := hadds.get_ne_none careful_rescued hbegun
    have hall := (hmadeAdds.trans hbegunAdds).trans hadds
    rw [run_rescueSession_of_ne hinfo', run_rescueSession hses hinfo hnames]
    refine (run_rescueMessages_of_stops hrest fun m hm => ?_).symm
    exact hwhole sid m hinfo' (hall.get_ne_none careful_rescued (hmessages m hm))

/-- **The sessions can be made up again**, where they were stopped between two of them. -/
theorem run_rescueOrphanedSessions_of_stops (hheaded : Headed s)
    (ht : Proc.Stops handle rescueOrphanedSessions s t) (hwhole : Whole t) :
    (rescueOrphanedSessions.run handle t).2 = (rescueOrphanedSessions.run handle s).2 := by
  have hentries : t.entries [.message] = s.entries [.message] :=
    (adds_rescueOrphanedSessions ht).entries_eq (Careful.exists fun _ => careful_rescued)
      message_ne_session index_ne_message.symm
  simp only [rescueOrphanedSessions, Proc.bind_eq, Proc.pure_eq] at ht ⊢
  rw [stops_readdir, Proc.stops_bind_done] at ht
  simp only [Proc.run_bind, run_readdir, Proc.run_done]
  rw [hentries]
  refine Proc.run_each_of_resumes Headed Whole Attended (fun e _ u hu v hv => ?_)
    (fun e _ u hu v hv hok => run_rescueSession_of_stops hu hv hok)
    (fun e _ u hu => attended_rescueSession) (fun a _ b _ u hu hb v hv => ?_)
    (fun e _ u hu he => run_rescueSession_of_attended he) hheaded ht hwhole
  · obtain rfl | ⟨sid, -, -, hadds⟩ := adds_rescueSession hv
    · exact hu
    · exact hadds.headed careful_rescued hu
  · obtain rfl | ⟨sid, -, -, hadds⟩ := adds_rescueSession hv
    · exact hb
    · exact hb.adds hadds

/-- **A message that is missing of a session that has its file stays so.** -/
theorem messageInfo_rescueOrphanedSessions (hinfo : s.get (sessionInfoPath sid) ≠ none)
    (hmessage : s.get (messageInfoPath sid m) = none) :
    (rescueOrphanedSessions.run handle s).2.get (messageInfoPath sid m) = none := by
  simp only [rescueOrphanedSessions, Proc.bind_eq, Proc.pure_eq, Proc.run_bind, run_readdir,
    Proc.run_done]
  refine (Proc.run_each (fun u : Files V => u.get (sessionInfoPath sid) ≠ none ∧
    u.get (messageInfoPath sid m) = none) (fun e _ u hu => ?_) ⟨hinfo, hmessage⟩).2
  rcases adds_rescueSession (Proc.stops_run (rescueSession e) u) with heq | hadds
  · rw [heq]
    exact hu
  · obtain ⟨sid', -, hnone, hadds⟩ := hadds
    have hne : sid ≠ sid' := by
      rintro rfl
      exact hu.1 hnone
    refine ⟨hadds.get_ne_none careful_rescued hu.1, ?_⟩
    rw [hadds.get_of_not careful_rescued, hu.2]
    intro v c _ hallowed
    exact hne hallowed.1

/-! ### What is there when the sessions have been made up -/

theorem whole_rescueSession (h : Whole s) : Whole ((rescueSession e).run handle s).2 := by
  rcases stops_rescueSession (Proc.stops_run (rescueSession e) s) with heq | hmade
  · rw [heq]
    exact h
  obtain ⟨sid, first, rest, rfl, hses, hinfo, hnames, -⟩ := hmade
  obtain ⟨hmade, hbegun⟩ := adds_begun first hses hinfo
  have hbegun' := hbegun.get_ne_none careful_rescued sessionInfo_made
  have hhead := hmade.trans hbegun
  have hall := hhead.trans
    (adds_rescueMessages hbegun' (Proc.stops_run (.each _ (first :: rest)) _))
  rw [run_rescueSession hses hinfo hnames]
  intro s' m hinfo' hm
  have hold : s.get [.message, s', m] ≠ none := by
    rwa [hall.get_plain careful_rescued
      (fileOf_of_head message_ne_session index_ne_message.symm)] at hm
  by_cases hs : s' = sid
  · subst hs
    refine get_run_rescueMessages hbegun' ?_ (hhead.get_ne_none careful_rescued hold)
    rw [← hnames]
    exact mem_legacyMessages.mpr hold
  · refine hall.get_ne_none careful_rescued (h s' m ?_ hold)
    rwa [hall.get_of_not careful_rescued] at hinfo'
    intro u c _ hallowed
    exact hs hallowed.1

theorem whole_rescueOrphanedSessions (h : Whole s) :
    Whole (rescueOrphanedSessions.run handle s).2 := by
  simp only [rescueOrphanedSessions, Proc.bind_eq, Proc.pure_eq, Proc.run_bind, run_readdir,
    Proc.run_done]
  exact Proc.run_each Whole (fun e _ u hu => whole_rescueSession hu) h

/-- **Every session of which there are messages has its file in the end.** -/
theorem sessionInfo_rescueOrphanedSessions (hses : isSes sid)
    (hget : s.get [.message, sid, m] ≠ none) :
    (rescueOrphanedSessions.run handle s).2.get (sessionInfoPath sid) ≠ none := by
  have hcareful : Careful (V := V) fun t file c => ∃ sid, Rescued sid t file c :=
    Careful.exists fun _ => careful_rescued
  simp only [rescueOrphanedSessions, Proc.bind_eq, Proc.pure_eq, Proc.run_bind, run_readdir,
    Proc.run_done]
  refine goal_run_each (fun t => t.get (sessionInfoPath sid) ≠ none)
    (Files.mem_entries_dir.mpr ⟨m, [], hget⟩) (fun e _ u _ v hv => adds_rescued hv) (fun u hu => ?_)
    (fun u v huv => huv.get_ne_none hcareful)
  refine (attended_rescueSession sid rfl hses).resolve_right fun hnil => ?_
  have hm : m ∈ legacyMessages sid ((rescueSession (.dir sid)).run handle u).2 :=
    mem_legacyMessages.mpr
      ((hu.trans (adds_rescued (Proc.stops_run _ _))).get_ne_none hcareful hget)
  rw [hnil] at hm
  cases hm

end Rescue

end OpenCms.Storage
