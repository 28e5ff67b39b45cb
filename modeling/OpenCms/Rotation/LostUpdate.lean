import OpenCms.Rotation.Mutations

/-!
# Updates of the rotation state that are lost

Processes share `rotation-state.json`, and nothing keeps one of them from writing it between a
read and a write of another, which then writes back what it has read.

A write takes its entries from several reads: those of the other sections from the read just
before it, those of its own section from the load before that, and the entry that it changes from
the loads that it was computed from. `OpenCms.Rotation.Mutation.sources` is this
bookkeeping, and `OpenCms.Rotation.Undisturbed` says that what a write has from its sources is
still what the file holds. In the runs whose writes are undisturbed nothing is lost
(`OpenCms.Rotation.no_lost_update`).
-/

namespace OpenCms.Rotation

inductive Field
  | accountHealth
  | rateLimits
  | dailyRateLimitCounts
  | sameProviderRotationCooldowns
  deriving DecidableEq

def Slot.field : Slot → Field
  | .health _ => .accountHealth
  | .limit _ _ => .rateLimits
  | .daily _ => .dailyRateLimitCounts
  | .cooldown _ => .sameProviderRotationCooldowns

def StateFile.isAbsent : StateFile → Bool
  | .absent => true
  | _ => false

namespace Mutation

/-- The read that the field of a call is taken from when it is written: the last one that
was a load. -/
def loadRead (seen : List StateFile) : Mutation → Option StateFile
  | .incrementDailyFailureCount _ _ _ _ => seen.getLast?
  | _ => seen.dropLast.getLast?

def entryReads (seen : List StateFile) : Mutation → List StateFile
  | .markRateLimited _ _ _ _ _ _ | .clear _ _ _ => []
  | .recordRateLimit _ _ _ _ | .recordFailure _ _ _ _ => seen.dropLast
  | call => (call.loadRead seen).toList

/-- **The reads that a slot of a write comes from.** The write of a migration is of what the
legacy files hold, at every slot. -/
def sources (legacy : LegacyFiles) (call : Mutation) (seen : List StateFile) (slot : Slot) :
    List StateFile :=
  (if seen.getLast?.any StateFile.isAbsent ∧ legacy.Migrates then [.absent] else []) ++
    if slot.field ≠ call.slot.field then seen.getLast?.toList
    else if slot = call.slot then call.entryReads seen
    else (call.loadRead seen).toList

end Mutation

/-- **A write is undisturbed** when the file parses, and every entry that goes into the write is
in the file still as the read found it that it comes from. -/
def Undisturbed (legacy : LegacyFiles) (call : Mutation) (seen : List StateFile)
    (file : StateFile) : Prop :=
  file.Parses ∧ ∀ slot, ∀ source ∈ call.sources legacy seen slot,
    view legacy source slot = view legacy file slot

section Undisturbed

variable {legacy : LegacyFiles} {call : Mutation}
  {seen : List StateFile} {file : StateFile}

theorem Undisturbed.migration (h : Undisturbed legacy call seen file)
    (hlast : seen.getLast? = some .absent) (hmig : legacy.Migrates) :
    view legacy .absent = view legacy file := by
  funext slot
  refine h.2 slot .absent (List.mem_append_left _ ?_)
  rw [hlast, if_pos ⟨rfl, hmig⟩]
  exact List.mem_singleton_self _

theorem Undisturbed.other (h : Undisturbed legacy call seen file) {slot : Slot}
    (hslot : slot.field ≠ call.slot.field) {last : StateFile} (hlast : seen.getLast? = some last) :
    view legacy last slot = view legacy file slot := by
  refine h.2 slot last (List.mem_append_right _ ?_)
  rw [if_pos hslot, hlast]
  exact List.mem_singleton_self _

theorem Undisturbed.same (h : Undisturbed legacy call seen file) {slot : Slot}
    (hslot : slot.field = call.slot.field) (hne : slot ≠ call.slot) {load : StateFile}
    (hload : call.loadRead seen = some load) :
    view legacy load slot = view legacy file slot := by
  refine h.2 slot load (List.mem_append_right _ ?_)
  rw [if_neg (not_not_intro hslot), if_neg hne, hload]
  exact List.mem_singleton_self _

theorem Undisturbed.entry (h : Undisturbed legacy call seen file) {source : StateFile}
    (hsource : source ∈ call.entryReads seen) :
    view legacy source call.slot = view legacy file call.slot := by
  refine h.2 call.slot source (List.mem_append_right _ ?_)
  rwa [if_neg (not_not_intro rfl), if_pos rfl]

/-- **A write that is undisturbed changes one slot of the file**, whatever reads its fields were
put together from. -/
theorem Undisturbed.set (h : Undisturbed legacy call seen file) {load last : StateFile}
    (hload : call.loadRead seen = some load) (hlast : seen.getLast? = some last) {store : Store}
    (hown : ∀ slot, slot.field = call.slot.field → store slot = view legacy load slot)
    (hother : ∀ slot, slot.field ≠ call.slot.field → store slot = view legacy last slot)
    (entry : Option Entry) :
    store.set call.slot entry = (view legacy file).set call.slot entry := by
  funext slot
  rcases eq_or_ne slot call.slot with rfl | hne
  · rw [Store.set_self, Store.set_self]
  · rw [Store.set_of_ne hne, Store.set_of_ne hne]
    by_cases hslot : slot.field = call.slot.field
    · rw [hown slot hslot, h.same hslot hne hload]
    · rw [hother slot hslot, h.other hslot hlast]

/-- It is enough that nobody has written the field of the call since its first read, and nobody
has written anything since its last. -/
theorem Undisturbed.of_reads (hfile : file.Parses)
    (hlast : ∀ last, seen.getLast? = some last → view legacy last = view legacy file)
    (hfield : ∀ source ∈ seen, ∀ slot, slot.field = call.slot.field →
      view legacy source slot = view legacy file slot) : Undisturbed legacy call seen file := by
  have hload : ∀ load, call.loadRead seen = some load → load ∈ seen := by
    intro load h
    cases call with
    | incrementDailyFailureCount => exact List.mem_of_getLast? h
    | _ => exact List.mem_of_mem_dropLast (List.mem_of_getLast? h)
  have hentry : ∀ source ∈ call.entryReads seen, source ∈ seen := by
    intro source h
    cases call with
    | markRateLimited => cases h
    | clear => cases h
    | recordRateLimit => exact List.mem_of_mem_dropLast h
    | recordFailure => exact List.mem_of_mem_dropLast h
    | recordSuccess => exact hload source (Option.mem_toList.mp h)
    | incrementDailyFailureCount => exact hload source (Option.mem_toList.mp h)
  refine ⟨hfile, fun slot source hsource => ?_⟩
  rcases List.mem_append.mp hsource with h | h
  · split at h
    next hmig =>
      have habsent := hmig.1
      cases hgetLast : seen.getLast? with
      | none =>
        rw [hgetLast] at habsent
        cases habsent
      | some last =>
        rw [hgetLast] at habsent
        cases last with
        | absent => rw [List.mem_singleton.mp h, hlast _ hgetLast]
        | garbled _ => cases habsent
        | json _ => cases habsent
    next => cases h
  · split at h
    next => rw [hlast source (Option.mem_toList.mp h)]
    next hslot =>
      have hmem : source ∈ seen := by
        split at h
        · exact hentry source h
        · exact hload source (Option.mem_toList.mp h)
      exact hfield source hmem slot (not_not.mp hslot)

end Undisturbed

/-! ### The methods, read by read -/

section Methods

variable {legacy : LegacyFiles} {config : HealthScoreConfig}

theorem entry_withLimits {state other : UnifiedRotationState} (slot : Slot) :
    (slot.field = .rateLimits →
        (state.withLimits other.rateLimits).entry slot = other.entry slot) ∧
      (slot.field ≠ .rateLimits →
        (state.withLimits other.rateLimits).entry slot = state.entry slot) := by
  cases slot <;> first | exact ⟨fun _ => rfl, fun h => absurd rfl h⟩ | exact ⟨nofun, fun _ => rfl⟩

theorem entry_withHealth {state other : UnifiedRotationState} (slot : Slot) :
    (slot.field = .accountHealth →
        (state.withHealth other.accountHealth).entry slot = other.entry slot) ∧
      (slot.field ≠ .accountHealth →
        (state.withHealth other.accountHealth).entry slot = state.entry slot) := by
  cases slot <;> first | exact ⟨fun _ => rfl, fun h => absurd rfl h⟩ | exact ⟨nofun, fun _ => rfl⟩

/-- The method of a call follows its effect: a write that is undisturbed has the effect on the
file as it is, and without a write there is nothing to do. -/
abbrev Effective (legacy : LegacyFiles) (config : HealthScoreConfig) (call : Mutation) :
    Script StateFile Unit → Prop :=
  Follows legacy
    (fun file => Mutation.apply config (view legacy file) call = view legacy file)
    (fun seen state => ∀ file, Undisturbed legacy call seen file →
      state.entry = Mutation.apply config (view legacy file) call)

theorem effective_markRateLimited (now : ℤ) (accountId provider : String)
    (reason : RateLimitReason) (backoffMs : ℚ) (model : Option String) :
    let call := Mutation.markRateLimited now accountId provider reason backoffMs model
    Effective legacy config call (call.code legacy config) := by
  intro call
  show Follows _ _ _ (RateLimitTracker.markRateLimited legacy now accountId provider reason
    backoffMs model)
  simp only [RateLimitTracker.markRateLimited, RateLimitTracker.loadFromFile,
    RateLimitTracker.persistToFile, Script.bind_eq, Script.pure_eq, Script.bind_assoc,
    Script.done_bind]
  refine Follows.read (fun _ hdone => by cases hdone) fun load =>
    Follows.read (fun _ hdone => by cases hdone) fun last => Follows.write ?_
  intro file h
  rw [RateLimitTracker.entry_mark]
  exact h.set rfl rfl (fun slot => (entry_withLimits slot).1)
    (fun slot => (entry_withLimits slot).2) _

theorem effective_clear (accountId provider : String) (model : Option String) :
    let call := Mutation.clear accountId provider model
    Effective legacy config call (call.code legacy config) := by
  intro call
  show Follows _ _ _ (RateLimitTracker.clear legacy accountId provider model)
  simp only [RateLimitTracker.clear, RateLimitTracker.loadFromFile,
    RateLimitTracker.persistToFile, Script.bind_eq, Script.pure_eq, Script.bind_assoc,
    Script.done_bind]
  refine Follows.read (fun load => ?_) fun load => ?_
  · cases hlookup : (stateOf legacy load).rateLimits.lookup
      (RateLimitTracker.makeKey provider accountId) with
    | none => exact fun _ => RateLimitTracker.entry_of_lookup_none _ hlookup
    | some inner =>
      intro hdone
      cases hdone
  · cases hlookup : (stateOf legacy load).rateLimits.lookup
      (RateLimitTracker.makeKey provider accountId) with
    | none => exact Follows.done
    | some inner =>
      refine Follows.read (fun _ hdone => by cases hdone) fun last => Follows.write ?_
      intro file h
      rw [RateLimitTracker.entry_clear _ _ hlookup]
      exact h.set rfl rfl (fun slot => (entry_withLimits slot).1)
        (fun slot => (entry_withLimits slot).2) _

theorem effective_recordSuccess (now : ℤ) (accountId provider : String) (model : Option String) :
    let call := Mutation.recordSuccess now accountId provider model
    Effective legacy config call (call.code legacy config) := by
  intro call
  show Follows _ _ _ (HealthScoreTracker.recordSuccess legacy config now accountId provider model)
  simp only [HealthScoreTracker.recordSuccess, HealthScoreTracker.loadFromFile,
    HealthScoreTracker.getScore, HealthScoreTracker.persistToFile, Script.bind_eq, Script.pure_eq,
    Script.bind_assoc, Script.done_bind]
  refine Follows.read (fun _ hdone => by cases hdone) fun _ =>
    Follows.read (fun _ hdone => by cases hdone) fun load =>
      Follows.read (fun _ hdone => by cases hdone) fun last => Follows.write ?_
  intro file h
  rw [entry_insert_health]
  refine (h.set rfl rfl (fun slot => (entry_withHealth slot).1)
    (fun slot => (entry_withHealth slot).2) _).trans ?_
  have hentry : view legacy load call.slot = view legacy file call.slot :=
    h.entry (by simp [Mutation.entryReads, Mutation.loadRead, call])
  rw [← healthOf_entry]
  exact congrArg (fun entry => (view legacy file).set call.slot
    (call.effect config entry)) hentry

theorem effective_recordPenalty {penalty now : ℤ} {accountId provider : String}
    {model : Option String} {call : Mutation}
    (hslot : call.slot = .health (HealthScoreTracker.makeKey provider accountId model))
    (hload : ∀ seen, call.loadRead seen = seen.dropLast.getLast?)
    (hreads : ∀ seen, call.entryReads seen = seen.dropLast)
    (heffect : ∀ entry, call.effect config entry = some (.health (HealthScoreTracker.penalized
      penalty now (HealthScoreTracker.scoreAt config now (healthOf entry)) (healthOf entry)))) :
    Effective legacy config call
      (HealthScoreTracker.recordPenalty legacy config penalty now accountId provider model) := by
  simp only [HealthScoreTracker.recordPenalty, HealthScoreTracker.loadFromFile,
    HealthScoreTracker.getScore, HealthScoreTracker.persistToFile, Script.bind_eq, Script.pure_eq,
    Script.bind_assoc, Script.done_bind]
  refine Follows.read (fun _ hdone => by cases hdone) fun first =>
    Follows.read (fun _ hdone => by cases hdone) fun load =>
      Follows.read (fun _ hdone => by cases hdone) fun last => Follows.write ?_
  intro file h
  -- the failures are those of the first load, the score is that of the second
  have hfailures : healthOf ((stateOf legacy first).entry call.slot) =
      healthOf (view legacy file call.slot) := congrArg healthOf (h.entry (by simp [hreads]))
  have hscore : healthOf ((stateOf legacy load).entry call.slot) =
      healthOf (view legacy file call.slot) := congrArg healthOf (h.entry (by simp [hreads]))
  rw [entry_insert_health, ← hslot]
  refine (h.set (hload _) rfl (fun slot => ?_) (fun slot => ?_) _).trans ?_
  · rw [hslot]
    exact (entry_withHealth slot).1
  · rw [hslot]
    exact (entry_withHealth slot).2
  · unfold Mutation.apply
    rw [heffect, ← healthOf_entry, ← healthOf_entry, ← hslot, hfailures, hscore]

theorem effective_incrementDailyFailureCount (now : ℤ) (accountId provider : String)
    (model : Option String) :
    let call := Mutation.incrementDailyFailureCount now accountId provider model
    Effective legacy config call (call.code legacy config) := by
  intro call
  show Follows _ _ _ (do
    let _ ← RateLimitTracker.incrementDailyFailureCount legacy now accountId provider model)
  simp only [RateLimitTracker.incrementDailyFailureCount, Script.bind_eq, Script.pure_eq,
    Script.bind_assoc]
  refine Follows.read (fun _ hdone => by cases hdone) fun last => Follows.write ?_
  intro file h
  rw [entry_insert_daily]
  have hload : call.loadRead [last] = some last := rfl
  refine (h.set hload rfl (fun slot _ => rfl) (fun slot _ => rfl) _).trans ?_
  have hentry : view legacy last call.slot = view legacy file call.slot :=
    h.entry (by simp [Mutation.entryReads, Mutation.loadRead, call])
  rw [← dailyOf_entry]
  exact congrArg (fun entry => (view legacy file).set call.slot
    (call.effect config entry)) hentry

theorem effective (call : Mutation) : Effective legacy config call (call.code legacy config) := by
  cases call with
  | recordSuccess now accountId provider model =>
    exact effective_recordSuccess now accountId provider model
  | recordRateLimit now accountId provider model | recordFailure now accountId provider model =>
    exact effective_recordPenalty rfl (fun _ => rfl) (fun _ => rfl) fun _ => rfl
  | markRateLimited now accountId provider reason backoffMs model =>
    exact effective_markRateLimited now accountId provider reason backoffMs model
  | clear accountId provider model => exact effective_clear accountId provider model
  | incrementDailyFailureCount now accountId provider model =>
    exact effective_incrementDailyFailureCount now accountId provider model

/-- **The trackers follow the store**, as long as their writes are undisturbed. -/
theorem serial_mutations :
    Shared.Serial (Mutation.code legacy config) (view legacy) (Mutation.apply config)
      (Undisturbed legacy) where
  ends ht hdone := (effective _).ends ht hdone
  inner ht hnext hok := by
    rcases (effective _).wrote ht with ⟨hlast, hmig, rfl, -⟩ | ⟨-, -, -, hdone⟩
    · exact hok.migration hlast hmig
    · exact absurd hdone hnext
  commit ht hok := by
    rcases (effective _).wrote ht with ⟨hlast, hmig, rfl, hquits⟩ | ⟨state, rfl, hwrites, -⟩
    · rw [← hok.migration hlast hmig]
      exact (hquits rfl).symm
    · exact hwrites _ hok

end Methods

/-! ### Processes that share the file -/

section Processes

variable {ι : Type} [DecidableEq ι] (legacy : LegacyFiles) (config : HealthScoreConfig)

abbrev after (file : StateFile) (acts : List (Shared.Action ι Mutation)) :
    Shared ι Mutation StateFile :=
  run (Shared.step (Mutation.code legacy config)) (Shared.idle file) acts

abbrev AllUndisturbed (file : StateFile) (acts : List (Shared.Action ι Mutation)) : Prop :=
  Meets (Shared.step (Mutation.code legacy config)) (Shared.AtWrites (Undisturbed legacy))
    (Shared.idle file) acts

variable {legacy config} {file : StateFile} {acts : List (Shared.Action ι Mutation)}

theorem held_step {s : Shared ι Mutation StateFile} {act : Shared.Action ι Mutation}
    (hs : s.Traced (Mutation.code legacy config))
    (hact : s.AtWrites (Undisturbed legacy) act) (slot : Slot)
    (hslot : ∀ call, s.opOf act = some call → slot ≠ call.slot) :
    held legacy (s.step (Mutation.code legacy config) act).file slot = held legacy s.file slot := by
  rcases Shared.step_file (Mutation.code legacy config) s act with
    hfile | ⟨i, p, c, next, rfl, hp, hrest, hfile⟩
  · rw [hfile]
  · have hparses : s.file.Parses := (hact p c next hp hrest).1
    have hwritten : held legacy c = view legacy c := by
      have ht := hs i p hp
      rw [hrest] at ht
      rcases (effective p.op).wrote ht with ⟨-, -, rfl, -⟩ | ⟨state, rfl, -⟩ <;> rfl
    rw [hfile, hwritten, held_eq_view hparses]
    rcases serial_mutations.step_cases hs hact with ⟨-, hview⟩ | ⟨call, hcall, -, hview⟩
    · rw [← hview, hfile]
    · rw [← hfile, hview]
      exact Mutation.apply_of_ne (hslot call hcall)

theorem view_after (hm : AllUndisturbed legacy config file acts) (slot : Slot) :
    let s := after legacy config file acts
    view legacy s.file slot =
      (s.finished.filter (·.slot = slot)).foldl (fun entry call => call.effect config entry)
        (view legacy file slot) := by
  intro s
  have hserial := serial_mutations.serial hm
  rw [← Mutation.foldl_apply_slot, ← hserial]

theorem foldl_effect_last {call : Mutation} {finished before later : List Mutation}
    (hsplit : finished = before ++ call :: later) (hlast : ∀ other ∈ later, other.slot ≠ call.slot)
    (entry : Option Entry) :
    ∃ entry', (finished.filter (·.slot = call.slot)).foldl
      (fun entry call => call.effect config entry) entry = call.effect config entry' := by
  -- no later call is to the slot
  have hlater : later.filter (·.slot = call.slot) = [] :=
    List.filter_eq_nil_iff.mpr fun other hmem => by simpa using hlast other hmem
  rw [hsplit, List.filter_append, List.filter_cons_of_pos (by simp), hlater, List.foldl_append]
  exact ⟨_, rfl⟩

/-- **No update is lost in a run whose writes are undisturbed**, however many processes there are.
Every slot holds what the finished calls to it make of it one after another, so that the counts
have every increment; a mark is there until a later call to its slot; and no step changes an entry
of another slot, even where it can not be read. -/
theorem no_lost_update (hm : AllUndisturbed legacy config file acts) :
    let s := after legacy config file acts
    (∀ slot, view legacy s.file slot =
      (s.finished.filter (·.slot = slot)).foldl (fun entry call => call.effect config entry)
        (view legacy file slot)) ∧
    (∀ before later now accountId provider reason backoffMs model,
      let mark := Mutation.markRateLimited now accountId provider reason backoffMs model
      s.finished = before ++ mark :: later → (∀ call ∈ later, call.slot ≠ mark.slot) →
        view legacy s.file mark.slot = some (.limit ⟨now + backoffMs, reason, model⟩)) ∧
    ∀ past act future, acts = past ++ act :: future →
      ∀ slot, (∀ call, (after legacy config file past).opOf act = some call → slot ≠ call.slot) →
        held legacy (after legacy config file (past ++ [act])).file slot =
          held legacy (after legacy config file past).file slot := by
  intro s
  refine ⟨view_after hm, ?_, ?_⟩
  · intro before later now accountId provider reason backoffMs model mark hsplit hlast
    rw [view_after hm]
    obtain ⟨entry, hentry⟩ := foldl_effect_last hsplit hlast (view legacy file mark.slot)
    rw [hentry]
    rfl
  · intro past act future hsplit slot hslot
    subst hsplit
    have hact := (Meets.append.mp hm).2.1
    have hstep : after legacy config file (past ++ [act]) =
        (after legacy config file past).step (Mutation.code legacy config) act := run_concat ..
    rw [hstep]
    exact held_step (Shared.traced_run past) hact slot hslot

/-- A count and a mark whose reads and writes are interleaved, and which both are there in the
end. -/
theorem no_lost_update_openai :
    let count : Mutation := .incrementDailyFailureCount 0 "work" "openai" none
    let mark : Mutation := .markRateLimited 0 "work" "openai" .quotaExhausted 60000 none
    let acts : List (Shared.Action (Fin 2) Mutation) := [.start 0 count, .start 1 mark, .advance 1,
      .advance 0, .advance 0, .advance 1, .advance 1]
    let s := after ⟨none, none⟩ defaultHealthScoreConfig .absent acts
    s.finished = [count, mark] ∧
      view ⟨none, none⟩ s.file count.slot = some (.daily ⟨1, 0⟩) ∧
      view ⟨none, none⟩ s.file mark.slot =
        some (.limit ⟨(0 : ℤ) + 60000, .quotaExhausted, none⟩) := by
  intro count mark acts s
  have hm : AllUndisturbed ⟨none, none⟩ defaultHealthScoreConfig .absent acts := by
    refine ⟨trivial, trivial, ?_, ?_, ?_, ?_, ?_, trivial⟩
    · intro p c next hp hrest
      cases hp
      cases hrest
    · intro p c next hp hrest
      cases hp
      cases hrest
    · intro p c next hp hrest
      cases hp
      refine Undisturbed.of_reads trivial (fun last h => ?_) fun source h slot _ => ?_
      · cases h
        rfl
      · rw [List.mem_singleton.mp h]
        rfl
    · intro p c next hp hrest
      cases hp
      cases hrest
    · intro p c next hp hrest
      cases hp
      refine Undisturbed.of_reads trivial (fun last h => ?_) fun source h slot hslot => ?_
      · cases h
        rfl
      · -- the load is from before the count was written, which is not among the limits
        rcases List.mem_pair.mp h with rfl | rfl
        · cases slot with
          | limit => rfl
          | _ => cases hslot
        · rfl
  have h := no_lost_update hm
  have hfinished : s.finished = [count, mark] := by decide
  refine ⟨hfinished, ?_, h.2.1 [count] [] 0 "work" "openai" _ _ _ hfinished nofun⟩
  decide

/-- **Two marks, and one of them is lost**: the process that reads first writes last. -/
theorem mark_lost :
    ¬∀ (legacy : LegacyFiles) (config : HealthScoreConfig) (file : StateFile)
      (acts : List (Shared.Action (Fin 2) Mutation)) (before later : List Mutation)
      (now : ℤ) (accountId provider : String) (reason : RateLimitReason) (backoffMs : ℚ)
      (model : Option String),
      let s := after legacy config file acts
      let mark := Mutation.markRateLimited now accountId provider reason backoffMs model
      s.finished = before ++ mark :: later → (∀ call ∈ later, call.slot ≠ mark.slot) →
        (view legacy s.file mark.slot).isSome := by
  intro h
  let mark (accountId : String) : Mutation :=
    .markRateLimited 0 accountId "openai" .quotaExhausted 60000 none
  have hseen := h ⟨none, none⟩ defaultHealthScoreConfig .absent
    [.start 0 (mark "home"), .advance 0, .advance 0, .start 1 (mark "work"), .advance 1, .advance 1,
      .advance 1, .advance 0] [] [mark "home"] 0 "work" "openai" .quotaExhausted 60000 none
    (by decide) (by decide)
  revert hseen
  decide

end Processes

end OpenCms.Rotation
