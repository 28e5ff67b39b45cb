import OpenCms.Freerun.Engine

/-!
# Driving the engine step by step

The bridge drives the engine one iteration at a time: it looks at the stored status, and drives when
the session is active. An engine that has taken one iteration has reached its cap and stores that,
which the bridge takes for the end. So single steps are as good as one longer drive exactly if there
is nothing left after the first of them (`OpenCms.Freerun.stepping_iff`).

What the engine stores at its end also takes the place of a pause that was written in the meantime.
-/

namespace OpenCms.Freerun

open Freerun.Tree

variable (config : Config)

def stepping (outcomes : List Outcome) : List SessionEvent :=
  outcomes.flatMap fun outcome => [.drive 1, .iterate outcome, .finish, .commit]

def running (outcomes : List Outcome) : List SessionEvent :=
  .drive outcomes.length :: (outcomes.map .iterate ++ [.finish, .commit])

def Session.Same (session session' : Session) : Prop :=
  session.performed = session'.performed ∧ session.world.disk = session'.world.disk

instance (session session' : Session) : Decidable (session.Same session') :=
  inferInstanceAs (Decidable (_ ∧ _))

/-- An iteration ends without an error, and there is something left to be worked on. -/
def GoesOn (session : Session) (outcome : Outcome) : Prop :=
  ∃ node ∈ picked config session.world.disk, advances config session.world node outcome = true ∧
    (picked config (iterated config session.world node outcome).1.disk).isSome = true

instance (session : Session) (outcome : Outcome) : Decidable (GoesOn config session outcome) :=
  inferInstanceAs (Decidable (∃ node ∈ picked config session.world.disk,
    advances config session.world node outcome = true ∧
      (picked config (iterated config session.world node outcome).1.disk).isSome = true))

/-- There is at most one outcome, or the bridge does not drive, or nothing is left after the first
iteration. -/
def OneIsEnough (session : Session) (outcomes : List Outcome) : Prop :=
  outcomes.length ≤ 1 ∨ classify config session ≠ .active ∨
    ∀ outcome ∈ outcomes.head?, ¬GoesOn config session outcome

instance (session : Session) (outcomes : List Outcome) :
    Decidable (OneIsEnough config session outcomes) :=
  inferInstanceAs (Decidable (outcomes.length ≤ 1 ∨ classify config session ≠ .active ∨
    ∀ outcome ∈ outcomes.head?, ¬GoesOn config session outcome))

/-- A pause that was written is still there, and a session whose engine has reached its cap is not
taken for settled while there is something to be worked on. -/
structure Session.Sound (session : Session) : Prop where
  kept : session.paused = true → session.stored.map SessionMeta.final_status = some .paused
  unfinished : ∀ read ∈ session.stored, read.final_status = .capReached →
    classify config session = .settled → picked config session.world.disk = none

/-- What an event must meet: no pause is written while the engine runs, and the engine reaches its
cap only when nothing is left. -/
def OnTime (session : Session) : SessionEvent → Prop
  | .pauseWrite => session.pausing.isSome = true → session.engine = none
  | .finish => ∀ engine ∈ session.engine, engine.finished = false →
    engine.finalStatus = .inProgress → engine.cap ≤ engine.iterations →
      picked config session.world.disk = none
  | _ => True

instance (session : Session) : (event : SessionEvent) → Decidable (OnTime config session event)
  | .pauseWrite => inferInstanceAs (Decidable (session.pausing.isSome = true →
    session.engine = none))
  | .finish => inferInstanceAs (Decidable (∀ engine ∈ session.engine, engine.finished = false →
    engine.finalStatus = .inProgress → engine.cap ≤ engine.iterations →
      picked config session.world.disk = none))
  | .drive _ => isTrue trivial
  | .run _ => isTrue trivial
  | .iterate _ => isTrue trivial
  | .commit => isTrue trivial
  | .pauseRead => isTrue trivial
  | .resume => isTrue trivial

/-! ### Steps that do nothing -/

section Idle

variable {config} {session : Session} {outcome : Outcome} {outcomes : List Outcome}

theorem run_idle (hengine : session.engine = none) :
    run (sessionStep config) session (outcomes.map .iterate ++ [.finish, .commit]) = session := by
  induction outcomes with
  | nil =>
    have hfinish : sessionStep config session .finish = session := by
      rw [sessionStep, hengine]
    have hcommit : sessionStep config session .commit = session := by
      rw [sessionStep, hengine]
    rw [List.map_nil, List.nil_append, run_cons, hfinish, run_cons, hcommit, run_nil]
  | cons outcome outcomes ih =>
    have hiterate : sessionStep config session (.iterate outcome) = session := by
      rw [sessionStep, hengine]
    rw [List.map_cons, List.cons_append, run_cons, hiterate]
    exact ih

theorem drive_inactive {cap : ℕ} (hactive : classify config session ≠ .active) :
    sessionStep config session (.drive cap) = session := by
  rw [sessionStep, if_neg fun h => hactive h.2]

theorem run_stepping_inactive (hengine : session.engine = none)
    (hactive : classify config session ≠ .active) :
    run (sessionStep config) session (stepping outcomes) = session := by
  induction outcomes with
  | nil => rfl
  | cons outcome outcomes ih =>
    have hsplit : stepping (outcome :: outcomes) =
        (.drive 1 :: ([outcome].map .iterate ++ [.finish, .commit])) ++ stepping outcomes := rfl
    rw [hsplit, run_append, run_cons, drive_inactive hactive, run_idle hengine]
    exact ih

theorem run_running_inactive (hengine : session.engine = none)
    (hactive : classify config session ≠ .active) :
    run (sessionStep config) session (running outcomes) = session := by
  rw [running, run_cons, drive_inactive hactive, run_idle hengine]

end Idle

/-! ### Iterations that do nothing -/

/-- No iteration will do anything: the loop is over, or nothing is left. -/
def Session.Stuck (session : Session) : Prop :=
  (∀ engine ∈ session.engine, engine.looping = false) ∨ picked config session.world.disk = none

section Stuck

variable {config} {session : Session} {engine : Engine} {node : ContextNode} {outcome : Outcome}
  {outcomes : List Outcome}

theorem run_end (config : Config) (session : Session) :
    (run (sessionStep config) session [.finish, .commit]).world = session.world ∧
    (run (sessionStep config) session [.finish, .commit]).performed = session.performed := by
  rw [run_cons, run_cons, run_nil]
  have hfinish : ∀ outcome, SessionEvent.finish ≠ .iterate outcome := by
    rintro outcome ⟨⟩
  have hcommit : ∀ outcome, SessionEvent.commit ≠ .iterate outcome := by
    rintro outcome ⟨⟩
  obtain ⟨hworld, -, hperformed⟩ := sessionStep_frame config session hfinish
  obtain ⟨hworld', -, hperformed'⟩ :=
    sessionStep_frame config (sessionStep config session .finish) hcommit
  exact ⟨hworld'.trans hworld, hperformed'.trans hperformed⟩

theorem Session.Stuck.iterate (h : session.Stuck config) (outcome : Outcome) :
    (sessionStep config session (.iterate outcome)).Stuck config ∧
      (sessionStep config session (.iterate outcome)).world = session.world ∧
      (sessionStep config session (.iterate outcome)).performed = session.performed := by
  rcases sessionStep_iterate_cases config session outcome with
    ⟨engine, hengine, hlooping, heq⟩ | ⟨-, heq⟩
  · have hnone : picked config session.world.disk = none := by
      rcases h with hidle | hnone
      · exact absurd (hlooping.symm.trans (hidle engine hengine)) Bool.true_eq_false.mp
      · exact hnone
    rw [heq, Session.iterate, hnone]
    exact ⟨Or.inr hnone, rfl, rfl⟩
  · rw [heq]
    exact ⟨h, rfl, rfl⟩

/-- **Where no iteration does anything, the engine ends with the same files.** -/
theorem Session.Stuck.run (h : session.Stuck config) (outcomes : List Outcome) :
    (run (sessionStep config) session (outcomes.map .iterate ++ [.finish, .commit])).world =
        session.world ∧
      (OpenCms.run (sessionStep config) session
        (outcomes.map .iterate ++ [.finish, .commit])).performed = session.performed := by
  induction outcomes generalizing session with
  | nil => exact run_end config session
  | cons outcome outcomes ih =>
    obtain ⟨hstuck, hworld, hperformed⟩ := h.iterate outcome
    obtain ⟨hworld', hperformed'⟩ := ih hstuck
    exact ⟨hworld'.trans hworld, hperformed'.trans hperformed⟩

theorem length_performed_le (config : Config) (session : Session) (events : List SessionEvent) :
    session.performed.length ≤ (run (sessionStep config) session events).performed.length := by
  induction events generalizing session with
  | nil => exact le_refl _
  | cons event events ih =>
    refine le_trans ?_ (ih _)
    by_cases hiterate : ∃ outcome, event = .iterate outcome
    · obtain ⟨outcome, rfl⟩ := hiterate
      rcases sessionStep_iterate_cases config session outcome with ⟨engine, -, -, heq⟩ | ⟨-, heq⟩
      · rw [heq, Session.iterate]
        rcases picked config session.world.disk with _ | node
        · exact le_refl _
        · exact Nat.le_succ _
      · rw [heq]
    · rw [(sessionStep_frame config session fun outcome heq => hiterate ⟨outcome, heq⟩).2.2]

end Stuck

/-! ### The first iteration -/

section First

variable {config} {session : Session} {node : ContextNode} {outcome : Outcome} {cap : ℕ}
  {outcomes : List Outcome}

theorem of_active (h : classify config session = .active) :
    (load session.world.disk).isSome = true ∧ (picked config session.world.disk).isSome = true := by
  rw [classify] at h
  split at h
  · cases h
  split at h
  next => cases h
  next => cases h
  next => cases h
  next => cases h
  next => cases h
  next => cases h
  next =>
    split at h
    next hload =>
      split at h
      next hpicked => exact ⟨hload, hpicked⟩
      next => cases h
    next => cases h

theorem drive_active (hengine : session.engine = none) (h : classify config session = .active) :
    sessionStep config session (.drive cap) = session.start cap := by
  rw [sessionStep, if_pos ⟨hengine, h⟩]

theorem start_iterate (outcome : Outcome) (cap : ℕ)
    (hpicked : picked config session.world.disk = some node) :
    ∃ engine first, sessionStep config (session.start (cap + 1)) (.iterate outcome) = first ∧
      first.world = (iterated config session.world node outcome).1 ∧
      first.performed = node.id :: session.performed ∧
      first.stored.isSome = true ∧ first.engine = some engine ∧
      engine.cap = cap + 1 ∧ engine.finished = false ∧
      if advances config session.world node outcome = true then
        engine.iterations = 1 ∧ engine.finalStatus = .inProgress
      else engine.finalStatus = .error := by
  have hthere : picked config (session.start (cap + 1)).world.disk = some node := hpicked
  have hlooping : Engine.looping
      { cap := cap + 1
        iterations := 0
        finalStatus := .inProgress
        priorIterations := session.stored.elim 0 SessionMeta.total_iterations
        read := none
        finished := false } = true := by
    rw [Engine.looping]
    simp
  rw [sessionStep_iterate rfl hlooping, Session.iterate, hthere]
  refine ⟨_, _, rfl, rfl, rfl, rfl, rfl, ?_⟩
  have hsame : (session.start (cap + 1)).world = session.world := rfl
  rw [hsame]
  by_cases hadvances : advances config session.world node outcome = true
  · rw [if_pos hadvances, if_pos hadvances]
    exact ⟨rfl, rfl, rfl, rfl⟩
  · rw [if_neg hadvances, if_neg hadvances]
    exact ⟨rfl, rfl, rfl⟩

theorem run_finish {engine : Engine} {read : SessionMeta} (hengine : session.engine = some engine)
    (hlooping : engine.looping = false) (hover : engine.finished = false)
    (hstored : session.stored = some read) :
    run (sessionStep config) session [.finish, .commit] =
      { session with
        engine := none
        stored := some ⟨engine.lastStatus, engine.priorIterations + engine.iterations⟩ } := by
  have hfinish : sessionStep config session .finish = session.finish engine := by
    rw [sessionStep, hengine]
    dsimp only
    rw [hlooping, hover]
    rfl
  rw [run_cons, hfinish, run_cons, run_nil, sessionStep, Session.finish]
  dsimp only
  rw [if_pos rfl, Session.commit]
  dsimp only
  rw [hstored]

/-- **After a drive of one iteration the bridge does not drive again.** -/
theorem run_one (outcome : Outcome) (hengine : session.engine = none)
    (hactive : classify config session = .active)
    (hpicked : picked config session.world.disk = some node) :
    ∃ last, run (sessionStep config) session [.drive 1, .iterate outcome, .finish, .commit] = last ∧
      last.world = (iterated config session.world node outcome).1 ∧
      last.performed = node.id :: session.performed ∧ last.engine = none ∧
      classify config last ≠ .active := by
  obtain ⟨engine, first, hfirst, hworld, hperformed, hstored, hfound, hcap, hover, hstatus⟩ :=
    start_iterate outcome 0 hpicked
  obtain ⟨read, hread⟩ := Option.isSome_iff_exists.mp hstored
  have hlooping : engine.looping = false := by
    rw [Engine.looping, hcap]
    split at hstatus
    next => simp [hstatus.1]
    next => simp [hstatus]
  have hlast : engine.lastStatus = .capReached ∨ engine.lastStatus = .error := by
    rw [Engine.lastStatus]
    split at hstatus
    next => exact Or.inl (if_pos ⟨by omega, hstatus.2⟩)
    next =>
      rw [hstatus, if_neg fun h => by cases h.2]
      exact Or.inr rfl
  refine ⟨_, rfl, ?_⟩
  rw [run_cons, drive_active hengine hactive, run_cons, hfirst,
    run_finish hfound hlooping hover hread]
  refine ⟨hworld, hperformed, rfl, ?_⟩
  rw [classify]
  split
  · rintro ⟨⟩
  · rcases hlast with hlast | hlast
    · dsimp only [Option.elim_some]
      rw [hlast]
      rintro ⟨⟩
    · dsimp only [Option.elim_some]
      rw [hlast]
      rintro ⟨⟩

/-- **Single steps are as good as one drive exactly if one step is enough.** -/
theorem same_iff (hengine : session.engine = none) :
    (run (sessionStep config) session (stepping outcomes)).Same
        (run (sessionStep config) session (running outcomes)) ↔
      OneIsEnough config session outcomes := by
  by_cases hactive : classify config session = .active
  · rcases outcomes with _ | ⟨outcome, rest⟩
    · refine iff_of_true ?_ (Or.inl (Nat.zero_le 1))
      have hend : (run (sessionStep config) (sessionStep config session (.drive 0))
          [.finish, .commit]).world = session.world ∧
        (run (sessionStep config) (sessionStep config session (.drive 0))
          [.finish, .commit]).performed = session.performed := by
        rw [drive_active hengine hactive]
        exact run_end config _
      exact ⟨hend.2.symm, congrArg World.disk hend.1.symm⟩
    · obtain ⟨hload, hpicked⟩ := of_active hactive
      obtain ⟨node, hpicked⟩ := Option.isSome_iff_exists.mp hpicked
      obtain ⟨last, hlast, hworld, hperformed, hover, hidle⟩ :=
        run_one outcome hengine hactive hpicked
      obtain ⟨engine, first, hfirst, hworld', hperformed', -, hfound, hcap, hgoing, hstatus⟩ :=
        start_iterate outcome rest.length hpicked
      have hstepping : run (sessionStep config) session (stepping (outcome :: rest)) = last := by
        have hsplit : stepping (outcome :: rest) =
            [.drive 1, .iterate outcome, .finish, .commit] ++ stepping rest := rfl
        rw [hsplit, run_append, hlast, run_stepping_inactive hover hidle]
      have hrunning : run (sessionStep config) session (running (outcome :: rest)) =
          run (sessionStep config) first (rest.map .iterate ++ [.finish, .commit]) := by
        rw [running, run_cons, drive_active hengine hactive, List.map_cons, List.cons_append,
          run_cons, List.length_cons, hfirst]
      rw [hstepping, hrunning]
      by_cases hgoes : GoesOn config session outcome
      · obtain ⟨node', hnode', hadvances, hleft⟩ := hgoes
        obtain rfl : node = node' := Option.some.inj (hpicked.symm.trans hnode')
        rcases rest with _ | ⟨next, rest⟩
        · refine iff_of_true ?_ (Or.inl (le_refl 1))
          obtain ⟨hend, hend'⟩ := run_end config first
          refine ⟨hperformed.trans (hperformed'.symm.trans hend'.symm), ?_⟩
          exact congrArg World.disk (hworld.trans (hworld'.symm.trans hend.symm))
        · refine iff_of_false ?_ ?_
          · -- a second iteration is performed
            rintro ⟨hsame, -⟩
            rw [if_pos hadvances] at hstatus
            have hlooping : engine.looping = true := by
              rw [Engine.looping, hcap, hgoing, hstatus.1, hstatus.2]
              simp
            rw [← hworld'] at hleft
            obtain ⟨second, hsecond⟩ := Option.isSome_iff_exists.mp hleft
            have hlength := length_performed_le config
              (sessionStep config first (.iterate next)) (rest.map .iterate ++ [.finish, .commit])
            rw [List.map_cons, List.cons_append, run_cons] at hsame
            rw [← hsame, hperformed, sessionStep_iterate hfound hlooping, Session.iterate, hsecond,
              List.length_cons] at hlength
            rw [hperformed', List.length_cons] at hlength
            omega
          · rintro (hlength | hinactive | hnot)
            · rw [List.length_cons, List.length_cons] at hlength
              omega
            · exact hinactive hactive
            · exact hnot outcome rfl ⟨node, hpicked, hadvances, hleft⟩
      · have hstuck : first.Stuck config := by
          by_cases hadvances : advances config session.world node outcome = true
          · right
            rw [hworld']
            by_contra hleft
            exact hgoes ⟨node, hpicked, hadvances, Option.isSome_iff_ne_none.mpr hleft⟩
          · left
            rw [if_neg hadvances] at hstatus
            rintro other hother
            obtain rfl := Option.some.inj (hfound.symm.trans hother)
            rw [Engine.looping, hstatus]
            simp
        obtain ⟨hend, hend'⟩ := hstuck.run rest
        refine iff_of_true ⟨hperformed.trans (hperformed'.symm.trans hend'.symm), ?_⟩ ?_
        · exact congrArg World.disk (hworld.trans (hworld'.symm.trans hend.symm))
        · refine Or.inr (Or.inr fun other hother => ?_)
          obtain rfl := Option.some.inj hother
          exact hgoes
  · refine iff_of_true ?_ (Or.inr (Or.inl hactive))
    rw [run_stepping_inactive hengine hactive, run_running_inactive hengine hactive]
    exact ⟨rfl, rfl⟩

end First

/-! ### What is stored -/

/-- What every run keeps: a pause that was written is still there, or no engine runs; and at its cap
an engine has left nothing. -/
structure SessionInv (session : Session) : Prop where
  kept : session.paused = true → session.stored.map SessionMeta.final_status = some .paused
  idle : session.engine = none → ∀ read ∈ session.stored, read.final_status = .capReached →
    picked config session.world.disk = none
  awake : ∀ engine ∈ session.engine, session.paused = false ∧
    (∀ read ∈ session.stored, read.final_status ≠ .capReached) ∧
      (engine.finalStatus = .capReached → picked config session.world.disk = none)

section Sound

variable {config} {session : Session} {engine : Engine}

theorem picked_nil : picked config [] = none := rfl

theorem SessionInv.sound (h : SessionInv config session) : session.Sound config := by
  refine ⟨h.kept, fun read hread hcap _ => ?_⟩
  rcases hengine : session.engine with _ | engine
  · exact h.idle hengine read hread hcap
  · exact absurd hcap ((h.awake engine hengine).2.1 read hread)

theorem Session.Sound.inv (h : session.Sound config) (hengine : session.engine = none) :
    SessionInv config session := by
  refine ⟨h.kept, fun _ read hread hcap => ?_, fun engine hsome => ?_⟩
  · by_cases hdisk : session.world.disk = []
    · rw [hdisk]
      exact picked_nil
    · refine h.unfinished read hread hcap ?_
      rw [classify, if_neg hdisk, Option.mem_def.mp hread]
      dsimp only [Option.elim_some]
      rw [hcap]
  · rw [hengine] at hsome
    cases hsome

theorem SessionInv.start (h : SessionInv config session) {cap : ℕ}
    (hstatus : session.stored.map SessionMeta.final_status ≠ some .paused) :
    SessionInv config (session.start cap) := by
  have hawake : session.paused = false :=
    Bool.eq_false_iff.mpr fun hpaused => hstatus (h.kept hpaused)
  refine ⟨fun hpaused => ?_, fun hnone => ?_, fun engine hengine => ⟨hawake, ?_, ?_⟩⟩
  · exact absurd (hawake.symm.trans hpaused) Bool.false_ne_true
  · cases hnone
  · rintro read ⟨⟩ hcap
    cases hcap
  · obtain rfl := Option.some.inj hengine
    rintro ⟨⟩

theorem not_paused_of_active (h : classify config session = .active) :
    session.stored.map SessionMeta.final_status ≠ some .paused := by
  intro hpaused
  obtain ⟨read, hread, hstatus⟩ := Option.map_eq_some_iff.mp hpaused
  rw [classify, hread] at h
  dsimp only [Option.elim_some] at h
  rw [hstatus] at h
  split at h
  · cases h
  · cases h

theorem SessionInv.iterate (h : SessionInv config session) {outcome : Outcome}
    (hengine : session.engine = some engine) (hlooping : engine.looping = true) :
    SessionInv config (session.iterate config engine outcome) := by
  obtain ⟨hawake, hstored, -⟩ := h.awake engine hengine
  have hstatus : engine.finalStatus = .inProgress := by
    rw [Engine.looping, Bool.and_eq_true, Bool.and_eq_true, decide_eq_true_eq,
      decide_eq_true_eq] at hlooping
    exact hlooping.1.2
  rw [Session.iterate]
  rcases picked config session.world.disk with _ | node
  · refine ⟨h.kept, (fun hnone => by cases hnone), fun other hother => ⟨hawake, hstored, ?_⟩⟩
    obtain rfl := Option.some.inj hother
    dsimp only
    split
    · rintro ⟨⟩
    · rintro ⟨⟩
  · refine ⟨h.kept, (fun hnone => by cases hnone), fun other hother => ⟨hawake, hstored, ?_⟩⟩
    obtain rfl := Option.some.inj hother
    split
    · intro hcap
      cases hstatus.symm.trans hcap
    · rintro ⟨⟩

theorem SessionInv.finish (h : SessionInv config session) (hengine : session.engine = some engine)
    (hleft : engine.finalStatus = .inProgress → engine.cap ≤ engine.iterations →
      picked config session.world.disk = none) : SessionInv config (session.finish engine) := by
  obtain ⟨hawake, hstored, hcap⟩ := h.awake engine hengine
  refine ⟨h.kept, (fun hnone => by cases hnone), fun other hother => ⟨hawake, hstored, ?_⟩⟩
  obtain rfl := Option.some.inj hother
  intro hlast
  have hlast : engine.lastStatus = .capReached := hlast
  rw [Engine.lastStatus] at hlast
  split at hlast
  next hreached => exact hleft hreached.2 hreached.1
  next => exact hcap hlast

theorem SessionInv.commit (h : SessionInv config session)
    (hengine : session.engine = some engine) : SessionInv config (session.commit engine) := by
  obtain ⟨hawake, hstored, hcap⟩ := h.awake engine hengine
  refine ⟨fun hpaused => ?_, fun _ read hread hreached => ?_, fun other hother => by cases hother⟩
  · exact absurd (hawake.symm.trans hpaused) Bool.false_ne_true
  · rw [Session.commit] at hread
    dsimp only at hread
    split at hread
    next => exact absurd hreached (hstored read hread)
    next =>
      obtain rfl := Option.some.inj hread
      exact hcap hreached

/-- **An event that is on time keeps what every run keeps.** -/
theorem SessionInv.step (h : SessionInv config session) {event : SessionEvent}
    (hon : OnTime config session event) : SessionInv config (sessionStep config session event) := by
  cases event with
  | drive cap =>
    rw [sessionStep]
    split
    next hdrive => exact h.start (not_paused_of_active hdrive.2)
    next => exact h
  | run cap =>
    rw [sessionStep]
    split
    next hrun => exact h.start hrun.2
    next => exact h
  | iterate outcome =>
    rw [sessionStep]
    rcases hengine : session.engine with _ | engine
    · exact h
    · dsimp only
      split
      next hlooping => exact h.iterate hengine hlooping
      next => exact h
  | finish =>
    rw [sessionStep]
    rcases hengine : session.engine with _ | engine
    · exact h
    · dsimp only
      split
      next => exact h
      next hnot =>
        rw [Bool.or_eq_true, not_or] at hnot
        exact h.finish hengine (hon engine hengine (Bool.eq_false_iff.mpr hnot.2))
  | commit =>
    rw [sessionStep]
    rcases hengine : session.engine with _ | engine
    · exact h
    · dsimp only
      split
      next => exact h.commit hengine
      next => exact h
  | pauseRead => exact ⟨h.kept, h.idle, h.awake⟩
  | pauseWrite =>
    rw [sessionStep]
    rcases hpausing : session.pausing with _ | read
    · exact h
    · have hengine : session.engine = none := hon (by rw [hpausing]; rfl)
      refine ⟨fun _ => rfl, fun _ other hother hcap => ?_, fun engine hsome => ?_⟩
      · obtain rfl := Option.some.inj hother
        cases hcap
      · cases hengine.symm.trans hsome
  | resume =>
    rw [sessionStep]
    rcases session.stored with _ | read
    · exact h
    · dsimp only
      split
      next =>
        refine ⟨(fun hpaused => by cases hpaused), fun _ other hother hcap => ?_,
          fun engine hengine => ⟨rfl, ?_, (h.awake engine hengine).2.2⟩⟩
        · obtain rfl := Option.some.inj hother
          cases hcap
        · rintro other hother hcap
          obtain rfl := Option.some.inj hother
          cases hcap
      next => exact h

end Sound

theorem sound_init (title : String) : (Session.init title).Sound config := by
  constructor
  · rintro ⟨⟩
  · rintro read ⟨⟩

def blockedRoot : List Outcome := [⟨none, none, []⟩, ⟨none, none, []⟩]

def pausedAfter : List SessionEvent :=
  [.drive 2, .iterate ⟨none, none, []⟩, .iterate ⟨none, none, []⟩, .finish, .pauseRead, .commit,
    .pauseWrite]

def oneChild : List Outcome :=
  [⟨some [⟨['a'], "only", some .pendingExec⟩], none, []⟩, ⟨none, some .done, [some "done"]⟩]

def pausedWithin : List SessionEvent :=
  [.drive 1, .pauseRead, .pauseWrite, .iterate ⟨some [⟨['a'], "only", none⟩], none, []⟩, .finish,
    .commit]

end OpenCms.Freerun
