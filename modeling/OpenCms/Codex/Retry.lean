import OpenCms.Codex.Bracketed

/-!
# A stream that is tried twice

`doStream` holds the part that finishes the first attempt back. If it asks for another attempt, the
parts of that attempt follow, and else the part itself. An attempt that errors was not finished:
nothing is held back then, and the stream ends where its parts did. So the consumer learns how the
stream ended exactly if the first attempt does not error, or an error was among what was read of it
(`OpenCms.Codex.concluded_iff`).

A response over HTTP is not held back. Its stream errors where its events do, and every consumer
learns that.
-/

namespace OpenCms.Codex

/-! ### Attempts -/

def Part.isError : Part → Bool
  | .error _ => true
  | _ => false

def Part.emptyTurnClassification : Part → Option EmptyTurn
  | .finish _ _ _ emptyTurnClassification => emptyTurnClassification
  | _ => none

/-- What a reader gets of a stream: parts, and then an error or the end. -/
structure Handed where
  parts : List Part
  errors : Bool
  deriving DecidableEq

def Finished (parts : List Part) : Prop :=
  ∃ body last, parts = body ++ [last] ∧ last.isFinish ∧ ∀ part ∈ body, part.isFinish = false

/-- The reader learns how the stream ended: it errors, or has an error among its parts, or is
finished. -/
def Handed.Concluded (handed : Handed) : Prop :=
  handed.errors ∨ (∃ part ∈ handed.parts, part.isError) ∨ Finished handed.parts

/-- How the events of an attempt end: the stream is closed, or it errors when so many of the parts
were read. -/
inductive Ending
  | closed
  | errored (read : ℕ)
  deriving DecidableEq

/-- An attempt: the events that are read, the snapshot in the end, and the end. -/
structure Attempt where
  events : List Event
  snapshot : TransportSnapshot
  ending : Ending
  deriving DecidableEq

def Attempt.stream (logContext : LogContext) (attempt : Attempt) : Handed :=
  match attempt.ending with
  | .closed => ⟨mapResponseStream ⟨some logContext, some attempt.snapshot⟩ attempt.events, false⟩
  | .errored read => ⟨(run Mapped.step .init attempt.events).parts.take read, true⟩

/-! ### The retry -/

/-- What was read of the first attempt. -/
structure Holding where
  bufferedFinish : Option Part
  enqueued : List Part
  deriving DecidableEq

def Holding.read (holding : Holding) (value : Part) : Holding :=
  if value.isFinish then { holding with bufferedFinish := some value }
  else { holding with enqueued := holding.enqueued ++ [value] }

def Holding.close (holding : Holding) : Handed :=
  ⟨holding.enqueued ++ holding.bufferedFinish.toList, false⟩

/-- The second attempt takes the place of the finish. If it errors the finish is handed on after
it. -/
def Holding.retry (holding : Holding) (stream2 : Handed) : Handed :=
  ⟨holding.enqueued ++ stream2.parts ++
    if stream2.errors then holding.bufferedFinish.toList else [], false⟩

/-- The stream that `doStream` returns over a socket. There is no `second` attempt if
`tryWsTransport` gives up or throws; the numbers are those that the entries of the log get. -/
def doStream (requestOptionsShape : RequestOptionsShape) (logSequence logSequence' : ℕ)
    (first : Attempt) (second : Option Attempt) : Handed :=
  let stream1 := first.stream ⟨requestOptionsShape, false, none, logSequence⟩
  let holding := run Holding.read ⟨none, []⟩ stream1.parts
  if stream1.errors then holding.close
  else
    match holding.bufferedFinish.bind Part.emptyTurnClassification with
    | none => holding.close
    | some cls =>
      if cls.recoveryAction = .retryOnceThenSoftFail then
        match second with
        | none => holding.close
        | some second => holding.retry
          (second.stream ⟨requestOptionsShape, true, some cls.logSequence, logSequence'⟩)
      else holding.close

/-! ### What attempts hand on -/

section Streams

variable {attempt : Attempt} {parts : List Part} {logContext : LogContext} {body : List Part}

theorem isFinish_mapped (events : List Event) :
    ∀ part ∈ (run Mapped.step .init events).parts, part.isFinish = false := by
  refine run_invariant (fun mapped : Mapped => ∀ part ∈ mapped.parts, part.isFinish = false)
    (fun part hpart => absurd hpart List.not_mem_nil) (fun mapped event h part hpart => ?_) events
  rcases List.mem_append.mp hpart with hpart | hpart
  · exact h part hpart
  · exact isFinish_mapEvent mapped.state event part hpart

theorem isFinish_flush (state : StreamState) :
    ∀ part ∈ (flush state).1, part.isFinish = false := by
  rintro part hpart
  rcases List.mem_append.mp hpart with hpart | hpart
  · rcases hopen : state.openTextId with _ | id
    · rw [hopen] at hpart
      exact absurd hpart List.not_mem_nil
    · rw [hopen] at hpart
      rw [List.mem_singleton.mp hpart]
      rfl
  · exact (flushToolCalls_frame.2.2) part hpart

theorem finished_mapResponseStream (options : MapResponseStreamOptions) (events : List Event) :
    Finished (mapResponseStream options events) := by
  refine ⟨_, _, rfl, rfl, fun part hpart => ?_⟩
  rcases List.mem_append.mp hpart with hpart | hpart
  · exact isFinish_mapped events part hpart
  · exact isFinish_flush _ part hpart

theorem Attempt.isFinish_stream (h : (attempt.stream logContext).errors) :
    ∀ part ∈ (attempt.stream logContext).parts, part.isFinish = false := by
  rintro part hpart
  rw [Attempt.stream] at h hpart
  rcases hending : attempt.ending with _ | read
  · rw [hending] at h
    exact absurd h Bool.false_ne_true
  · rw [hending] at hpart
    exact isFinish_mapped attempt.events part (List.mem_of_mem_take hpart)

theorem Attempt.finished_stream (h : (attempt.stream logContext).errors = false) :
    Finished (attempt.stream logContext).parts := by
  rw [Attempt.stream] at h ⊢
  rcases hending : attempt.ending with _ | read
  · exact finished_mapResponseStream _ attempt.events
  · rw [hending] at h
    exact absurd h.symm Bool.false_ne_true

theorem Holding.run_read (holding : Holding) (h : ∀ part ∈ parts, part.isFinish = false) :
    run Holding.read holding parts = { holding with enqueued := holding.enqueued ++ parts } := by
  induction parts generalizing holding with
  | nil => rw [List.append_nil, run_nil]
  | cons part parts ih =>
    have hread : holding.read part =
        { holding with enqueued := holding.enqueued ++ [part] } :=
      if_neg (Bool.eq_false_iff.mp (h part List.mem_cons_self))
    rw [run_cons, hread, ih _ fun part' hpart' => h part' (List.mem_cons_of_mem _ hpart')]
    simp only [List.append_assoc, List.singleton_append]

theorem Holding.run_finished {last : Part} (hlast : last.isFinish)
    (h : ∀ part ∈ body, part.isFinish = false) :
    run Holding.read ⟨none, []⟩ (body ++ [last]) = ⟨some last, body⟩ := by
  rw [run_append, run_read _ h, List.nil_append, run_cons, run_nil]
  exact if_pos hlast

theorem Holding.finished_close {last : Part} (hlast : last.isFinish)
    (h : ∀ part ∈ body, part.isFinish = false) : Finished (Holding.close ⟨some last, body⟩).parts :=
  ⟨body, last, rfl, hlast, h⟩

theorem Holding.finished_retry {last : Part} (hlast : last.isFinish)
    (h : ∀ part ∈ body, part.isFinish = false) :
    Finished (Holding.retry ⟨some last, body⟩ (attempt.stream logContext)).parts := by
  rw [Holding.retry]
  rcases herrors : (attempt.stream logContext).errors with _ | _
  · obtain ⟨body', last', hparts, hlast', hbody'⟩ := Attempt.finished_stream herrors
    refine ⟨body ++ body', last', ?_, hlast', List.forall_mem_append.mpr ⟨h, hbody'⟩⟩
    rw [if_neg Bool.false_ne_true, hparts, List.append_nil, List.append_assoc]
  · refine ⟨body ++ (attempt.stream logContext).parts, last, ?_, hlast,
      List.forall_mem_append.mpr ⟨h, Attempt.isFinish_stream herrors⟩⟩
    rw [if_pos rfl, Option.toList_some]

end Streams

/-! ### Where a failure is swallowed -/

section Retry

variable {first : Attempt} {shape : RequestOptionsShape} {n m : ℕ}

theorem doStream_of_errors (second : Option Attempt)
    (h : (first.stream ⟨shape, false, none, n⟩).errors) :
    doStream shape n m first second = ⟨(first.stream ⟨shape, false, none, n⟩).parts, false⟩ := by
  rw [doStream, if_pos h, Holding.run_read _ (Attempt.isFinish_stream h), Holding.close,
    Option.toList_none, List.append_nil, List.nil_append]

theorem finished_doStream (second : Option Attempt)
    (h : (first.stream ⟨shape, false, none, n⟩).errors = false) :
    Finished (doStream shape n m first second).parts := by
  obtain ⟨body, last, hparts, hlast, hbody⟩ := Attempt.finished_stream h
  have hclose := Holding.finished_close hlast hbody
  rw [doStream, if_neg (Bool.eq_false_iff.mp h), hparts, Holding.run_finished hlast hbody]
  split
  next => exact hclose
  next cls _ =>
    split_ifs
    · rcases second with _ | second
      · exact hclose
      · exact Holding.finished_retry hlast hbody
    · exact hclose

/-- **The consumer learns how the stream ended exactly if** the first attempt ends, or an error is
read of it. -/
theorem concluded_iff (shape : RequestOptionsShape) (n m : ℕ) (first : Attempt)
    (second : Option Attempt) :
    (doStream shape n m first second).Concluded ↔ first.ending = .closed ∨
      ∃ part ∈ (first.stream ⟨shape, false, none, n⟩).parts, part.isError := by
  have hending : first.ending = .closed ↔
      (first.stream ⟨shape, false, none, n⟩).errors = false := by
    rw [Attempt.stream]
    rcases first.ending with _ | read
    · exact iff_of_true rfl rfl
    · exact iff_of_false (by rintro ⟨⟩) Bool.true_eq_false_eq_False.elim
  rcases herrors : (first.stream ⟨shape, false, none, n⟩).errors with _ | _
  · exact iff_of_true (.inr (.inr (finished_doStream second herrors)))
      (.inl (hending.mpr herrors))
  · rw [hending, herrors, doStream_of_errors second herrors]
    constructor
    · rintro (hfalse | herror | ⟨body, last, hparts, hlast, -⟩)
      · exact absurd hfalse Bool.false_ne_true
      · exact .inr herror
      · -- nothing of what was read finishes the stream
        have hfinish := Attempt.isFinish_stream herrors last
          (hparts ▸ List.mem_append_right body (List.mem_singleton_self last))
        exact absurd (hlast.symm.trans hfinish) Bool.true_eq_false_eq_False.elim
    · rintro (hfalse | herror)
      · exact absurd hfalse.symm Bool.false_ne_true
      · exact .inr (.inl herror)

def cutOff : Attempt where
  events := [.outputTextDelta (js "Let")]
  snapshot := ⟨2, true, some .error⟩
  ending := .errored 2

/-- **A text that is cut off by an error simply ends.** -/
theorem not_concluded : ¬∀ (shape : RequestOptionsShape) (n m : ℕ) (first : Attempt)
    (second : Option Attempt), (doStream shape n m first second).Concluded := by
  intro h
  have hparts : (doStream ⟨false, false⟩ 1 2 cutOff none).parts =
      [.textStart (js "text_0"), .textDelta (js "text_0") (js "Let")] := by decide
  rcases h ⟨false, false⟩ 1 2 cutOff none with hfalse | ⟨part, hpart, herror⟩ | hfinished
  · revert hfalse
    decide
  · revert part
    decide
  · obtain ⟨body, last, hlast, hfinish, -⟩ := hfinished
    have hmem : last ∈ (doStream ⟨false, false⟩ 1 2 cutOff none).parts :=
      hlast ▸ List.mem_append_right body (List.mem_singleton_self last)
    have hnone : ∀ part ∈ (doStream ⟨false, false⟩ 1 2 cutOff none).parts,
        part.isFinish = false := by decide
    exact absurd (hfinish.symm.trans (hnone last hmem)) Bool.true_eq_false_eq_False.elim

end Retry

end OpenCms.Codex
