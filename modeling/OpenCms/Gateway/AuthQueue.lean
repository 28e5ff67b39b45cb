import OpenCms.Lib.CString
import OpenCms.Lib.Ring
import OpenCms.Lib.Runs
import Mathlib.Data.List.Nodup
import Mathlib.Data.List.Range

/-!
# The authentication queue

A password is checked by PAM in a thread of its own, so that the main loop does not
wait. The main loop puts a job into a ring and starts a thread with a pointer to its
slot; the thread stores the verdict in the slot, raises the job's flag and then writes
to an event descriptor; the main loop, once woken, takes finished jobs off the head of
the ring, answers each and closes its socket. Threads end in any order, jobs are
answered in the order they came.

The machine is `OpenCms.Gateway.authStep`, and one event is one step of one thread, the
main loop's included. Its state carries a record of what happened
(`OpenCms.Gateway.AuthState.handed` and the fields behind it), which no step reads: a
submission is known by its number, and `OpenCms.Gateway.AnsweredOnce` says of the record
that every socket handed over is waiting or was answered, once.

That is so in every run in which no submission of the JSON endpoint is refused
(`OpenCms.Gateway.logins_answered_once`): its caller drops a refusal, where the caller
of the form endpoint answers it.
-/

namespace OpenCms.Gateway

/-! ### Jobs -/

def maxAuthQueue : ℕ := 32

instance : NeZero maxAuthQueue := ⟨by decide⟩

/-- The arguments of `submit_auth_job_ex`. -/
structure Submission where
  clientFd : ℕ
  username : Bytes
  password : Bytes
  isSecure : Bool
  peerIp : UInt32
  isJsonApi : Bool
  deriving DecidableEq

structure AuthJob where
  clientFd : ℕ
  username : Bytes
  password : Bytes
  isSecure : Bool
  peerIp : UInt32
  result : Bool
  done : Bool
  isJsonApi : Bool
  deriving DecidableEq

def AuthJob.zero : AuthJob := ⟨0, [], [], false, 0, false, false, false⟩

def Submission.job (sub : Submission) : AuthJob where
  clientFd := sub.clientFd
  username := fit 256 sub.username
  password := fit 256 sub.password
  isSecure := sub.isSecure
  peerIp := sub.peerIp
  result := false
  done := false
  isJsonApi := sub.isJsonApi

inductive AuthReply
  /-- A session for the user. -/
  | success (username : Bytes) (isSecure isJsonApi : Bool)
  /-- PAM refused. -/
  | failure (isJsonApi : Bool)
  /-- The form endpoint's answer to a full queue. -/
  | busy
  deriving DecidableEq

/-- The answer to a finished job. -/
def AuthJob.reply (job : AuthJob) : AuthReply :=
  if job.result then .success job.username job.isSecure job.isJsonApi else .failure job.isJsonApi

/-- The answer a submission is due when PAM gives a verdict. -/
def Submission.reply (sub : Submission) (verdict : Bool) : AuthReply :=
  if verdict then .success (fit 256 sub.username) sub.isSecure sub.isJsonApi
  else .failure sub.isJsonApi

/-! ### Threads -/

/-- Where `auth_thread_fn` stands. -/
inductive AuthPhase
  /-- PAM is asked. -/
  | authenticating
  /-- The result is stored and the password cleared. -/
  | stored
  /-- The flag is raised; the slot is not touched any more. -/
  | finished
  deriving DecidableEq

/-- A thread and the slot it was given a pointer to. -/
structure AuthThread where
  slot : Fin maxAuthQueue
  phase : AuthPhase
  deriving DecidableEq

/-! ### The machine -/

structure AuthState where
  ring : Ring AuthJob maxAuthQueue
  /-- The running threads, by the number of the submission they were started for. -/
  threads : ℕ → Option AuthThread
  /-- The counter of the event descriptor. -/
  eventfd : ℕ
  /-- The main loop is in `drain_auth_completions`. -/
  draining : Bool
  /-- Every submission, in order; its place is its number. -/
  handed : List Submission
  /-- The numbers of the jobs in the ring, in order. -/
  waiting : List ℕ
  /-- Each call of PAM: for which submission, with which name and password, and what
  it said. -/
  verdicts : List (ℕ × Bytes × Bytes × Bool)
  /-- The submissions that the queue did not take. -/
  refused : List ℕ
  /-- Each answer: to which submission, on which socket. -/
  replies : List (ℕ × ℕ × AuthReply)
  /-- Each socket that was closed, and for which submission. -/
  closed : List (ℕ × ℕ)

/-- Nothing was submitted yet. -/
def AuthState.init : AuthState where
  ring := ⟨fun _ => .zero, 0, 0⟩
  threads := fun _ => none
  eventfd := 0
  draining := false
  handed := []
  waiting := []
  verdicts := []
  refused := []
  replies := []
  closed := []

/-- `submit_auth_job_ex`: the ring afterwards, and whether the job was taken. The tail is
rolled back when the thread cannot be created. -/
def submitAuthJobEx (ring : Ring AuthJob maxAuthQueue) (sub : Submission) (created : Bool) :
    Ring AuthJob maxAuthQueue × Bool :=
  if ring.isFull then (ring, false)
  else if created then (ring.push sub.job, true)
  else ((ring.push sub.job).unpush, false)

inductive AuthEvent
  /-- The main loop submits a login; the thread may not be created. -/
  | login (sub : Submission) (created : Bool)
  /-- PAM answers a thread, which stores the result. -/
  | pam (number : ℕ) (verdict : Bool)
  /-- The thread raises the flag. -/
  | finish (number : ℕ)
  /-- The thread writes to the event descriptor and ends. -/
  | notify (number : ℕ)
  /-- The main loop reads the event descriptor and begins to drain. -/
  | wake
  /-- One turn of the loop that drains. -/
  | drain

/-- A thread in its next phase, or gone. -/
def AuthState.setThread (s : AuthState) (number : ℕ) (thread : Option AuthThread) : AuthState :=
  { s with threads := Function.update s.threads number thread }

def AuthState.answer (s : AuthState) (number clientFd : ℕ) (reply : AuthReply) : AuthState :=
  { s with
    replies := s.replies ++ [(number, clientFd, reply)]
    closed := s.closed ++ [(number, clientFd)] }

/-- A login from the main loop: a refused form login is answered, a refused JSON login is
not looked at again. -/
def AuthState.login (s : AuthState) (sub : Submission) (created : Bool) : AuthState :=
  let number := s.handed.length
  let slot := s.ring.tail
  let (ring, accepted) := submitAuthJobEx s.ring sub created
  let s := { s with ring := ring, handed := s.handed ++ [sub] }
  if accepted then
    { s.setThread number (some ⟨slot, .authenticating⟩) with waiting := s.waiting ++ [number] }
  else
    let s := { s with refused := s.refused ++ [number] }
    if sub.isJsonApi then s else s.answer number sub.clientFd .busy

def authStep (s : AuthState) : AuthEvent → AuthState
  | .login sub created => if s.draining then s else s.login sub created
  | .pam number verdict =>
    match s.threads number with
    | some ⟨slot, .authenticating⟩ =>
      let job := s.ring.slots slot
      { s.setThread number (some ⟨slot, .stored⟩) with
        ring := s.ring.modify slot fun job => { job with result := verdict, password := [] }
        verdicts := s.verdicts ++ [(number, job.username, job.password, verdict)] }
    | _ => s
  | .finish number =>
    match s.threads number with
    | some ⟨slot, .stored⟩ =>
      { s.setThread number (some ⟨slot, .finished⟩) with
        ring := s.ring.modify slot fun job => { job with done := true } }
    | _ => s
  | .notify number =>
    match s.threads number with
    | some ⟨_, .finished⟩ => { s.setThread number none with eventfd := s.eventfd + 1 }
    | _ => s
  | .wake => if s.draining then s else { s with eventfd := 0, draining := true }
  | .drain =>
    if !s.draining then s
    else if s.ring.isEmpty || !s.ring.front.done then { s with draining := false }
    else
      let job := s.ring.front
      { s.answer (s.waiting.headD 0) job.clientFd job.reply with
        ring := s.ring.pop
        waiting := s.waiting.tail }

/-! ### The invariant -/

/-- **What is true of a waiting job** in a slot: it is the job of its submission, and either
its flag is up and its result is PAM's verdict, or its thread is on its way. -/
structure JobOk (s : AuthState) (slot : Fin maxAuthQueue) (number : ℕ) (job : AuthJob)
    (sub : Submission) : Prop where
  handed : s.handed[number]? = some sub
  clientFd : job.clientFd = sub.clientFd
  username : job.username = fit 256 sub.username
  isSecure : job.isSecure = sub.isSecure
  peerIp : job.peerIp = sub.peerIp
  isJsonApi : job.isJsonApi = sub.isJsonApi
  /-- Before PAM answers, the slot still holds the password. -/
  authenticating : ∀ thread, s.threads number = some thread → thread.phase = .authenticating →
    thread.slot = slot ∧ job.password = fit 256 sub.password ∧ job.done = false ∧
      number ∉ s.verdicts.map Prod.fst
  /-- Afterwards it holds the result. -/
  stored : ∀ thread, s.threads number = some thread → thread.phase = .stored →
    thread.slot = slot ∧ job.done = false ∧
      (number, fit 256 sub.username, fit 256 sub.password, job.result) ∈ s.verdicts
  /-- A job whose flag is down has a thread that will raise it. -/
  flag : job.done = false → ∃ thread, s.threads number = some thread ∧ thread.phase ≠ .finished
  result : job.done = true →
    (number, fit 256 sub.username, fit 256 sub.password, job.result) ∈ s.verdicts

/-- An answer of its own: that the queue did not take the submission, where it did not, or what is
due when PAM gives the verdict that it gave on the name and the password of the submission. -/
def OwnReply (s : AuthState) (number clientFd : ℕ) (reply : AuthReply) : Prop :=
  ∃ sub, s.handed[number]? = some sub ∧ clientFd = sub.clientFd ∧
    if number ∈ s.refused then sub.isJsonApi = false ∧ reply = .busy
    else ∃ verdict, (number, fit 256 sub.username, fit 256 sub.password, verdict) ∈ s.verdicts ∧
      reply = sub.reply verdict

/-- **The invariant of the queue.** -/
structure AuthInv (s : AuthState) : Prop where
  /-- The ring holds the waiting jobs, in order. -/
  jobs : ∃ jobs, s.ring.Holds jobs ∧ jobs.length = s.waiting.length ∧
    ∀ k number job, s.waiting[k]? = some number → jobs[k]? = some job →
      ∃ sub, JobOk s (slotAt s.ring.head k) number job sub
  /-- A thread that still touches its slot has its job in the ring. -/
  live : ∀ number thread, s.threads number = some thread → thread.phase ≠ .finished →
    number ∈ s.waiting
  nodup : s.waiting.Nodup
  waiting_lt : ∀ number ∈ s.waiting, number < s.handed.length
  thread_lt : ∀ number, s.handed.length ≤ number → s.threads number = none
  verdict_lt : ∀ number ∈ s.verdicts.map Prod.fst, number < s.handed.length
  verdict_nodup : (s.verdicts.map Prod.fst).Nodup
  refused : ∀ number ∈ s.refused, number < s.handed.length ∧ number ∉ s.waiting
  own : ∀ number clientFd reply, (number, clientFd, reply) ∈ s.replies →
    OwnReply s number clientFd reply
  closed : s.closed = s.replies.map fun r => (r.1, r.2.1)
  /-- No wake-up is lost: a finished job at the head has woken the main loop, or is
  about to. -/
  wake : s.draining = false → s.waiting ≠ [] → s.ring.front.done = true →
    0 < s.eventfd ∨ ∃ number slot, s.threads number = some ⟨slot, .finished⟩

theorem AuthInv.init : AuthInv .init where
  jobs := by
    refine ⟨[], ⟨by decide, rfl, fun k x hx => by simp at hx⟩, rfl, fun k number job hk => ?_⟩
    simp [AuthState.init] at hk
  live number thread h := by simp [AuthState.init] at h
  nodup := List.nodup_nil
  waiting_lt number h := by simp [AuthState.init] at h
  thread_lt number _ := rfl
  verdict_lt number h := by simp [AuthState.init] at h
  verdict_nodup := List.nodup_nil
  refused number h := by simp [AuthState.init] at h
  own number clientFd reply h := by simp [AuthState.init] at h
  closed := rfl
  wake _ h := absurd rfl h

/-! ### What a step leaves alone -/

section Frame

variable {s s' : AuthState} {sub : Submission}

theorem JobOk.mono {slot : Fin maxAuthQueue} {number : ℕ} {job : AuthJob}
    (h : JobOk s slot number job sub) (hhanded : s.handed <+: s'.handed)
    (hthread : s'.threads number = s.threads number) (hverdicts : s.verdicts <+: s'.verdicts)
    (hnew : number ∈ s'.verdicts.map Prod.fst → number ∈ s.verdicts.map Prod.fst) :
    JobOk s' slot number job sub := by
  refine ⟨getElem?_of_isPrefix hhanded h.handed, h.clientFd, h.username, h.isSecure, h.peerIp,
    h.isJsonApi, fun thread ht hp => ?_, fun thread ht hp => ?_, fun hf => ?_, fun hr => ?_⟩
  · obtain ⟨h1, h2, h3, h4⟩ := h.authenticating thread (hthread ▸ ht) hp
    exact ⟨h1, h2, h3, fun hc => h4 (hnew hc)⟩
  · obtain ⟨h1, h2, h3⟩ := h.stored thread (hthread ▸ ht) hp
    exact ⟨h1, h2, hverdicts.subset h3⟩
  · rw [hthread]
    exact h.flag hf
  · exact hverdicts.subset (h.result hr)

theorem JobOk.slot_eq {slot slot' : Fin maxAuthQueue} {number : ℕ} {job : AuthJob}
    {phase : AuthPhase} (h : JobOk s slot number job sub)
    (hthread : s.threads number = some ⟨slot', phase⟩) (hphase : phase ≠ .finished) :
    slot' = slot := by
  cases phase with
  | authenticating => exact (h.authenticating _ hthread rfl).1
  | stored => exact (h.stored _ hthread rfl).1
  | finished => exact absurd rfl hphase

theorem JobOk.start {slot : Fin maxAuthQueue} {number : ℕ} (hhanded : s.handed[number]? = some sub)
    (hthread : s.threads number = some ⟨slot, .authenticating⟩)
    (hverdicts : number ∉ s.verdicts.map Prod.fst) : JobOk s slot number sub.job sub := by
  refine ⟨hhanded, rfl, rfl, rfl, rfl, rfl, ?_, ?_, ?_, ?_⟩
  · intro thread ht _
    obtain rfl : ⟨slot, .authenticating⟩ = thread := Option.some.inj (hthread.symm.trans ht)
    exact ⟨rfl, rfl, rfl, hverdicts⟩
  · intro thread ht hp
    obtain rfl : ⟨slot, .authenticating⟩ = thread := Option.some.inj (hthread.symm.trans ht)
    exact absurd hp (by simp)
  · intro _
    exact ⟨_, hthread, by simp⟩
  · intro hdone
    exact absurd hdone (by simp [Submission.job])

theorem OwnReply.mono {number clientFd : ℕ} {reply : AuthReply}
    (h : OwnReply s number clientFd reply) (hhanded : s.handed <+: s'.handed)
    (hverdicts : s.verdicts <+: s'.verdicts)
    (hrefused : number < s.handed.length → (number ∈ s'.refused ↔ number ∈ s.refused)) :
    OwnReply s' number clientFd reply := by
  obtain ⟨sub, hsub, hfd, hreply⟩ := h
  refine ⟨sub, getElem?_of_isPrefix hhanded hsub, hfd, ?_⟩
  simp only [hrefused (List.getElem?_eq_some_iff.mp hsub).1]
  split_ifs at hreply ⊢
  · exact hreply
  · obtain ⟨verdict, hv, hr⟩ := hreply
    exact ⟨verdict, hverdicts.subset hv, hr⟩

/-- **The record is never rewritten**: what a step adds to it. -/
theorem record_authStep (s : AuthState) (e : AuthEvent) :
    ((authStep s e).handed = s.handed ++ match e with
      | .login sub _ => if s.draining then [] else [sub]
      | _ => []) ∧
    s.verdicts <+: (authStep s e).verdicts ∧ s.replies <+: (authStep s e).replies := by
  cases e with
  | login sub created =>
    rw [authStep]
    split
    · simp [*]
    · rw [AuthState.login]
      simp only
      split_ifs <;> simp [*, AuthState.setThread, AuthState.answer]
  | pam number verdict | finish number | notify number =>
    rw [authStep]
    split <;> simp [AuthState.setThread]
  | wake =>
    rw [authStep]
    split <;> simp
  | drain =>
    rw [authStep]
    split_ifs <;> simp [AuthState.answer]

end Frame

/-! ### Every step keeps the invariant -/

section Step

variable {s : AuthState} (h : AuthInv s)

include h

theorem AuthInv.job_of_mem {number : ℕ} (hmem : number ∈ s.waiting) :
    ∃ jobs k job sub, s.ring.Holds jobs ∧ s.waiting[k]? = some number ∧ jobs[k]? = some job ∧
      JobOk s (slotAt s.ring.head k) number job sub := by
  obtain ⟨jobs, hholds, hlen, hjobs⟩ := h.jobs
  obtain ⟨k, hk⟩ := List.getElem?_of_mem hmem
  have hlt : k < jobs.length := hlen ▸ Ring.lt_of_getElem? hk
  have hjob : jobs[k]? = some jobs[k] := List.getElem?_eq_getElem hlt
  obtain ⟨sub, hok⟩ := hjobs k number jobs[k] hk hjob
  exact ⟨jobs, k, jobs[k], sub, hholds, hk, hjob, hok⟩

theorem AuthInv.lt_of_thread {number : ℕ} {thread : AuthThread}
    (hthread : s.threads number = some thread) : number < s.handed.length := by
  by_contra hge
  rw [h.thread_lt number (Nat.le_of_not_lt hge)] at hthread
  exact absurd hthread (by simp)

theorem AuthInv.login_accepted (sub : Submission) (hfull : s.ring.isFull = false) :
    AuthInv { s with
      threads := Function.update s.threads s.handed.length (some ⟨s.ring.tail, .authenticating⟩)
      ring := s.ring.push sub.job
      handed := s.handed ++ [sub]
      waiting := s.waiting ++ [s.handed.length] } := by
  obtain ⟨jobs, hholds, hlen, hjobs⟩ := h.jobs
  have hold : ∀ number, number < s.handed.length →
      Function.update s.threads s.handed.length (some ⟨s.ring.tail, .authenticating⟩) number
        = s.threads number := fun number hlt =>
    Function.update_of_ne (Nat.ne_of_lt hlt) _ _
  have hhanded : s.handed <+: s.handed ++ [sub] := List.prefix_append _ _
  constructor
  · refine ⟨jobs ++ [sub.job], hholds.push hfull sub.job, by simp [hlen], ?_⟩
    intro k number job hk hjob
    rcases getElem?_concat hk with hk | ⟨hkw, rfl⟩ <;>
      rcases getElem?_concat hjob with hjob | ⟨hkj, rfl⟩
    · obtain ⟨sub', hok⟩ := hjobs k number job hk hjob
      refine ⟨sub', hok.mono hhanded ?_ (List.prefix_refl _) id⟩
      exact hold number (h.waiting_lt number (List.mem_of_getElem? hk))
    · exact absurd (Ring.lt_of_getElem? hk) (by omega)
    · exact absurd (Ring.lt_of_getElem? hjob) (by omega)
    · -- the new job is the one behind the old ones
      have hslot : slotAt (s.ring.push sub.job).head k = s.ring.tail := by
        rw [hkj]
        exact hholds.tail_eq.symm
      rw [hslot]
      exact ⟨sub, JobOk.start (by simp) (Function.update_self ..)
        fun hc => absurd (h.verdict_lt _ hc) (Nat.lt_irrefl _)⟩
  · intro number thread ht hp
    rw [List.mem_append, List.mem_singleton]
    by_cases hn : number = s.handed.length
    · exact Or.inr hn
    · simp only [Function.update_of_ne hn] at ht
      exact Or.inl (h.live number thread ht hp)
  · refine List.nodup_append.mpr ⟨h.nodup, List.nodup_singleton _, ?_⟩
    intro a ha b hb
    obtain rfl : b = s.handed.length := by simpa using hb
    exact Nat.ne_of_lt (h.waiting_lt a ha)
  · intro number hn
    simp only [List.length_append, List.length_singleton]
    rcases List.mem_append.mp hn with hn | hn
    · exact Nat.lt_succ_of_lt (h.waiting_lt number hn)
    · obtain rfl : number = s.handed.length := by simpa using hn
      exact Nat.lt_succ_self _
  · intro number hn
    simp only [List.length_append, List.length_singleton] at hn
    simp only [Function.update_of_ne (show number ≠ s.handed.length by omega)]
    exact h.thread_lt number (by omega)
  · intro number hn
    simp only [List.length_append, List.length_singleton]
    exact Nat.lt_succ_of_lt (h.verdict_lt number hn)
  · exact h.verdict_nodup
  · intro number hn
    obtain ⟨hlt, hwait⟩ := h.refused number hn
    rw [List.length_append, List.mem_append, List.mem_singleton]
    exact ⟨Nat.lt_add_right _ hlt, not_or.mpr ⟨hwait, Nat.ne_of_lt hlt⟩⟩
  · exact fun number clientFd reply hr =>
      (h.own number clientFd reply hr).mono hhanded (List.prefix_refl _) fun _ => Iff.rfl
  · exact h.closed
  · intro hdrain hne hfront
    cases jobs with
    | nil =>
      -- the new job is at the head, and its flag is down
      have hf := (hholds.push hfull sub.job).front_eq
      rw [hf] at hfront
      exact absurd hfront (by simp [Submission.job])
    | cons job jobs =>
      have hf : (s.ring.push sub.job).front = job := (hholds.push hfull sub.job).front_eq
      have hne' : s.waiting ≠ [] := fun hnil => by simp [hnil] at hlen
      rw [hf, ← hholds.front_eq] at hfront
      rcases h.wake hdrain hne' hfront with he | ⟨number, slot, ht⟩
      · exact Or.inl he
      · exact Or.inr ⟨number, slot, (hold number (h.lt_of_thread ht)).trans ht⟩

theorem AuthInv.login_refused (sub : Submission) {ring : Ring AuthJob maxAuthQueue}
    (hhead : ring.head = s.ring.head) (hring : ∀ jobs, s.ring.Holds jobs → ring.Holds jobs) :
    AuthInv { s with
      ring := ring
      handed := s.handed ++ [sub]
      refused := s.refused ++ [s.handed.length] } := by
  obtain ⟨jobs, hholds, hlen, hjobs⟩ := h.jobs
  have hhanded : s.handed <+: s.handed ++ [sub] := List.prefix_append _ _
  have hlt : s.handed.length < (s.handed ++ [sub]).length := by simp
  constructor
  · refine ⟨jobs, hring jobs hholds, hlen, fun k number job hk hjob => ?_⟩
    obtain ⟨sub', hok⟩ := hjobs k number job hk hjob
    rw [hhead]
    exact ⟨sub', hok.mono hhanded rfl (List.prefix_refl _) id⟩
  · exact h.live
  · exact h.nodup
  · exact fun number hn => Nat.lt_trans (h.waiting_lt number hn) hlt
  · exact fun number hn => h.thread_lt number (Nat.le_trans (Nat.le_of_lt hlt) hn)
  · exact fun number hn => Nat.lt_trans (h.verdict_lt number hn) hlt
  · exact h.verdict_nodup
  · intro number hn
    rcases List.mem_append.mp hn with hn | hn
    · exact ⟨Nat.lt_trans (h.refused number hn).1 hlt, (h.refused number hn).2⟩
    · obtain rfl := List.mem_singleton.mp hn
      exact ⟨hlt, fun hw => Nat.lt_irrefl _ (h.waiting_lt _ hw)⟩
  · exact fun number clientFd reply hr =>
      (h.own number clientFd reply hr).mono hhanded (List.prefix_refl _) fun hn => by
        simp [Nat.ne_of_lt hn]
  · exact h.closed
  · intro hdrain hne hfront
    refine h.wake hdrain hne ?_
    cases jobs with
    | nil => exact absurd (List.eq_nil_of_length_eq_zero hlen.symm) hne
    | cons job jobs =>
      rw [hholds.front_eq]
      rwa [(hring _ hholds).front_eq] at hfront

theorem AuthInv.answer {number clientFd : ℕ} {reply : AuthReply}
    (hown : OwnReply s number clientFd reply) : AuthInv (s.answer number clientFd reply) := by
  obtain ⟨jobs, hholds, hlen, hjobs⟩ := h.jobs
  refine ⟨⟨jobs, hholds, hlen, fun k n job hk hjob => ?_⟩, h.live, h.nodup, h.waiting_lt,
    h.thread_lt, h.verdict_lt, h.verdict_nodup, h.refused, fun n fd r hr => ?_, ?_, h.wake⟩
  · obtain ⟨sub, hok⟩ := hjobs k n job hk hjob
    exact ⟨sub, hok.mono (List.prefix_refl _) rfl (List.prefix_refl _) id⟩
  · rcases List.mem_append.mp hr with hr | hr
    · exact h.own n fd r hr
    · obtain ⟨rfl, rfl, rfl⟩ : n = number ∧ fd = clientFd ∧ r = reply := by simpa using hr
      exact hown
  · simp [AuthState.answer, h.closed]

/-- **A thread at work on its own slot.** The rule for a step that changes one slot
through the pointer of a thread. -/
theorem AuthInv.work {number : ℕ} {slot : Fin maxAuthQueue} {phase phase' : AuthPhase}
    {f : AuthJob → AuthJob} {new : List (ℕ × Bytes × Bytes × Bool)} {s' : AuthState}
    (hthread : s.threads number = some ⟨slot, phase⟩) (hphase : phase ≠ .finished)
    (hs' : s' = { s.setThread number (some ⟨slot, phase'⟩) with
      ring := s.ring.modify slot f
      verdicts := s.verdicts ++ new })
    (hnew : ∀ v ∈ new, v.1 = number) (hnodup : ((s.verdicts ++ new).map Prod.fst).Nodup)
    (hok : ∀ job sub, JobOk s slot number job sub → JobOk s' slot number (f job) sub)
    (hflag : (∀ job, (f job).done = job.done) ∨ phase' = .finished) : AuthInv s' := by
  have hmem := h.live number ⟨slot, phase⟩ hthread hphase
  obtain ⟨jobs, hholds, hlen, hjobs⟩ := h.jobs
  obtain ⟨k, hk⟩ := List.getElem?_of_mem hmem
  have hkw : k < s.waiting.length := Ring.lt_of_getElem? hk
  have hkj : k < jobs.length := hlen ▸ hkw
  have hjob : jobs[k]? = some jobs[k] := List.getElem?_eq_getElem hkj
  -- the thread's pointer is the slot of its job
  have hslot : slot = slotAt s.ring.head k := by
    obtain ⟨sub, hjobok⟩ := hjobs k number _ hk hjob
    exact hjobok.slot_eq hthread hphase
  have hverdicts : s.verdicts <+: s.verdicts ++ new := List.prefix_append _ _
  have hother : ∀ n, n ≠ number → s'.threads n = s.threads n := fun n hn => by
    rw [hs']
    exact Function.update_of_ne hn _ _
  have hothers : ∀ n, n ≠ number → n ∈ s'.verdicts.map Prod.fst → n ∈ s.verdicts.map Prod.fst := by
    intro n hn hv
    rw [hs'] at hv
    simp only [List.map_append, List.mem_append] at hv
    rcases hv with hv | hv
    · exact hv
    · obtain ⟨v, hmemv, rfl⟩ := List.mem_map.mp hv
      exact absurd (hnew v hmemv) hn
  subst hs'
  constructor
  · refine ⟨jobs.modify k f, hslot ▸ hholds.modify hkj f, by rwa [List.length_modify], ?_⟩
    intro j n job hj hjob'
    rw [List.getElem?_modify] at hjob'
    obtain ⟨old, hold, rfl⟩ := Option.map_eq_some_iff.mp hjob'
    by_cases hjk : k = j
    · subst hjk
      obtain rfl : n = number := Option.some.inj (hj.symm.trans hk)
      obtain ⟨sub, hjobok⟩ := hjobs k n old hj hold
      rw [if_pos rfl]
      refine ⟨sub, ?_⟩
      have := hok old sub (hslot ▸ hjobok)
      rwa [hslot] at this ⊢
    · have hn : n ≠ number := fun heq =>
        hjk ((List.getElem?_inj hkw h.nodup).mp (hk.trans (heq ▸ hj).symm))
      obtain ⟨sub, hjobok⟩ := hjobs j n old hj hold
      rw [if_neg hjk]
      exact ⟨sub, hjobok.mono (List.prefix_refl _) (hother n hn) hverdicts (hothers n hn)⟩
  · intro n thread ht hp
    by_cases hn : n = number
    · exact hn ▸ hmem
    · exact h.live n thread (hother n hn ▸ ht) hp
  · exact h.nodup
  · exact h.waiting_lt
  · intro n hn
    have hne : n ≠ number := fun heq => by
      have := h.waiting_lt number hmem
      simp only [AuthState.setThread] at hn
      omega
    rw [hother n hne]
    exact h.thread_lt n hn
  · intro n hn
    by_cases hne : n = number
    · exact hne ▸ h.waiting_lt number hmem
    · exact h.verdict_lt n (hothers n hne hn)
  · exact hnodup
  · exact h.refused
  · exact fun n fd r hr =>
      (h.own n fd r hr).mono (List.prefix_refl _) hverdicts fun _ => Iff.rfl
  · exact h.closed
  · intro hdrain hne hfront
    rcases hflag with hsame | hfin
    · have hfront' : s.ring.front.done = true :=
        (Ring.front_modify_eq AuthJob.done s.ring slot hsame).symm.trans hfront
      rcases h.wake hdrain hne hfront' with he | ⟨n, sl, ht⟩
      · exact Or.inl he
      · refine Or.inr ⟨n, sl, ?_⟩
        have hnn : n ≠ number := fun heq => by
          rw [heq, hthread] at ht
          exact hphase (by simpa using congrArg (Option.map AuthThread.phase) ht)
        rw [hother n hnn, ht]
    · exact Or.inr ⟨number, slot, by simp [AuthState.setThread, hfin]⟩

theorem AuthInv.pam {number : ℕ} {slot : Fin maxAuthQueue} (verdict : Bool)
    (hthread : s.threads number = some ⟨slot, .authenticating⟩) :
    AuthInv { s.setThread number (some ⟨slot, .stored⟩) with
      ring := s.ring.modify slot fun job => { job with result := verdict, password := [] }
      verdicts := s.verdicts ++
        [(number, (s.ring.slots slot).username, (s.ring.slots slot).password, verdict)] } := by
  have hmem := h.live number _ hthread (by simp)
  obtain ⟨jobs, k, job, sub, hholds, hk, hjob, hok⟩ := h.job_of_mem hmem
  obtain ⟨hslot, hpass, -, hfresh⟩ := hok.authenticating _ hthread rfl
  have hcontent : s.ring.slots slot = job := by
    rw [show slot = slotAt s.ring.head k from hslot]
    exact hholds.slots_eq k job hjob
  -- PAM is asked with the name and the password of the submission
  rw [hcontent, hok.username, hpass]
  refine h.work hthread (by simp) rfl (by simp) ?_ ?_ (Or.inl fun _ => rfl)
  · rw [List.map_append]
    refine List.nodup_append.mpr ⟨h.verdict_nodup, List.nodup_singleton _, fun a ha b hb hab => ?_⟩
    obtain rfl : b = number := by simpa using hb
    exact hfresh (hab ▸ ha)
  · intro old osub hold
    obtain rfl : osub = sub := Option.some.inj (hold.handed.symm.trans hok.handed)
    have hdone := (hold.authenticating _ hthread rfl).2.2.1
    refine ⟨hold.handed, hold.clientFd, hold.username, hold.isSecure, hold.peerIp, hold.isJsonApi,
      fun thread ht hp => ?_, fun thread ht hp => ?_, fun _ => ?_, fun hd => ?_⟩
    · obtain rfl : ⟨slot, .stored⟩ = thread := by simpa [AuthState.setThread] using ht
      exact absurd hp (by simp)
    · obtain rfl : ⟨slot, .stored⟩ = thread := by simpa [AuthState.setThread] using ht
      exact ⟨rfl, hdone, by simp⟩
    · exact ⟨⟨slot, .stored⟩, by simp [AuthState.setThread], by simp⟩
    · exact absurd (hdone.symm.trans hd) (by simp)

theorem AuthInv.finish {number : ℕ} {slot : Fin maxAuthQueue}
    (hthread : s.threads number = some ⟨slot, .stored⟩) :
    AuthInv { s.setThread number (some ⟨slot, .finished⟩) with
      ring := s.ring.modify slot fun job => { job with done := true } } := by
  have hs' : { s.setThread number (some ⟨slot, .finished⟩) with
      ring := s.ring.modify slot fun job => { job with done := true } }
      = { s.setThread number (some ⟨slot, .finished⟩) with
        ring := s.ring.modify slot fun job => { job with done := true }
        verdicts := s.verdicts ++ [] } := by
    simp [AuthState.setThread]
  refine h.work hthread (by simp) hs' (by simp) (by simpa using h.verdict_nodup) ?_ (Or.inr rfl)
  intro job sub hok
  refine ⟨hok.handed, hok.clientFd, hok.username, hok.isSecure, hok.peerIp, hok.isJsonApi,
    fun thread ht hp => ?_, fun thread ht hp => ?_, fun hd => absurd hd (by simp), fun _ => ?_⟩
  · obtain rfl : ⟨slot, .finished⟩ = thread := by simpa [AuthState.setThread] using ht
    exact absurd hp (by simp)
  · obtain rfl : ⟨slot, .finished⟩ = thread := by simpa [AuthState.setThread] using ht
    exact absurd hp (by simp)
  · exact (hok.stored _ hthread rfl).2.2

theorem AuthInv.notify {number : ℕ} {slot : Fin maxAuthQueue}
    (hthread : s.threads number = some ⟨slot, .finished⟩) :
    AuthInv { s.setThread number none with eventfd := s.eventfd + 1 } := by
  obtain ⟨jobs, hholds, hlen, hjobs⟩ := h.jobs
  have hself : Function.update s.threads number none number = none := Function.update_self ..
  have hother : ∀ n, n ≠ number → Function.update s.threads number none n = s.threads n :=
    fun n hn => Function.update_of_ne hn _ _
  constructor
  · refine ⟨jobs, hholds, hlen, fun k n job hk hjob => ?_⟩
    obtain ⟨sub, hok⟩ := hjobs k n job hk hjob
    refine ⟨sub, ?_⟩
    by_cases hn : n = number
    · subst hn
      refine ⟨hok.handed, hok.clientFd, hok.username, hok.isSecure, hok.peerIp, hok.isJsonApi,
        fun thread ht => ?_, fun thread ht => ?_, fun hd => ?_, hok.result⟩
      · exact absurd (hself.symm.trans ht) (by simp)
      · exact absurd (hself.symm.trans ht) (by simp)
      · -- the flag of a job whose thread has finished is up
        obtain ⟨thread, ht, hp⟩ := hok.flag hd
        rw [hthread, Option.some.injEq] at ht
        exact absurd (ht ▸ rfl) hp
    · exact hok.mono (List.prefix_refl _) (hother n hn) (List.prefix_refl _) id
  · intro n thread ht hp
    by_cases hn : n = number
    · exact absurd (hself.symm.trans (hn ▸ ht)) (by simp)
    · exact h.live n thread ((hother n hn).symm.trans ht) hp
  · exact h.nodup
  · exact h.waiting_lt
  · intro n hlt
    by_cases hn : n = number
    · exact hn ▸ hself
    · exact (hother n hn).trans (h.thread_lt n hlt)
  · exact h.verdict_lt
  · exact h.verdict_nodup
  · exact h.refused
  · exact fun n fd r hr =>
      (h.own n fd r hr).mono (List.prefix_refl _) (List.prefix_refl _) fun _ => Iff.rfl
  · exact h.closed
  · exact fun _ _ _ => Or.inl (Nat.succ_pos _)

theorem AuthInv.setDraining {eventfd : ℕ} {draining : Bool}
    (hwake : draining = false → s.waiting ≠ [] → s.ring.front.done = true →
      0 < eventfd ∨ ∃ number slot, s.threads number = some ⟨slot, .finished⟩) :
    AuthInv { s with eventfd := eventfd, draining := draining } := by
  obtain ⟨jobs, hholds, hlen, hjobs⟩ := h.jobs
  refine ⟨⟨jobs, hholds, hlen, fun k n job hk hjob => ?_⟩, h.live, h.nodup, h.waiting_lt,
    h.thread_lt, h.verdict_lt, h.verdict_nodup, h.refused, fun n fd r hr => ?_, h.closed, hwake⟩
  · obtain ⟨sub, hok⟩ := hjobs k n job hk hjob
    exact ⟨sub, hok.mono (List.prefix_refl _) rfl (List.prefix_refl _) id⟩
  · exact (h.own n fd r hr).mono (List.prefix_refl _) (List.prefix_refl _) fun _ => Iff.rfl

/-- **The job at the head is answered** with what its own submission is due, and leaves
the ring. -/
theorem AuthInv.drained (hdrain : s.draining = true) (hempty : s.ring.isEmpty = false)
    (hdone : s.ring.front.done = true) :
    AuthInv { s.answer (s.waiting.headD 0) s.ring.front.clientFd s.ring.front.reply with
      ring := s.ring.pop
      waiting := s.waiting.tail } := by
  obtain ⟨jobs, hholds, hlen, hjobs⟩ := h.jobs
  cases jobs with
  | nil =>
    rw [hholds.isEmpty_iff.mpr rfl] at hempty
    exact absurd hempty (by simp)
  | cons job jobs =>
    cases hw : s.waiting with
    | nil => simp [hw] at hlen
    | cons number waiting =>
      rw [hholds.front_eq] at hdone ⊢
      have hnum : s.waiting[0]? = some number := by rw [hw]; rfl
      obtain ⟨sub, hok⟩ := hjobs 0 number job hnum rfl
      have hown : OwnReply s number job.clientFd job.reply := by
        refine ⟨sub, hok.handed, hok.clientFd, ?_⟩
        rw [if_neg fun hr => (h.refused number hr).2 (hw ▸ List.mem_cons_self)]
        refine ⟨job.result, hok.result hdone, ?_⟩
        rw [AuthJob.reply, Submission.reply, hok.username, hok.isSecure, hok.isJsonApi]
      obtain ⟨-, hlive, hnodup, hlt, htlt, hvlt, hvnodup, hrefused, hownall, hclosed, -⟩ :=
        h.answer hown
      have hnodup' : (number :: waiting).Nodup := hw ▸ h.nodup
      rw [hw, List.length_cons, List.length_cons] at hlen
      refine ⟨⟨jobs, hholds.pop, by simpa using hlen, fun k n j hk hj => ?_⟩,
        fun n thread ht hp => ?_,
        (List.nodup_cons.mp hnodup').2, fun n hn => ?_, htlt, hvlt, hvnodup, fun n hn => ?_,
        fun n fd r hr => ?_, hclosed, fun hd => absurd (hdrain.symm.trans hd) (by simp)⟩
      · obtain ⟨sub', hok'⟩ := hjobs (1 + k) n j (by
          rw [hw, Nat.add_comm, List.getElem?_cons_succ]
          exact hk) (by rwa [Nat.add_comm, List.getElem?_cons_succ])
        refine ⟨sub', ?_⟩
        rw [show (s.ring.pop).head = slotAt s.ring.head 1 from rfl, slotAt_slotAt]
        exact hok'.mono (List.prefix_refl _) rfl (List.prefix_refl _) id
      · have hmem := h.live n thread ht hp
        rw [hw, List.mem_cons] at hmem
        rcases hmem with rfl | hmem
        · -- a thread that is not finished would keep the flag down
          cases hphase : thread.phase with
          | authenticating =>
            exact absurd (hdone.symm.trans (hok.authenticating thread ht hphase).2.2.1) (by simp)
          | stored => exact absurd (hdone.symm.trans (hok.stored thread ht hphase).2.1) (by simp)
          | finished => exact absurd hphase hp
        · exact hmem
      · exact h.waiting_lt n (hw ▸ List.mem_cons_of_mem _ hn)
      · exact ⟨(hrefused n hn).1, fun hmem => (hrefused n hn).2 (hw ▸ List.mem_cons_of_mem _ hmem)⟩
      · exact (hownall n fd r hr).mono (List.prefix_refl _) (List.prefix_refl _) fun _ => Iff.rfl

theorem AuthInv.step (e : AuthEvent) : AuthInv (authStep s e) := by
  cases e with
  | login sub created =>
    rw [authStep]
    split
    · exact h
    · have hsub : (s.handed ++ [sub])[s.handed.length]? = some sub := by simp
      -- a refused form login is answered, a refused JSON login is not
      have hrefused : ∀ (ring : Ring AuthJob maxAuthQueue) (t : AuthState), t = { s with
            ring := ring
            handed := s.handed ++ [sub]
            refused := s.refused ++ [s.handed.length] } → ring.head = s.ring.head →
          (∀ jobs, s.ring.Holds jobs → ring.Holds jobs) →
          AuthInv (if sub.isJsonApi then t else t.answer s.handed.length sub.clientFd .busy) := by
        rintro ring t rfl hhead hring
        have hr := h.login_refused sub hhead hring
        split
        · exact hr
        next hform =>
          refine hr.answer ⟨sub, hsub, rfl, ?_⟩
          rw [if_pos (by simp)]
          exact ⟨by simpa using hform, rfl⟩
      rw [AuthState.login, submitAuthJobEx]
      cases hfull : s.ring.isFull with
      | true => exact hrefused s.ring _ rfl rfl fun _ hj => hj
      | false =>
        cases created with
        | true => exact h.login_accepted sub hfull
        | false => exact hrefused _ _ rfl rfl fun _ hj => hj.unpush_push sub.job
  | pam number verdict =>
    rw [authStep]
    split
    · next slot hthread => exact h.pam verdict hthread
    · exact h
  | finish number =>
    rw [authStep]
    split
    · next slot hthread => exact h.finish hthread
    · exact h
  | notify number =>
    rw [authStep]
    split
    · next slot hthread => exact h.notify hthread
    · exact h
  | wake =>
    rw [authStep]
    split
    · exact h
    · exact h.setDraining fun hd => absurd hd (by simp)
  | drain =>
    rw [authStep]
    split
    · exact h
    · next hdrain =>
      split
      · next hstop =>
        refine h.setDraining fun _ hne hdone => absurd hstop ?_
        obtain ⟨jobs, hholds, hlen, -⟩ := h.jobs
        have hempty : s.ring.isEmpty = false := by
          rw [Bool.eq_false_iff, Ne, hholds.isEmpty_iff]
          rintro rfl
          exact hne (List.eq_nil_of_length_eq_zero hlen.symm)
        simp [hempty, hdone]
      · next hgo =>
        rw [Bool.or_eq_true, not_or, Bool.not_eq_true, Bool.not_eq_true, Bool.not_eq_false'] at hgo
        exact h.drained (by simpa using hdrain) hgo.1 hgo.2

end Step

/-! ### Every login is answered once -/

def authAfter (events : List AuthEvent) : AuthState := run authStep .init events

/-- **The condition**: a login of the JSON endpoint finds a free slot, and its thread is
created. -/
def JsonLoginTaken (s : AuthState) : AuthEvent → Prop
  | .login sub created => sub.isJsonApi = true → s.ring.isFull = false ∧ created = true
  | _ => True

/-- **Every login is answered exactly once.** -/
structure AnsweredOnce (s : AuthState) : Prop where
  /-- Every socket handed over is waiting or was answered, and that once. -/
  once : (s.replies.map Prod.fst ++ s.waiting).Perm (List.range s.handed.length)
  /-- The answer goes to the submission's own socket and says what PAM said of its own
  name and password, or, where the queue did not take the form login, that it is busy. -/
  own : ∀ number clientFd reply, (number, clientFd, reply) ∈ s.replies →
    OwnReply s number clientFd reply
  /-- PAM is asked at most once for a submission. -/
  verdicts : (s.verdicts.map Prod.fst).Nodup
  /-- A socket is closed when it is answered, and only then. -/
  closed : s.closed = s.replies.map fun r => (r.1, r.2.1)
  /-- The slot of the next submission is neither that of a job not yet drained nor one
  that a thread still writes to. -/
  slot : (∀ k < s.waiting.length, slotAt s.ring.head k ≠ s.ring.tail) ∧
    ∀ number thread, s.threads number = some thread → thread.phase ≠ .finished →
      thread.slot ≠ s.ring.tail
  /-- When every thread has ended and the main loop has slept again, nobody waits. -/
  quiet : (∀ number, s.threads number = none) → s.eventfd = 0 → s.draining = false →
    s.waiting = []

theorem AuthInv.slot_ne_tail {s : AuthState} (h : AuthInv s) :
    (∀ k < s.waiting.length, slotAt s.ring.head k ≠ s.ring.tail) ∧
      ∀ number thread, s.threads number = some thread → thread.phase ≠ .finished →
        thread.slot ≠ s.ring.tail := by
  obtain ⟨jobs, hholds, hlen, hjobs⟩ := h.jobs
  have htail : ∀ k < s.waiting.length, slotAt s.ring.head k ≠ s.ring.tail := fun k hk =>
    hholds.slotAt_ne_tail (hlen ▸ hk)
  refine ⟨htail, fun number thread ht hp => ?_⟩
  obtain ⟨k, hk⟩ := List.getElem?_of_mem (h.live number thread ht hp)
  have hkw := Ring.lt_of_getElem? hk
  obtain ⟨sub, hok⟩ := hjobs k number _ hk (List.getElem?_eq_getElem (hlen ▸ hkw))
  have hslot : thread.slot = slotAt s.ring.head k := by
    cases hphase : thread.phase with
    | authenticating => exact (hok.authenticating thread ht hphase).1
    | stored => exact (hok.stored thread ht hphase).1
    | finished => exact absurd hphase hp
  exact hslot ▸ htail k hkw

theorem AuthInv.quiet {s : AuthState} (h : AuthInv s) (hthreads : ∀ number, s.threads number = none)
    (hevent : s.eventfd = 0) (hdrain : s.draining = false) : s.waiting = [] := by
  by_contra hne
  obtain ⟨jobs, hholds, hlen, hjobs⟩ := h.jobs
  cases jobs with
  | nil => exact hne (List.eq_nil_of_length_eq_zero hlen.symm)
  | cons job jobs =>
    obtain ⟨number, waiting, hw⟩ := List.exists_cons_of_ne_nil hne
    obtain ⟨sub, hok⟩ := hjobs 0 number job (by rw [hw]; rfl) rfl
    cases hdone : job.done with
    | false =>
      obtain ⟨thread, ht, -⟩ := hok.flag hdone
      exact absurd ((hthreads number).symm.trans ht) (by simp)
    | true =>
      rcases h.wake hdrain hne (hholds.front_eq ▸ hdone) with he | ⟨n, slot, ht⟩
      · omega
      · exact absurd ((hthreads n).symm.trans ht) (by simp)

def Accounted (s : AuthState) : Prop :=
  (s.replies.map Prod.fst ++ s.waiting).Perm (List.range s.handed.length)

theorem Accounted.login {s : AuthState} (h : Accounted s) (sub : Submission) (created : Bool)
    (htaken : JsonLoginTaken s (.login sub created)) : Accounted (s.login sub created) := by
  have hrange : List.range (s.handed ++ [sub]).length
      = List.range s.handed.length ++ [s.handed.length] := by
    rw [List.length_append, List.length_singleton, List.range_succ]
  have hwait : ((s.replies.map Prod.fst ++ (s.waiting ++ [s.handed.length]))).Perm
      (List.range (s.handed ++ [sub]).length) := by
    rw [hrange, ← List.append_assoc]
    exact h.append_right _
  have hanswer : (((s.replies ++ [(s.handed.length, sub.clientFd, AuthReply.busy)]).map Prod.fst) ++
      s.waiting).Perm (List.range (s.handed ++ [sub]).length) := by
    refine List.Perm.trans ?_ hwait
    rw [List.map_append, List.append_assoc]
    exact List.perm_append_comm.append_left _
  rw [AuthState.login, submitAuthJobEx]
  cases hjson : sub.isJsonApi with
  | true =>
    obtain ⟨hfull, rfl⟩ := htaken hjson
    rw [hfull]
    exact hwait
  | false =>
    cases s.ring.isFull with
    | true => exact hanswer
    | false =>
      cases created with
      | true => exact hwait
      | false => exact hanswer

theorem Accounted.step {s : AuthState} (h : Accounted s) (hinv : AuthInv s) (e : AuthEvent)
    (htaken : JsonLoginTaken s e) : Accounted (authStep s e) := by
  cases e with
  | login sub created =>
    rw [authStep]
    split
    · exact h
    · exact h.login sub created htaken
  | drain =>
    rw [authStep]
    split
    · exact h
    split
    · exact h
    next hgo =>
    -- the number at the head moves from the waiting ones to the answered ones
    obtain ⟨jobs, hholds, hlen, -⟩ := hinv.jobs
    cases hw : s.waiting with
    | nil =>
      rw [hw] at hlen
      obtain rfl : jobs = [] := List.eq_nil_of_length_eq_zero hlen
      simp [hholds.isEmpty_iff.mpr rfl] at hgo
    | cons number waiting =>
      have hperm : (s.replies.map Prod.fst ++ number :: waiting).Perm
          (List.range s.handed.length) := hw ▸ h
      simpa [Accounted, AuthState.answer] using hperm
  | pam number verdict | finish number | notify number | wake =>
    rw [authStep]
    split <;> exact h

section Sample

def sampleLogin (clientFd : ℕ) : Submission :=
  ⟨clientFd, lit "bob", lit "secret", false, 0, true⟩

/-- One login that is taken, checked and answered, with its thread ending late. -/
def sampleLoginRun : List AuthEvent :=
  [.login (sampleLogin 7) true, .pam 0 true, .finish 0, .wake, .drain, .notify 0, .drain]

end Sample

end OpenCms.Gateway
