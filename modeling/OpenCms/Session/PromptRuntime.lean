import OpenCms.Lib.Runs
import Mathlib.Data.List.Nodup

/-!
# The prompt runtime of a session

A session has one slot, and a prompt that is answered holds it: `start` registers a run in it,
`finish` gives it back. A new prompt either takes the slot with `replace`, which aborts the run that
holds it, or waits for it with `waitForSlot`, whose promise the next `finish` of the run that then
holds the slot resolves.

What is waited for stands in the entry of the run, and an entry is replaced while the finishes of
older runs still arrive. So the invariant `OpenCms.PromptRuntime.Inv` says who owns a waiter: the
promises not resolved yet are those in the entry that is registered, and there is none without an
entry. A run that no one has aborted and that is not finished is the one registered.
-/

namespace OpenCms.PromptRuntime

/-- Why a run is aborted. -/
inductive CancelReason
  | manualStop | rateLimitFallback | monitorWatchdog | instanceDispose | replace | sessionSwitch
  | killswitch | parentAbort | runawayGuard | unknown
  deriving DecidableEq, Repr

inductive Status
  | idle | retry | busy
  deriving DecidableEq, Repr

/-- What is registered for a session. The `AbortController` and the promises are named by their
numbers in the world. -/
structure RuntimeEntry (ι κ : Type*) where
  runID : ι
  abort : ℕ
  callbacks : List κ
  slotWaiters : List ℕ
  deriving DecidableEq, Repr

/-- A run that `start` has returned, by its controller: the reason its signal was aborted for, and
whether it has given the slot back. -/
structure Runtime (ι : Type*) where
  runID : ι
  aborted : Option CancelReason := none
  finished : Bool := false
  deriving DecidableEq, Repr

/-- The entry of the session, the runs it has had, and the promises that `waitForSlot` has returned,
each by how often it was resolved. -/
structure World (ι κ : Type*) where
  entry : Option (RuntimeEntry ι κ) := none
  runs : List (Runtime ι) := []
  promises : List ℕ := []
  status : Status := .idle
  deriving DecidableEq, Repr

/-- The calls. The identifier that `start` makes up is drawn, and whether a child of the session is
running is asked, from outside. -/
inductive Call (ι κ : Type*)
  | start (runID : ι) (replace : Bool)
  | waitForSlot
  | enqueueCallback (callback : κ)
  | cancel (reason : CancelReason)
  | finish (runID : ι) (activeChild : Bool)
  deriving DecidableEq, Repr

variable {ι κ : Type*}

/-! ### The calls -/

def abort (i : ℕ) (reason : CancelReason) (runs : List (Runtime ι)) : List (Runtime ι) :=
  runs.modify i fun r => { r with aborted := r.aborted.or (some reason) }

def register (w : World ι κ) (runID : ι) (callbacks : List κ) (slotWaiters : List ℕ) : World ι κ :=
  { w with
    entry := some { runID, abort := w.runs.length, callbacks, slotWaiters }
    runs := w.runs ++ [{ runID }] }

def start (w : World ι κ) (runID : ι) (replace : Bool) : World ι κ × Option ℕ :=
  match w.entry with
  | some current =>
    if replace then
      let aborted := { w with runs := abort current.abort .replace w.runs }
      (register aborted runID current.callbacks current.slotWaiters, some w.runs.length)
    else (w, none)
  | none => (register w runID [] [], some w.runs.length)

def waitForSlot (w : World ι κ) : World ι κ × ℕ :=
  match w.entry with
  | none => ({ w with promises := w.promises ++ [1] }, w.promises.length)
  | some current =>
    ({ w with
       entry := some { current with slotWaiters := current.slotWaiters ++ [w.promises.length] }
       promises := w.promises ++ [0] }, w.promises.length)

/-- `enqueueCallback`, which throws when nothing is registered. -/
def enqueueCallback (w : World ι κ) (callback : κ) : Option (World ι κ) :=
  w.entry.map fun current =>
    { w with entry := some { current with callbacks := current.callbacks ++ [callback] } }

def cancel (w : World ι κ) (reason : CancelReason) : World ι κ :=
  match w.entry with
  | none => { w with status := .idle }
  | some current => { w with runs := abort current.abort reason w.runs }

def resolve (waiters promises : List ℕ) : List ℕ :=
  waiters.foldl (fun promises p => promises.modify p (· + 1)) promises

def finish [DecidableEq ι] (w : World ι κ) (runID : ι) (activeChild : Bool) : World ι κ :=
  match w.entry with
  | none => if w.status = .idle then w else { w with status := .idle }
  | some current =>
    if current.runID = runID then
      { entry := none
        runs := w.runs.modify current.abort fun r => { r with finished := true }
        promises := resolve current.slotWaiters w.promises
        status := if activeChild then w.status else .idle }
    else w

def step [DecidableEq ι] (w : World ι κ) : Call ι κ → World ι κ
  | .start runID replace => (start w runID replace).1
  | .waitForSlot => (waitForSlot w).1
  | .enqueueCallback callback => (enqueueCallback w callback).getD w
  | .cancel reason => cancel w reason
  | .finish runID activeChild => finish w runID activeChild

/-! ### What is kept -/

def World.Active (w : World ι κ) (i : ℕ) : Prop :=
  ∃ r, w.runs[i]? = some r ∧ r.aborted = none ∧ r.finished = false

/-- **One runtime for a session**: a run that holds on is the one registered. -/
def World.OneRuntime (w : World ι κ) : Prop :=
  ∀ i, w.Active i → ∃ e, w.entry = some e ∧ e.abort = i

/-- The call gives the slot back: it finishes the run that holds it. -/
def Releases (w : World ι κ) (c : Call ι κ) : Prop :=
  ∃ e activeChild, w.entry = some e ∧ c = .finish e.runID activeChild

/-- A call for a run that does not hold the slot: one that was replaced, or that no one knows. -/
def Foreign (w : World ι κ) (runID : ι) : Prop := ∀ e, w.entry = some e → e.runID ≠ runID

/-- **No promise is forgotten**: those not resolved are the waiters of the run registered, each one
once, and no promise is resolved twice. -/
structure Inv (w : World ι κ) : Prop where
  registered : ∀ e, w.entry = some e → e.abort < w.runs.length
  one : w.OneRuntime
  waiting : ∀ e, w.entry = some e →
    e.slotWaiters.Nodup ∧ ∀ p ∈ e.slotWaiters, w.promises[p]? = some 0
  owned : ∀ p : ℕ, w.promises[p]? = some 0 → ∃ e, w.entry = some e ∧ p ∈ e.slotWaiters
  once : ∀ p n : ℕ, w.promises[p]? = some n → n ≤ 1

variable {w : World ι κ} {i j p n : ℕ} {runID : ι} {reason : CancelReason}

/-! ### Single calls -/

theorem getElem?_resolve (waiters promises : List ℕ) :
    (resolve waiters promises)[p]? = promises[p]?.map (· + waiters.count p) := by
  induction waiters generalizing promises with
  | nil => exact Option.map_id'.symm
  | cons q waiters ih =>
    rw [resolve, List.foldl_cons, ← resolve, ih]
    rcases eq_or_ne q p with rfl | hne
    · rw [List.getElem?_modify_eq, List.count_cons_self]
      cases promises[q]? with
      | none => rfl
      | some n =>
        show some (n + 1 + waiters.count q) = some (n + (waiters.count q + 1))
        rw [Nat.add_assoc, Nat.add_comm 1]
    · rw [List.getElem?_modify_ne _ _ hne, List.count_cons_of_ne hne]

theorem active_abort {runs : List (Runtime ι)} {r : Runtime ι}
    (h : (abort i reason runs)[j]? = some r) (hr : r.aborted = none) :
    j ≠ i ∧ runs[j]? = some r := by
  rw [abort] at h
  rcases eq_or_ne i j with rfl | hne
  · rw [List.getElem?_modify_eq] at h
    obtain ⟨r', -, rfl⟩ := Option.map_eq_some_iff.mp h
    cases hr' : r'.aborted <;> simp [hr'] at hr
  · rw [List.getElem?_modify_ne _ _ hne] at h
    exact ⟨hne.symm, h⟩

theorem length_abort (runs : List (Runtime ι)) :
    (abort i reason runs).length = runs.length := List.length_modify ..

theorem finish_foreign [DecidableEq ι] (h : Foreign w runID) (activeChild : Bool) :
    (finish w runID activeChild).entry = w.entry ∧ (finish w runID activeChild).runs = w.runs ∧
      (finish w runID activeChild).promises = w.promises := by
  rw [finish]
  split
  next hnone =>
    split
    · exact ⟨rfl, rfl, rfl⟩
    · exact ⟨rfl, rfl, rfl⟩
  next current hcurrent =>
    rw [if_neg (h current hcurrent)]
    exact ⟨rfl, rfl, rfl⟩

theorem finish_registered [DecidableEq ι] {e : RuntimeEntry ι κ} (he : w.entry = some e)
    (activeChild : Bool) : finish w e.runID activeChild =
      { entry := none
        runs := w.runs.modify e.abort fun r => { r with finished := true }
        promises := resolve e.slotWaiters w.promises
        status := if activeChild then w.status else .idle } := by
  rw [finish]
  simp only [he, if_pos]

/-! ### The invariant -/

theorem Inv.of_start (status : Status) : Inv ({ status := status } : World ι κ) where
  registered := by rintro e ⟨⟩
  one := by
    rintro i ⟨r, hr, -⟩
    exact absurd hr (by simp)
  waiting := by rintro e ⟨⟩
  owned p hp := absurd hp (by simp)
  once p n hp := absurd hp (by simp)

theorem Inv.register (h : Inv w) {runs : List (Runtime ι)} {callbacks : List κ}
    {waiters : List ℕ}
    (hruns : ∀ (i : ℕ) (r : Runtime ι), runs[i]? = some r → r.aborted = none → r.finished = true)
    (hwaiting : waiters.Nodup ∧ ∀ p ∈ waiters, w.promises[p]? = some 0)
    (howned : ∀ p : ℕ, w.promises[p]? = some 0 → p ∈ waiters) :
    Inv (register { w with runs } runID callbacks waiters) where
  registered := by
    rintro e ⟨⟩
    show runs.length < (runs ++ [_]).length
    rw [List.length_append, List.length_singleton]
    omega
  one := by
    rintro i ⟨r, hr, haborted, hfinished⟩
    rcases getElem?_concat hr with hold | ⟨rfl, -⟩
    · rw [hruns i r hold haborted] at hfinished
      exact absurd hfinished (by rintro ⟨⟩)
    · exact ⟨_, rfl, rfl⟩
  waiting := by
    rintro e ⟨⟩
    exact hwaiting
  owned p hp := ⟨_, rfl, howned p hp⟩
  once := h.once

theorem Inv.start (h : Inv w) (runID : ι) (replace : Bool) : Inv (start w runID replace).1 := by
  rw [PromptRuntime.start]
  split
  next current hcurrent =>
    split
    next =>
      refine h.register (fun i r hr haborted => ?_) (h.waiting current hcurrent) fun p hp => ?_
      · -- the run that held on is the one that `replace` aborts
        obtain ⟨hne, hr⟩ := active_abort hr haborted
        by_contra hfinished
        obtain ⟨e, he, rfl⟩ := h.one i ⟨r, hr, haborted, eq_false_of_ne_true hfinished⟩
        exact hne (congrArg RuntimeEntry.abort (Option.some.inj (he.symm.trans hcurrent)))
      · obtain ⟨e, he, hmem⟩ := h.owned p hp
        obtain rfl := Option.some.inj (he.symm.trans hcurrent)
        exact hmem
    next => exact h
  next hnone =>
    refine h.register (fun i r hr haborted => ?_) ⟨List.nodup_nil, by rintro p ⟨⟩⟩ fun p hp => ?_
    · by_contra hfinished
      obtain ⟨e, he, -⟩ := h.one i ⟨r, hr, haborted, eq_false_of_ne_true hfinished⟩
      exact absurd (hnone.symm.trans he) (by rintro ⟨⟩)
    · obtain ⟨e, he, -⟩ := h.owned p hp
      exact absurd (hnone.symm.trans he) (by rintro ⟨⟩)

theorem Inv.waitForSlot (h : Inv w) : Inv (waitForSlot w).1 := by
  rw [PromptRuntime.waitForSlot]
  split
  next hnone =>
    exact {
      registered := h.registered
      one := h.one
      waiting := fun e he => absurd (hnone.symm.trans he) (by rintro ⟨⟩)
      owned := by
        intro p hp
        rcases getElem?_concat hp with hold | ⟨-, hone⟩
        · exact h.owned p hold
        · exact absurd hone Nat.one_ne_zero
      once := by
        intro p n hp
        rcases getElem?_concat hp with hold | ⟨-, rfl⟩
        · exact h.once p n hold
        · exact le_rfl }
  next current hcurrent =>
    obtain ⟨hnodup, hzero⟩ := h.waiting current hcurrent
    -- the promise is a new one, so no waiter of the entry is its
    have hnew : w.promises.length ∉ current.slotWaiters := fun hp => by
      have hsome := hzero _ hp
      rw [List.getElem?_eq_none le_rfl] at hsome
      exact absurd hsome (by rintro ⟨⟩)
    exact {
      registered := by
        rintro e ⟨⟩
        exact h.registered current hcurrent
      one := by
        intro i hi
        obtain ⟨e, he, rfl⟩ := h.one i hi
        obtain rfl := Option.some.inj (he.symm.trans hcurrent)
        exact ⟨_, rfl, rfl⟩
      waiting := by
        rintro e ⟨⟩
        refine ⟨List.nodup_append.mpr ⟨hnodup, List.pairwise_singleton _ _, ?_⟩, fun p hp => ?_⟩
        · rintro p hp q hq rfl
          rw [List.mem_singleton.mp hq] at hp
          exact hnew hp
        · rcases List.mem_append.mp hp with hp | hp
          · exact getElem?_of_isPrefix (List.prefix_append _ _) (hzero p hp)
          · rw [List.mem_singleton.mp hp]
            exact List.getElem?_concat_length
      owned := by
        intro p hp
        refine ⟨_, rfl, List.mem_append.mpr ?_⟩
        rcases getElem?_concat hp with hold | ⟨rfl, -⟩
        · obtain ⟨e, he, hmem⟩ := h.owned p hold
          obtain rfl := Option.some.inj (he.symm.trans hcurrent)
          exact Or.inl hmem
        · exact Or.inr (List.mem_singleton_self _)
      once := by
        intro p n hp
        rcases getElem?_concat hp with hold | ⟨-, rfl⟩
        · exact h.once p n hold
        · exact Nat.zero_le 1 }

theorem Inv.enqueueCallback (h : Inv w) (callback : κ) :
    Inv ((enqueueCallback w callback).getD w) := by
  rw [PromptRuntime.enqueueCallback]
  cases hentry : w.entry with
  | none => exact h
  | some current =>
    exact {
      registered := by
        rintro e ⟨⟩
        exact h.registered current hentry
      one := by
        intro i hi
        obtain ⟨e, he, rfl⟩ := h.one i hi
        obtain rfl := Option.some.inj (he.symm.trans hentry)
        exact ⟨_, rfl, rfl⟩
      waiting := by
        rintro e ⟨⟩
        exact h.waiting current hentry
      owned := by
        intro p hp
        obtain ⟨e, he, hmem⟩ := h.owned p hp
        obtain rfl := Option.some.inj (he.symm.trans hentry)
        exact ⟨_, rfl, hmem⟩
      once := h.once }

theorem Inv.cancel (h : Inv w) (reason : CancelReason) : Inv (cancel w reason) := by
  rw [PromptRuntime.cancel]
  split
  next => exact ⟨h.registered, h.one, h.waiting, h.owned, h.once⟩
  next current hcurrent =>
    refine ⟨fun e he => ?_, ?_, h.waiting, h.owned, h.once⟩
    · show e.abort < (abort current.abort reason w.runs).length
      rw [length_abort]
      exact h.registered e he
    · rintro i ⟨r, hr, haborted, hfinished⟩
      exact h.one i ⟨r, (active_abort hr haborted).2, haborted, hfinished⟩

theorem Inv.finish [DecidableEq ι] (h : Inv w) (runID : ι) (activeChild : Bool) :
    Inv (finish w runID activeChild) := by
  by_cases hrun : Foreign w runID
  · obtain ⟨hentry, hruns, hpromises⟩ := finish_foreign hrun activeChild
    refine ⟨?_, ?_, ?_, ?_, ?_⟩
    · rw [hentry, hruns]
      exact h.registered
    · rw [World.OneRuntime, hentry]
      simp only [World.Active, hruns]
      exact h.one
    · rw [hentry, hpromises]
      exact h.waiting
    · rw [hentry, hpromises]
      exact h.owned
    · rw [hpromises]
      exact h.once
  · obtain ⟨e, he, hid⟩ : ∃ e, w.entry = some e ∧ e.runID = runID := by
      simpa [Foreign] using hrun
    obtain ⟨hnodup, hzero⟩ := h.waiting e he
    rw [← hid, finish_registered he]
    exact {
      registered := by rintro e ⟨⟩
      one := by
        rintro i ⟨r, hr, haborted, hfinished⟩
        replace hr : (w.runs.modify e.abort fun r => { r with finished := true })[i]? = some r := hr
        rcases eq_or_ne e.abort i with rfl | hne
        · rw [List.getElem?_modify_eq] at hr
          obtain ⟨r', -, rfl⟩ := Option.map_eq_some_iff.mp hr
          exact absurd hfinished (by rintro ⟨⟩)
        · rw [List.getElem?_modify_ne _ _ hne] at hr
          obtain ⟨e', he', rfl⟩ := h.one i ⟨r, hr, haborted, hfinished⟩
          exact absurd (congrArg RuntimeEntry.abort (Option.some.inj (he.symm.trans he'))) hne
      waiting := by rintro e ⟨⟩
      owned := by
        intro p hp
        replace hp : (resolve e.slotWaiters w.promises)[p]? = some 0 := hp
        rw [getElem?_resolve] at hp
        obtain ⟨n, hn, hsum⟩ := Option.map_eq_some_iff.mp hp
        obtain rfl : n = 0 := by omega
        obtain ⟨e', he', hmem⟩ := h.owned p hn
        obtain rfl := Option.some.inj (he.symm.trans he')
        have hpos := List.count_pos_iff.mpr hmem
        omega
      once := by
        intro p n hp
        replace hp : (resolve e.slotWaiters w.promises)[p]? = some n := hp
        rw [getElem?_resolve] at hp
        obtain ⟨m, hm, hsum⟩ := Option.map_eq_some_iff.mp hp
        have hle := h.once p m hm
        by_cases hmem : p ∈ e.slotWaiters
        · obtain rfl := Option.some.inj (hm.symm.trans (hzero p hmem))
          have hcount := List.nodup_iff_count_le_one.mp hnodup p
          omega
        · have hcount := List.count_eq_zero.mpr hmem
          omega }

theorem Inv.step [DecidableEq ι] (h : Inv w) (c : Call ι κ) : Inv (step w c) := by
  cases c with
  | start runID replace => exact h.start runID replace
  | waitForSlot => exact h.waitForSlot
  | enqueueCallback callback => exact h.enqueueCallback callback
  | cancel reason => exact h.cancel reason
  | finish runID activeChild => exact h.finish runID activeChild

/-! ### What becomes of a promise -/

theorem step_waits [DecidableEq ι] {c : Call ι κ} (h : ¬Releases w c) :
    w.promises <+: (step w c).promises := by
  cases c with
  | start runID replace =>
    show w.promises <+: (start w runID replace).1.promises
    rw [start]
    split
    · split <;> exact List.prefix_rfl
    · exact List.prefix_rfl
  | waitForSlot =>
    show w.promises <+: (waitForSlot w).1.promises
    rw [waitForSlot]
    split <;> exact List.prefix_append _ _
  | enqueueCallback callback =>
    show w.promises <+: ((enqueueCallback w callback).getD w).promises
    rw [enqueueCallback]
    cases w.entry <;> exact List.prefix_rfl
  | cancel reason =>
    show w.promises <+: (cancel w reason).promises
    rw [cancel]
    split <;> exact List.prefix_rfl
  | finish runID activeChild =>
    show w.promises <+: (finish w runID activeChild).promises
    have hforeign : Foreign w runID := fun e he hid => h ⟨e, activeChild, he, by rw [hid]⟩
    rw [(finish_foreign hforeign activeChild).2.2]

theorem waits_run [DecidableEq ι] {calls : List (Call ι κ)}
    (h : Meets step (fun w c => ¬Releases w c) w calls) (hp : w.promises[p]? = some n) :
    (run step w calls).promises[p]? = some n := by
  refine h.invariant (fun w => w.promises[p]? = some n) hp fun w c hp hc => ?_
  exact getElem?_of_isPrefix (step_waits hc) hp

theorem resolved_run [DecidableEq ι] (h : Inv w) (hp : w.promises[p]? = some 1)
    (calls : List (Call ι κ)) : (run step w calls).promises[p]? = some 1 := by
  refine (run_invariant (fun w => Inv w ∧ w.promises[p]? = some 1) ⟨h, hp⟩ ?_ calls).2
  rintro w c ⟨h, hp⟩
  refine ⟨h.step c, ?_⟩
  by_cases hrel : Releases w c
  · obtain ⟨e, activeChild, he, rfl⟩ := hrel
    have hmem : p ∉ e.slotWaiters := fun hmem =>
      absurd ((h.waiting e he).2 p hmem) (by rw [hp]; rintro ⟨⟩)
    show (finish w e.runID activeChild).promises[p]? = some 1
    rw [finish_registered he, getElem?_resolve, hp, List.count_eq_zero.mpr hmem]
    rfl
  · exact getElem?_of_isPrefix (step_waits hrel) hp

theorem resolved_of_releases [DecidableEq ι] {c : Call ι κ} (h : Inv w) (hc : Releases w c)
    (hp : w.promises[p]? = some 0) :
    (step w c).promises[p]? = some 1 ∧ (step w c).entry = none := by
  obtain ⟨e, activeChild, he, rfl⟩ := hc
  obtain ⟨e', he', hmem⟩ := h.owned p hp
  obtain rfl := Option.some.inj (he.symm.trans he')
  have hcount : e.slotWaiters.count p = 1 :=
    List.count_eq_one_of_mem (h.waiting e he).1 hmem
  show (finish w e.runID activeChild).promises[p]? = some 1 ∧
    (finish w e.runID activeChild).entry = none
  rw [finish_registered he]
  refine ⟨?_, rfl⟩
  show (resolve e.slotWaiters w.promises)[p]? = some 1
  rw [getElem?_resolve, hp, hcount]
  rfl

theorem waitForSlot_waits (h : w.entry ≠ none) :
    (waitForSlot w).1.promises[(waitForSlot w).2]? = some 0 := by
  rw [waitForSlot]
  split
  next hnone => exact absurd hnone h
  next => exact List.getElem?_concat_length

/-- What is promised to who waits, from the world in which the promise `p` was returned on: it
waits, with a run registered, until the first finish of the run that then holds the slot; that one
resolves it and leaves the slot free; and it is never resolved again. -/
def Served [DecidableEq ι] (w : World ι κ) (p : ℕ) : Prop :=
  ∀ calls, Meets step (fun w c => ¬Releases w c) w calls →
    ((run step w calls).promises[p]? = some 0 ∧ (run step w calls).entry ≠ none) ∧
    ∀ c, Releases (run step w calls) c →
      (step (run step w calls) c).promises[p]? = some 1 ∧
      (step (run step w calls) c).entry = none ∧
      ∀ later, (run step (step (run step w calls) c) later).promises[p]? = some 1

/-- **One runtime for each session, and no stranded waiter**: after every run of calls, a run that
is neither aborted nor finished is the one registered, so that there is at most one; a finish for
another run changes neither the slot nor the runs nor the promises; and a promise returned while a
run is registered is resolved once, by the finish that gives the slot back. -/
theorem one_runtime [DecidableEq ι] (status : Status) (calls : List (Call ι κ)) :
    (∀ i j, (run step { status } calls).Active i → (run step { status } calls).Active j → i = j) ∧
    (run step { status } calls).OneRuntime ∧
    (∀ runID activeChild, Foreign (run step { status } calls) runID →
      (step (run step { status } calls) (.finish runID activeChild)).entry =
        (run step { status } calls).entry ∧
      (step (run step { status } calls) (.finish runID activeChild)).runs =
        (run step { status } calls).runs ∧
      (step (run step { status } calls) (.finish runID activeChild)).promises =
        (run step { status } calls).promises) ∧
    ((run step { status } calls).entry ≠ none →
      Served (waitForSlot (run step { status } calls)).1
        (waitForSlot (run step { status } calls)).2) := by
  have h : Inv (run step ({ status } : World ι κ) calls) :=
    run_invariant Inv (Inv.of_start status) (fun w c h => h.step c) calls
  refine ⟨fun i j hi hj => ?_, h.one, fun runID activeChild hrun => ?_, fun hentry => ?_⟩
  · obtain ⟨e, he, rfl⟩ := h.one i hi
    obtain ⟨e', he', rfl⟩ := h.one j hj
    rw [Option.some.inj (he.symm.trans he')]
  · exact finish_foreign hrun activeChild
  · intro later hmeets
    have hinv : Inv (run step (waitForSlot (run step ({ status } : World ι κ) calls)).1 later) :=
      run_invariant Inv h.waitForSlot (fun w c h => h.step c) later
    have hwaits := waits_run hmeets (waitForSlot_waits hentry)
    refine ⟨⟨hwaits, fun hnone => ?_⟩, fun c hc => ?_⟩
    · obtain ⟨e, he, -⟩ := hinv.owned _ hwaits
      exact absurd (hnone.symm.trans he) (by rintro ⟨⟩)
    · obtain ⟨hone, hfree⟩ := resolved_of_releases hinv hc hwaits
      exact ⟨hone, hfree, fun later' => resolved_run (hinv.step c) hone later'⟩

end OpenCms.PromptRuntime
