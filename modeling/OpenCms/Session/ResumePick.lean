import Mathlib.Data.List.Infix
import Mathlib.Data.List.Pairwise
import Mathlib.Data.List.Sort

/-!
# Which sessions are resumed

The supervisor resumes a few of the sessions that wait. `pickPendingContinuationsForResume` sorts
those that can be resumed, takes the preferred one first, then the first one of each provider
family, and fills up with the others. What it returns is fair in the sense of
`OpenCms.ResumePick.FairPick`, except that a preferred session without a family is taken again when
the families are gone through, if there is room for it (`OpenCms.ResumePick.fairPick_iff`).
-/

namespace OpenCms.ResumePick

/-! ### Candidates -/

inductive WorkflowState
  | idle
  | running
  | waiting_user
  | blocked
  | completed
  deriving DecidableEq

/-- `summary.health`, in the order of `healthRankForResume`. -/
inductive Health
  | healthy
  | queued
  | paused
  | degraded
  | blocked
  | completed
  deriving DecidableEq

inductive StatusType
  | idle
  | busy
  | retry
  deriving DecidableEq

structure Supervisor where
  leaseOwner : Option String
  leaseExpiresAt : Option ℤ
  retryAt : Option ℤ
  consecutiveResumeFailures : Option ℤ
  deriving DecidableEq

structure Workflow where
  enabled : Bool
  state : WorkflowState
  stopReason : Option String
  lastRunAt : Option ℤ
  supervisor : Option Supervisor
  deriving DecidableEq

/-- `AutonomousWorkflowHealth`, but for its summary. -/
structure WorkflowHealth where
  state : WorkflowState
  stopReason : Option String
  supervisor : Supervisor
  deriving DecidableEq

structure Budget where
  family : String
  waitTimeMs : ℤ
  deriving DecidableEq

structure ResumeCandidate where
  sessionID : String
  createdAt : ℤ
  triggerType : Option String
  scheduled : Bool
  workflow : Option Workflow
  status : StatusType
  inFlight : Bool
  /-- With `summary.health`. -/
  health : Option (WorkflowHealth × Health)
  budget : Option Budget
  deriving DecidableEq

def defaultWorkflow : Workflow := ⟨false, .waiting_user, none, none, some ⟨none, none, none, none⟩⟩

/-! ### Who can be resumed -/

def NON_RESUMABLE_WAITING_REASONS : List String :=
  ["approval_needed", "product_decision_needed", "mission_not_approved", "mission_not_consumable",
    "max_continuous_rounds", "manual_interrupt", "risk_review_needed"]

inductive BlockReason
  | dormant_scheduled
  | in_flight
  | status_busy
  | status_retry
  | autonomous_disabled
  | workflow_blocked
  | workflow_completed
  | waiting_user_non_resumable (stopReason : String)
  | supervisor_retry_backoff
  | supervisor_foreign_lease

/-- `summarizeAutonomousWorkflowHealth({ workflow })`, but for its summary. -/
def summarizeAutonomousWorkflowHealth (workflow : Workflow) : WorkflowHealth :=
  ⟨workflow.state, workflow.stopReason, workflow.supervisor.getD ⟨none, none, none, none⟩⟩

/-- `inspectPendingContinuationResumability(…).blockedReasons`. -/
def blockedReasons (owner : String) (now : ℤ) (item : ResumeCandidate) : List BlockReason :=
  let isTaskCompletion :=
    item.triggerType = some "task_completion" ∨ item.triggerType = some "task_failure"
  let workflow := item.workflow.getD defaultWorkflow
  let health := (item.health.map Prod.fst).getD (summarizeAutonomousWorkflowHealth workflow)
  let supervisor := health.supervisor
  let leaseOwner := supervisor.leaseOwner.filter (· ≠ "")
  (if item.scheduled then [BlockReason.dormant_scheduled] else []) ++
  (if item.inFlight then [.in_flight] else []) ++
  (if item.status = .busy then [.status_busy] else []) ++
  (if item.status = .retry then [.status_retry] else []) ++
  (if ¬isTaskCompletion ∧ workflow.enabled = false then [.autonomous_disabled] else []) ++
  (if ¬isTaskCompletion ∧ health.state = .blocked then [.workflow_blocked] else []) ++
  (if ¬isTaskCompletion ∧ health.state = .completed then [.workflow_completed] else []) ++
  (if ¬isTaskCompletion ∧ health.state = .waiting_user ∧
      health.stopReason.getD "" ∈ NON_RESUMABLE_WAITING_REASONS then
    [.waiting_user_non_resumable (health.stopReason.getD "")] else []) ++
  (if now < supervisor.retryAt.getD 0 then [.supervisor_retry_backoff] else []) ++
  (if now < supervisor.leaseExpiresAt.getD 0 ∧ leaseOwner ≠ none ∧ leaseOwner ≠ some owner then
    [.supervisor_foreign_lease] else [])

def shouldResumePendingContinuation (owner : String) (now : ℤ) (item : ResumeCandidate) : Bool :=
  (blockedReasons owner now item).isEmpty

/-! ### The order -/

def healthRankForResume : Health → ℤ
  | .healthy => 0
  | .queued => 1
  | .paused => 2
  | .degraded => 3
  | .blocked => 4
  | .completed => 5

def ResumeCandidate.waitTimeMs (item : ResumeCandidate) : ℤ :=
  (item.budget.map Budget.waitTimeMs).getD 0

/-- The keys by which candidates are compared before their names are. -/
def ResumeCandidate.keys (item : ResumeCandidate) : List ℤ :=
  [healthRankForResume ((item.health.map Prod.snd).getD .healthy),
    if item.waitTimeMs = 0 then 0 else 1, item.waitTimeMs,
    ((item.workflow.bind Workflow.supervisor).bind Supervisor.consecutiveResumeFailures).getD 0,
    (item.workflow.bind Workflow.lastRunAt).getD 0, item.createdAt]

/-- The first difference of two keys that is not zero, or else how the names compare. -/
def compareKeys (names : ℤ) : List ℤ → List ℤ → ℤ
  | a :: as, b :: bs => if a ≠ b then a - b else compareKeys names as bs
  | _, _ => names

section Pick

variable (localeCompare : String → String → ℤ) (owner : String) (now : ResumeCandidate → ℤ)

def compare (a b : ResumeCandidate) : ℤ :=
  compareKeys (localeCompare a.sessionID b.sessionID) a.keys b.keys

def resumable (items : List ResumeCandidate) : List ResumeCandidate :=
  items.filter fun item => shouldResumePendingContinuation owner (now item) item

def eligible (items : List ResumeCandidate) : List ResumeCandidate :=
  (resumable owner now items).insertionSort fun a b => compare localeCompare a b ≤ 0

/-- `budget?.family`, if there is one. -/
def ResumeCandidate.family (item : ResumeCandidate) : Option String :=
  (item.budget.map Budget.family).filter (· ≠ "")

/-! ### The three passes -/

def pickFamilies (maxCount : ℕ) :
    List ResumeCandidate → List ResumeCandidate → List String → List ResumeCandidate
  | [], picked, _ => picked
  | item :: items, picked, usedFamilies =>
    if maxCount ≤ picked.length then picked
    else if ∃ family ∈ item.family, family ∈ usedFamilies then
      pickFamilies maxCount items picked usedFamilies
    else pickFamilies maxCount items (picked ++ [item]) (item.family.toList ++ usedFamilies)

def pickOthers (maxCount : ℕ) : List ResumeCandidate → List ResumeCandidate → List ResumeCandidate
  | [], picked => picked
  | item :: items, picked =>
    if maxCount ≤ picked.length then picked
    else if item ∈ picked then pickOthers maxCount items picked
    else pickOthers maxCount items (picked ++ [item])

def preferred (eligible : List ResumeCandidate) (preferredSessionID : Option String) :
    Option ResumeCandidate :=
  (preferredSessionID.filter (· ≠ "")).bind fun id => eligible.find? (·.sessionID = id)

def pickEligible (eligible : List ResumeCandidate) (maxCount : ℤ)
    (preferredSessionID : Option String) : List ResumeCandidate :=
  let maxCount := (max 0 maxCount).toNat
  let first := if 0 < maxCount then (preferred eligible preferredSessionID).toList else []
  pickOthers maxCount eligible
    (pickFamilies maxCount eligible first (first.flatMap fun item => item.family.toList))

def pickPendingContinuationsForResume (items : List ResumeCandidate) (maxCount : ℤ)
    (preferredSessionID : Option String) : List ResumeCandidate :=
  pickEligible (eligible localeCompare owner now items) maxCount preferredSessionID

end Pick

/-! ### What the passes take -/

/-- Those without a family, and the first one of each family that was not used before. -/
def leaders : List ResumeCandidate → List String → List ResumeCandidate
  | [], _ => []
  | item :: items, used =>
    if ∃ family ∈ item.family, family ∈ used then leaders items used
    else item :: leaders items (item.family.toList ++ used)

variable {maxCount : ℕ} {items picked : List ResumeCandidate} {used : List String}
  {item : ResumeCandidate}

theorem pickFamilies_eq : pickFamilies maxCount items picked used =
    picked ++ (leaders items used).take (maxCount - picked.length) := by
  induction items generalizing picked used with
  | nil => simp [pickFamilies, leaders]
  | cons item items ih =>
    rw [pickFamilies, leaders]
    by_cases hfull : maxCount ≤ picked.length
    · rw [if_pos hfull, Nat.sub_eq_zero_of_le hfull, List.take_zero, List.append_nil]
    · rw [if_neg hfull]
      split
      · exact ih
      · obtain ⟨room, hroom⟩ : ∃ room, maxCount - picked.length = room + 1 :=
          ⟨maxCount - picked.length - 1, by omega⟩
        have hless : maxCount - (picked ++ [item]).length = room := by
          rw [List.length_append, List.length_singleton]
          omega
        rw [ih, hless, hroom, List.take_succ_cons, List.append_assoc, List.singleton_append]

theorem pickOthers_eq (hitems : items.Nodup) : pickOthers maxCount items picked =
    picked ++ (items.filter (· ∉ picked)).take (maxCount - picked.length) := by
  induction items generalizing picked with
  | nil => simp [pickOthers]
  | cons item items ih =>
    obtain ⟨hnew, hitems⟩ := List.nodup_cons.mp hitems
    rw [pickOthers]
    by_cases hfull : maxCount ≤ picked.length
    · rw [if_pos hfull, Nat.sub_eq_zero_of_le hfull, List.take_zero, List.append_nil]
    · rw [if_neg hfull]
      by_cases hmem : item ∈ picked
      · rw [if_pos hmem, ih hitems, List.filter_cons_of_neg (by simpa using hmem)]
      · obtain ⟨room, hroom⟩ : ∃ room, maxCount - picked.length = room + 1 :=
          ⟨maxCount - picked.length - 1, by omega⟩
        have hless : maxCount - (picked ++ [item]).length = room := by
          rw [List.length_append, List.length_singleton]
          omega
        have hsame : items.filter (· ∉ picked ++ [item]) = items.filter (· ∉ picked) := by
          refine List.filter_congr fun other hother => ?_
          have hne : other ≠ item := fun h => hnew (h ▸ hother)
          simp [hne]
        rw [if_neg hmem, ih hitems, hless, hroom, hsame,
          List.filter_cons_of_pos (by simpa using hmem), List.take_succ_cons, List.append_assoc,
          List.singleton_append]

theorem leaders_sublist (items : List ResumeCandidate) (used : List String) :
    (leaders items used).Sublist items := by
  induction items generalizing used with
  | nil => exact List.Sublist.slnil
  | cons item items ih =>
    rw [leaders]
    split
    · exact (ih used).cons item
    · exact (ih _).cons_cons item

/-- No family is led twice, and none that was used before. -/
theorem leaders_apart : (∀ item ∈ leaders items used, ∀ family ∈ item.family, family ∉ used) ∧
    (leaders items used).Pairwise fun a b => ∀ family ∈ a.family, family ∉ b.family := by
  induction items generalizing used with
  | nil => exact ⟨fun _ h => absurd h List.not_mem_nil, List.Pairwise.nil⟩
  | cons item items ih =>
    rw [leaders]
    split
    · exact ih
    next hnew =>
      obtain ⟨hused, hpairs⟩ := @ih (item.family.toList ++ used)
      refine ⟨fun other hother family hfamily hmem => ?_, List.pairwise_cons.mpr ⟨?_, hpairs⟩⟩
      · rcases List.mem_cons.mp hother with rfl | hother
        · exact hnew ⟨family, hfamily, hmem⟩
        · exact hused other hother family hfamily (List.mem_append_right _ hmem)
      · intro other hother family hfamily hmem
        exact hused other hother family hmem
          (List.mem_append_left _ (Option.mem_toList.mpr hfamily))

/-- Who leads no family has one that was used before, or that is led. -/
theorem exists_leader (h : item ∈ items) : item ∈ leaders items used ∨
    ∃ family ∈ item.family, family ∈ used ∨ ∃ leader ∈ leaders items used, family ∈ leader.family := by
  induction items generalizing used with
  | nil => cases h
  | cons first items ih =>
    rw [leaders]
    split
    next hold =>
      rcases List.mem_cons.mp h with rfl | h
      · obtain ⟨family, hfamily, hused⟩ := hold
        exact Or.inr ⟨family, hfamily, Or.inl hused⟩
      · exact ih h
    next =>
      rcases List.mem_cons.mp h with rfl | h
      · exact Or.inl List.mem_cons_self
      · rcases @ih (first.family.toList ++ used) h with hlead | ⟨family, hfamily, hused⟩
        · exact Or.inl (List.mem_cons_of_mem _ hlead)
        · refine Or.inr ⟨family, hfamily, ?_⟩
          rcases hused with hused | ⟨leader, hleader, hmem⟩
          · rcases List.mem_append.mp hused with hmem | hused
            · exact Or.inr ⟨first, List.mem_cons_self, Option.mem_toList.mp hmem⟩
            · exact Or.inl hused
          · exact Or.inr ⟨leader, List.mem_cons_of_mem _ hleader, hmem⟩

theorem not_mem_leaders {before after : List ResumeCandidate} {a b : ResumeCandidate}
    (ha : a ∈ before) (hnew : b ∉ before) {family : String} (hfa : family ∈ a.family)
    (hfb : family ∈ b.family) : b ∉ leaders (before ++ b :: after) used := by
  induction before generalizing used with
  | nil => cases ha
  | cons first before ih =>
    obtain ⟨hne, hnew⟩ := List.ne_and_not_mem_of_not_mem_cons hnew
    rw [List.cons_append, leaders]
    split
    next hold =>
      rcases List.mem_cons.mp ha with rfl | ha
      · intro hb
        obtain ⟨family', hfamily', hused⟩ := hold
        obtain rfl : family = family' := Option.mem_unique hfa hfamily'
        exact leaders_apart.1 b hb family hfb hused
      · exact ih ha hnew
    next =>
      intro hb
      rcases List.mem_cons.mp hb with rfl | hb
      · exact hne rfl
      rcases List.mem_cons.mp ha with rfl | ha
      · exact leaders_apart.1 b hb family hfb
          (List.mem_append_left _ (Option.mem_toList.mpr hfa))
      · exact ih ha hnew hb

section Passes

variable {E : List ResumeCandidate} {p : Option ResumeCandidate} {a b : ResumeCandidate}

/-- The preferred candidate, and the leaders of the families that are not its own. -/
def firsts (E : List ResumeCandidate) (p : Option ResumeCandidate) : List ResumeCandidate :=
  p.toList ++ leaders E (p.toList.flatMap fun item => item.family.toList)

def queue (E : List ResumeCandidate) (p : Option ResumeCandidate) : List ResumeCandidate :=
  firsts E p ++ E.filter (· ∉ firsts E p)

theorem take_firsts (room : ℕ) : (firsts E p).take room ++
    (E.filter (· ∉ (firsts E p).take room)).take (room - ((firsts E p).take room).length) =
      (queue E p).take room := by
  rw [queue, List.take_append]
  by_cases hroom : (firsts E p).length ≤ room
  · rw [List.take_of_length_le hroom]
  · have hnone : room - ((firsts E p).take room).length = 0 := by
      rw [List.length_take]
      omega
    rw [hnone, List.take_zero, Nat.sub_eq_zero_of_le (by omega), List.take_zero]

/-- **What is picked** is what comes first in the queue. -/
theorem pickEligible_eq (hE : E.Nodup) (maxCount : ℤ) (preferredSessionID : Option String) :
    pickEligible E maxCount preferredSessionID =
      (queue E (preferred E preferredSessionID)).take (max 0 maxCount).toNat := by
  unfold pickEligible
  generalize (max 0 maxCount).toNat = room
  generalize preferred E preferredSessionID = p
  simp only [pickOthers_eq hE, pickFamilies_eq]
  rcases Nat.eq_zero_or_pos room with rfl | hroom
  · simp
  rw [if_pos hroom]
  have hfirst : p.toList ++ (leaders E (p.toList.flatMap fun item => item.family.toList)).take
      (room - p.toList.length) = (firsts E p).take room := by
    have hone : p.toList.length ≤ room := by
      cases p with
      | none => exact Nat.zero_le _
      | some item => exact hroom
    rw [firsts, List.take_append, List.take_of_length_le hone]
  rw [hfirst]
  exact take_firsts room

/-- Who is in a queue before one that is taken is taken as well. -/
theorem mem_take_of_before {before after : List ResumeCandidate} {room : ℕ}
    (hb : b ∈ (before ++ after).take room) (hnew : b ∉ before) (ha : a ∈ before) :
    a ∈ (before ++ after).take room := by
  rw [List.take_append] at hb ⊢
  rcases List.mem_append.mp hb with hb | hb
  · exact absurd (List.mem_of_mem_take hb) hnew
  · have hroom : before.length < room := by
      by_contra hfull
      rw [Nat.sub_eq_zero_of_le (by omega), List.take_zero] at hb
      cases hb
    rw [List.take_of_length_le hroom.le]
    exact List.mem_append_left _ ha

variable {room : ℕ}

theorem mem_queue (hp : ∀ item ∈ p, item ∈ E) (h : a ∈ (queue E p).take room) : a ∈ E := by
  rcases List.mem_append.mp (List.mem_of_mem_take h) with h | h
  · rcases List.mem_append.mp h with h | h
    · exact hp a (Option.mem_toList.mp h)
    · exact (leaders_sublist _ _).subset h
  · exact (List.mem_filter.mp h).1

theorem firsts_apart (ha : a ∈ firsts E p) (hb : b ∈ firsts E p) (hne : a ≠ b) {family : String}
    (hfa : family ∈ a.family) : family ∉ b.family := by
  intro hfb
  have hused : ∀ {c d : ResumeCandidate}, c ∈ p →
      d ∈ leaders E (p.toList.flatMap fun item => item.family.toList) →
      family ∈ c.family → family ∉ d.family := fun hc hd hfc hfd =>
    leaders_apart.1 _ hd family hfd (List.mem_flatMap.mpr
      ⟨_, Option.mem_toList.mpr hc, Option.mem_toList.mpr hfc⟩)
  rcases List.mem_append.mp ha with ha | ha <;> rcases List.mem_append.mp hb with hb | hb
  · exact hne (Option.mem_unique (Option.mem_toList.mp ha) (Option.mem_toList.mp hb))
  · exact hused (Option.mem_toList.mp ha) hb hfa hfb
  · exact hused (Option.mem_toList.mp hb) ha hfb hfa
  · have : Std.Symm fun a b : ResumeCandidate => ∀ family ∈ a.family, family ∉ b.family :=
      ⟨fun _ _ h family hb ha => h family ha hb⟩
    exact leaders_apart.2.forall ha hb hne family hfa hfb

/-- **A family comes twice only after every family came.** -/
theorem mem_picked_of_shared (ha : a ∈ (queue E p).take room) (hb : b ∈ (queue E p).take room)
    (hne : a ≠ b) {family : String} (hfa : family ∈ a.family) (hfb : family ∈ b.family)
    (hitem : item ∈ E) {other : String} (hother : other ∈ item.family)
    (hnew : ∀ c ∈ (queue E p).take room, other ∉ c.family) : item ∈ (queue E p).take room := by
  obtain ⟨late, hlate, hnot⟩ : ∃ late ∈ (queue E p).take room, late ∉ firsts E p := by
    by_contra hall
    push Not at hall
    exact firsts_apart (hall a ha) (hall b hb) hne hfa hfb
  have hfirsts : ∀ c ∈ firsts E p, c ∈ (queue E p).take room := fun c hc =>
    mem_take_of_before hlate hnot hc
  rcases @exists_leader E (p.toList.flatMap fun item => item.family.toList) item hitem with
    hlead | ⟨other', hother', hused⟩
  · exact hfirsts item (List.mem_append_right _ hlead)
  obtain rfl : other = other' := Option.mem_unique hother hother'
  rcases hused with hused | ⟨leader, hleader, hmem⟩
  · obtain ⟨c, hc, hfc⟩ := List.mem_flatMap.mp hused
    exact absurd (Option.mem_toList.mp hfc) (hnew c (hfirsts c (List.mem_append_left _ hc)))
  · exact absurd hmem (hnew leader (hfirsts leader (List.mem_append_right _ hleader)))

/-- **Nobody is passed over for one of its family that comes after it.** -/
theorem mem_picked_of_before {before after : List ResumeCandidate}
    (hE : (before ++ b :: after).Nodup) (ha : a ∈ before)
    {family : String} (hfa : family ∈ a.family) (hfb : family ∈ b.family) (hp : b ∉ p)
    (hb : b ∈ (queue (before ++ b :: after) p).take room) :
    a ∈ (queue (before ++ b :: after) p).take room := by
  have hnew : b ∉ before := fun h =>
    (List.nodup_append.mp hE).2.2 b h b List.mem_cons_self rfl
  have hlate : b ∉ firsts (before ++ b :: after) p := by
    intro h
    rcases List.mem_append.mp h with h | h
    · exact hp (Option.mem_toList.mp h)
    · exact not_mem_leaders ha hnew hfa hfb h
  have hqueue : queue (before ++ b :: after) p =
      (firsts (before ++ b :: after) p ++ before.filter (· ∉ firsts (before ++ b :: after) p)) ++
        b :: after.filter (· ∉ firsts (before ++ b :: after) p) := by
    rw [queue, List.filter_append, List.filter_cons_of_pos (by simpa using hlate),
      List.append_assoc]
  rw [hqueue] at hb ⊢
  refine mem_take_of_before hb (fun h => ?_) ?_
  · rcases List.mem_append.mp h with h | h
    · exact hlate h
    · exact hnew (List.mem_filter.mp h).1
  · by_cases hfirst : a ∈ firsts (before ++ b :: after) p
    · exact List.mem_append_left _ hfirst
    · exact List.mem_append_right _ (List.mem_filter.mpr ⟨ha, by simpa using hfirst⟩)

/-! ### Who is taken twice -/

/-- The preferred candidate has a family, or there is no room for it among the leaders. -/
def TakenOnce (E : List ResumeCandidate) (p : Option ResumeCandidate) (room : ℕ) : Prop :=
  ∀ item ∈ p, item.family = none → room ≤ (leaders E []).idxOf item + 1

theorem mem_leaders_of_none (h : item ∈ E) (hnone : item.family = none) : item ∈ leaders E used := by
  rcases @exists_leader E used item h with hlead | ⟨family, hfamily, -⟩
  · exact hlead
  · rw [hnone] at hfamily
    cases hfamily

theorem nodup_queue (hE : E.Nodup) (h : (firsts E p).Nodup) : (queue E p).Nodup :=
  List.nodup_append.mpr ⟨h, hE.filter _, fun a ha b hb hab =>
    (by simpa using (List.mem_filter.mp hb).2 : b ∉ firsts E p) (hab ▸ ha)⟩

theorem length_queue (hE : E.Nodup) (hp : ∀ item ∈ p, item ∈ E) (h : (firsts E p).Nodup) :
    (queue E p).length = E.length := by
  refine ((List.perm_ext_iff_of_nodup (nodup_queue hE h) hE).mpr fun a => ⟨fun ha => ?_,
    fun ha => ?_⟩).length_eq
  · exact @mem_queue E p a (queue E p).length hp (by rwa [List.take_length])
  · by_cases hfirst : a ∈ firsts E p
    · exact List.mem_append_left _ hfirst
    · exact List.mem_append_right _ (List.mem_filter.mpr ⟨ha, by simpa using hfirst⟩)

/-- The queue of a preferred candidate without a family has it twice. -/
theorem queue_of_none (hnone : item.family = none) : ∃ rest,
    queue E (some item) = item :: (leaders E [] ++ rest) := by
  have hfirsts : firsts E (some item) = item :: leaders E [] := by
    simp [firsts, hnone]
  exact ⟨E.filter (· ∉ item :: leaders E []), by rw [queue, hfirsts, List.cons_append]⟩

theorem nodup_firsts (hE : E.Nodup) (hp : ∀ item ∈ p, item.family ≠ none) :
    (firsts E p).Nodup := by
  refine List.nodup_append.mpr ⟨?_, (leaders_sublist _ _).nodup hE, fun a ha b hb hab => ?_⟩
  · cases p with
    | none => exact List.nodup_nil
    | some item => exact List.nodup_singleton item
  · obtain ⟨family, hfamily⟩ := Option.ne_none_iff_exists'.mp (hp a (Option.mem_toList.mp ha))
    exact leaders_apart.1 b hb family (hab ▸ hfamily)
      (List.mem_flatMap.mpr ⟨a, ha, Option.mem_toList.mpr hfamily⟩)

/-- **Nobody is taken twice**, and as many as there is room for. -/
theorem nodup_picked (hE : E.Nodup) (hp : ∀ item ∈ p, item ∈ E) (h : TakenOnce E p room) :
    ((queue E p).take room).Nodup ∧ ((queue E p).take room).length = min room E.length := by
  by_cases hnone : ∃ item ∈ p, item.family = none
  · obtain ⟨item, rfl, hnone⟩ := hnone
    have hlead := @mem_leaders_of_none [] item E (hp item rfl) hnone
    obtain ⟨rest, hqueue⟩ := @queue_of_none item E hnone
    have hroom := h item rfl hnone
    have hindex := List.idxOf_lt_length_of_mem hlead
    have hlength := (leaders_sublist E []).length_le
    have htake : (queue E (some item)).take room =
        (item :: (leaders E []).take (room - 1)).take room := by
      rw [hqueue]
      cases room with
      | zero => rfl
      | succ room =>
        rw [List.take_succ_cons, List.take_succ_cons, List.take_append_of_le_length (by omega),
          Nat.add_sub_cancel, List.take_take, Nat.min_self]
    have hfresh : item ∉ (leaders E []).take (room - 1) := by
      rw [List.mem_take_iff_idxOf_lt hlead]
      omega
    refine ⟨?_, ?_⟩
    · rw [htake]
      exact (List.nodup_cons.mpr
        ⟨hfresh, ((leaders_sublist E []).nodup hE).sublist (List.take_sublist _ _)⟩).sublist
          (List.take_sublist _ _)
    · rw [hqueue, List.length_take, List.length_cons, List.length_append]
      omega
  · have hnodup := nodup_firsts hE fun item hitem hfamily => hnone ⟨item, hitem, hfamily⟩
    refine ⟨(nodup_queue hE hnodup).sublist (List.take_sublist _ _), ?_⟩
    rw [List.length_take, length_queue hE hp hnodup]

theorem takenOnce_of_nodup (hp : ∀ item ∈ p, item ∈ E) (h : ((queue E p).take room).Nodup) :
    TakenOnce E p room := by
  rintro item rfl hnone
  by_contra hroom
  obtain ⟨rest, hqueue⟩ := @queue_of_none item E hnone
  have hlead := @mem_leaders_of_none [] item E (hp item rfl) hnone
  obtain ⟨room, rfl⟩ : ∃ less, room = less + 1 := ⟨room - 1, by omega⟩
  rw [hqueue, List.take_succ_cons, List.nodup_cons] at h
  refine h.1 ((List.mem_take_iff_idxOf_lt (List.mem_append_left _ hlead)).mpr ?_)
  rw [List.idxOf_append_of_mem hlead]
  omega

end Passes

/-! ### The order of the candidates -/

section Order

variable {localeCompare : String → String → ℤ}

/-- What `localeCompare` promises: an order of the names. -/
structure Collates (localeCompare : String → String → ℤ) : Prop where
  swap : ∀ a b, localeCompare a b < 0 ↔ 0 < localeCompare b a
  trans : ∀ a b c, localeCompare a b ≤ 0 → localeCompare b c ≤ 0 → localeCompare a c ≤ 0

theorem compareKeys_swap {names names' : ℤ} (h : names < 0 ↔ 0 < names') (as bs : List ℤ) :
    compareKeys names as bs < 0 ↔ 0 < compareKeys names' bs as := by
  induction as generalizing bs with
  | nil => cases bs <;> simpa only [compareKeys] using h
  | cons a as ih =>
    cases bs with
    | nil => simpa only [compareKeys] using h
    | cons b bs =>
      rw [compareKeys, compareKeys]
      by_cases hab : a = b
      · rw [if_neg (by omega), if_neg (by omega)]
        exact ih bs
      · rw [if_pos hab, if_pos (Ne.symm hab)]
        omega

theorem compareKeys_trans {ab bc ac : ℤ} (h : ab ≤ 0 → bc ≤ 0 → ac ≤ 0) {as bs cs : List ℤ}
    (has : as.length = bs.length) (hbs : bs.length = cs.length)
    (hab : compareKeys ab as bs ≤ 0) (hbc : compareKeys bc bs cs ≤ 0) :
    compareKeys ac as cs ≤ 0 := by
  induction as generalizing bs cs with
  | nil =>
    obtain rfl := List.length_eq_zero_iff.mp has.symm
    obtain rfl := List.length_eq_zero_iff.mp hbs.symm
    exact h hab hbc
  | cons a as ih =>
    obtain ⟨b, bs, rfl⟩ := List.exists_cons_of_length_eq_add_one has.symm
    obtain ⟨c, cs, rfl⟩ := List.exists_cons_of_length_eq_add_one hbs.symm
    rw [compareKeys] at hab hbc ⊢
    split_ifs at hab hbc ⊢ <;> try omega
    exact ih (by simpa using has) (by simpa using hbs) hab hbc

theorem compare_swap (h : Collates localeCompare) (a b : ResumeCandidate) :
    compare localeCompare a b < 0 ↔ 0 < compare localeCompare b a :=
  compareKeys_swap (h.swap _ _) _ _

/-- The candidates that can be resumed are sorted. -/
theorem pairwise_eligible (h : Collates localeCompare) (owner : String)
    (now : ResumeCandidate → ℤ) (items : List ResumeCandidate) :
    (eligible localeCompare owner now items).Pairwise
      fun a b => compare localeCompare a b ≤ 0 := by
  have : Std.Total fun a b : ResumeCandidate => compare localeCompare a b ≤ 0 :=
    ⟨fun a b => by
      have hswap := compare_swap h b a
      omega⟩
  have : IsTrans ResumeCandidate fun a b => compare localeCompare a b ≤ 0 :=
    ⟨fun a b c => compareKeys_trans (h.trans _ _ _) rfl rfl⟩
  exact List.pairwise_insertionSort _ _

end Order

/-! ### A fair pick -/

/-- The preferred candidate ranks first, and the others as they are sorted. -/
def RanksBefore (localeCompare : String → String → ℤ) (p : Option ResumeCandidate)
    (a b : ResumeCandidate) : Prop :=
  a ≠ b ∧ (a ∈ p ∨ b ∉ p ∧ compare localeCompare a b < 0)

/-- **A fair pick** among the candidates that can be resumed. -/
structure FairPick (localeCompare : String → String → ℤ) (resumable : List ResumeCandidate)
    (p : Option ResumeCandidate) (maxCount : ℕ) (picked : List ResumeCandidate) : Prop where
  length_eq : picked.length = min maxCount resumable.length
  nodup : picked.Nodup
  mem_resumable : ∀ item ∈ picked, item ∈ resumable
  preferred_first : ∀ item ∈ p, 0 < maxCount → picked.head? = some item
  shared : ∀ a ∈ picked, ∀ b ∈ picked, a ≠ b → ∀ family ∈ a.family, family ∈ b.family →
    ∀ item ∈ resumable, ∀ other ∈ item.family, (∀ c ∈ picked, other ∉ c.family) → item ∈ picked
  not_passed_over : ∀ a ∈ resumable, ∀ b ∈ picked, a.budget = b.budget →
    ∀ family ∈ a.family, family ∈ b.family → RanksBefore localeCompare p a b → a ∈ picked

/-- **A pick is fair exactly where the preferred candidate is not met again** among the leaders of
the families: it has a family, or there is no room for it when its turn comes. -/
theorem fairPick_iff {localeCompare : String → String → ℤ} (h : Collates localeCompare)
    (owner : String) (now : ResumeCandidate → ℤ) {items : List ResumeCandidate}
    (hitems : (items.map ResumeCandidate.sessionID).Nodup) (maxCount : ℤ)
    (preferredSessionID : Option String) :
    let E := eligible localeCompare owner now items
    let p := preferred E preferredSessionID
    FairPick localeCompare (resumable owner now items) p (max 0 maxCount).toNat
        (pickPendingContinuationsForResume localeCompare owner now items maxCount
          preferredSessionID) ↔
      TakenOnce E p (max 0 maxCount).toNat := by
  intro E p
  have hperm : E.Perm (resumable owner now items) := List.perm_insertionSort _ _
  have hE : E.Nodup := hperm.nodup_iff.mpr ((List.Nodup.of_map _ hitems).filter _)
  have hp : ∀ item ∈ p, item ∈ E := by
    intro item hitem
    obtain ⟨id, -, hfind⟩ := Option.bind_eq_some_iff.mp hitem
    exact List.mem_of_find?_eq_some hfind
  have heq : pickPendingContinuationsForResume localeCompare owner now items maxCount
      preferredSessionID = (queue E p).take (max 0 maxCount).toNat := pickEligible_eq hE _ _
  rw [heq]
  generalize (max 0 maxCount).toNat = room
  refine ⟨fun hfair => takenOnce_of_nodup hp hfair.nodup, fun honce => ?_⟩
  obtain ⟨hnodup, hlength⟩ := nodup_picked hE hp honce
  have hfirst : ∀ item ∈ p, 0 < room → ((queue E p).take room).head? = some item := by
    intro item hitem hroom
    obtain ⟨room, rfl⟩ : ∃ less, room = less + 1 := ⟨room - 1, by omega⟩
    rw [hitem]
    rfl
  exact {
    length_eq := by rw [hlength, hperm.length_eq]
    nodup := hnodup
    mem_resumable := fun item hitem => hperm.subset (mem_queue hp hitem)
    preferred_first := hfirst
    shared := fun a ha b hb hne family hfa hfb item hitem other hother hnew =>
      mem_picked_of_shared ha hb hne hfa hfb (hperm.symm.subset hitem) hother hnew
    not_passed_over := by
      intro a ha b hb _ family hfa hfb hrank
      obtain ⟨hne, hap | ⟨hbp, hless⟩⟩ := hrank
      · have hroom : 0 < room := by
          by_contra hzero
          obtain rfl : room = 0 := by omega
          cases hb
        exact List.mem_of_mem_head? (hfirst a hap hroom)
      · obtain ⟨before, after, hsplit⟩ := List.append_of_mem (mem_queue hp hb)
        have hsorted := pairwise_eligible h owner now items
        change E.Pairwise _ at hsorted
        have haE := hperm.symm.subset ha
        rw [hsplit] at hE hb haE hsorted ⊢
        rcases List.mem_append.mp haE with hbefore | hafter
        · exact mem_picked_of_before hE hbefore hfa hfb hbp hb
        · have hle := (List.pairwise_cons.mp (List.pairwise_append.mp hsorted).2.1).1 a
            ((List.mem_cons.mp hafter).resolve_left hne)
          have hswap := compare_swap h a b
          omega }

/-! ### Two that can be resumed -/

section Sample

def ended (sessionID : String) (createdAt : ℤ) : ResumeCandidate where
  sessionID := sessionID
  createdAt := createdAt
  triggerType := some "task_completion"
  scheduled := false
  workflow := none
  status := .idle
  inFlight := false
  health := none
  budget := none

def sampleItems : List ResumeCandidate := [ended "a" 1, ended "b" 2]

def compareNames (a b : String) : ℤ := if a < b then -1 else if b < a then 1 else 0

theorem collates_compareNames : Collates compareNames where
  swap a b := by
    unfold compareNames
    by_cases hab : a < b
    · simp [hab, String.lt_asymm hab]
    · by_cases hba : b < a <;> simp [hab, hba]
  trans a b c := by
    have hle : ∀ {a b : String}, compareNames a b ≤ 0 ↔ ¬b < a := by
      intro a b
      unfold compareNames
      by_cases hab : a < b
      · simp only [hab, if_true, String.lt_asymm hab, not_false_iff, iff_true]
        decide
      · by_cases hba : b < a <;> simp [hab, hba]
    rw [hle, hle, hle, String.not_lt, String.not_lt, String.not_lt]
    exact String.le_trans

/-- One of the two is resumed, and it is the preferred one. -/
theorem fairPick_one : FairPick compareNames (resumable "supervisor" (fun _ => 0) sampleItems)
    (preferred (eligible compareNames "supervisor" (fun _ => 0) sampleItems) (some "b")) 1
    (pickPendingContinuationsForResume compareNames "supervisor" (fun _ => 0) sampleItems 1
      (some "b")) :=
  (fairPick_iff collates_compareNames "supervisor" (fun _ => 0)
    (by decide : (sampleItems.map ResumeCandidate.sessionID).Nodup) 1 (some "b")).mpr
      fun _ _ _ => Nat.le_add_left 1 _

/-- **The preferred session is resumed twice**, and the other one not at all. -/
theorem not_fairPick_two : (sampleItems.map ResumeCandidate.sessionID).Nodup ∧
    pickPendingContinuationsForResume compareNames "supervisor" (fun _ => 0) sampleItems 2
      (some "a") = [ended "a" 1, ended "a" 1] ∧
    ¬FairPick compareNames (resumable "supervisor" (fun _ => 0) sampleItems)
      (preferred (eligible compareNames "supervisor" (fun _ => 0) sampleItems) (some "a")) 2
      (pickPendingContinuationsForResume compareNames "supervisor" (fun _ => 0) sampleItems 2
        (some "a")) := by
  refine ⟨by decide, by decide, fun h => ?_⟩
  exact absurd h.nodup (by decide)

end Sample

end OpenCms.ResumePick
