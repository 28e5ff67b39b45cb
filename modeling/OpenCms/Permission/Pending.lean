import OpenCms.Permission.Approved
import Mathlib.Data.List.Nodup

/-!
# The waiting requests

A promise that `OpenCms.PermissionNext.ask` leaves waiting is settled by an answer, and
one answer may settle many. `OpenCms.PermissionNext.closings` lists what a call takes off
the record, in order, and `OpenCms.PermissionNext.settlements` what a whole run settles:
along every run a promise is settled at most once
(`OpenCms.PermissionNext.run_ledger`).

That it is not lost is another matter. A caller may name the identifier of its request,
and an entry under an identifier in use replaces the one there: nobody can settle the
promise of the old one any more. `OpenCms.PermissionNext.pending_kept_iff` says that this
is the only way to lose one.
-/

namespace OpenCms.PermissionNext

/-! ### What a call takes off the record -/

/-- A waiting request and how an answer closes it. -/
structure Closing where
  id : PermissionID
  entry : Pending
  reply : Reply
  how : Settlement

def State.closeAll (s : State) (cs : List Closing) : State :=
  cs.foldl (fun s c => s.close c.id c.entry c.reply c.how) s

section Calls

variable (canon : UInt16 → UInt16)

def Request.allowedBy (info : Request) (approved : Ruleset) : Bool :=
  info.patterns.all fun pattern =>
    (evaluate canon info.permission pattern [approved]).action = .allow

def others (s : State) (requestID : PermissionID) (existing : Pending) :
    List (PermissionID × Pending) :=
  (delete requestID s.pending).filter fun e => e.2.info.sessionID = existing.info.sessionID

/-- What a call takes off the record: the request answered, and those of its session that
the answer settles with it. -/
def closings (s : State) : Call → List Closing
  | .ask _ _ _ => []
  | .reply requestID answer message _ =>
    match lookup requestID s.pending with
    | none => []
    | some existing =>
      match answer with
      | .reject => ⟨requestID, existing, .reject, rejection message⟩ ::
          (others s requestID existing).map fun e => ⟨e.1, e.2, .reject, .rejected⟩
      | .once => [⟨requestID, existing, .once, .returned⟩]
      | .always => ⟨requestID, existing, .always, .returned⟩ ::
          ((others s requestID existing).filter fun e =>
            e.2.info.allowedBy canon (s.approved ++ existing.info.granted)).map
              fun e => ⟨e.1, e.2, .always, .returned⟩

def settlements : State → List Call → List ℕ
  | _, [] => []
  | s, call :: calls =>
    (closings canon s call).map (fun c => c.entry.promise) ++
      settlements (step canon s call) calls

variable {canon} {s : State} {e : PermissionID × Pending} {pending : List (PermissionID × Pending)}
  {id : PermissionID} {message : Option JsString} {requestID : PermissionID} {i : ℕ}
  {cs : List Closing} {how : Settlement} {saved : Bool}

theorem rejectSession_eq (s : State) (sessionID : SessionID) :
    rejectSession s sessionID =
      s.closeAll ((s.pending.filter fun e => e.2.info.sessionID = sessionID).map
        fun e => ⟨e.1, e.2, .reject, .rejected⟩) := by
  rw [rejectSession, State.closeAll, List.foldl_map, List.foldl_filter]
  simp only [decide_eq_true_eq]

theorem resolveSession_eq (s : State) (sessionID : SessionID) :
    resolveSession canon s sessionID =
      s.closeAll (((s.pending.filter fun e => e.2.info.sessionID = sessionID).filter fun e =>
        e.2.info.allowedBy canon s.approved).map fun e => ⟨e.1, e.2, .always, .returned⟩) := by
  rw [resolveSession, State.closeAll, List.foldl_map]
  generalize hA : s.approved = A
  generalize s.pending = es
  induction es generalizing s with
  | nil => rfl
  | cons e es ih =>
    have hallowed : (e.2.info.patterns.all fun pattern =>
        decide ((evaluate canon e.2.info.permission pattern [s.approved]).action = .allow)) =
          e.2.info.allowedBy canon A := by rw [hA]; rfl
    rw [List.foldl_cons, hallowed]
    by_cases hsession : e.2.info.sessionID = sessionID
    · rw [if_neg (by simp [hsession]), List.filter_cons_of_pos (by simpa using hsession),
        List.filter_cons]
      split
      · exact ih _ hA
      · exact ih _ hA
    · rw [if_pos hsession, List.filter_cons_of_neg (by simpa using hsession)]
      exact ih _ hA

theorem closeAll_pending (s : State) (cs : List Closing) :
    (s.closeAll cs).pending = cs.foldl (fun pending c => delete c.id pending) s.pending := by
  induction cs generalizing s with
  | nil => rfl
  | cons c cs ih => exact ih _

theorem closeAll_promises (s : State) (cs : List Closing) :
    (s.closeAll cs).promises =
      cs.foldl (fun promises c => settle c.entry.promise c.how promises) s.promises := by
  induction cs generalizing s with
  | nil => rfl
  | cons c cs ih => exact ih _

/-- **An answer closes the requests listed**, and nothing else. -/
theorem step_reply (s : State) (requestID : PermissionID) (answer : Reply)
    (message : Option JsString) (saved : Bool) :
    (step canon s (.reply requestID answer message saved)).pending =
        (s.closeAll (closings canon s (.reply requestID answer message saved))).pending ∧
      (step canon s (.reply requestID answer message saved)).promises =
        (s.closeAll (closings canon s (.reply requestID answer message saved))).promises := by
  rw [step, reply]
  rcases hfound : lookup requestID s.pending with - | existing
  · simp [closings, hfound, State.closeAll]
  · cases answer with
    | reject =>
      have hpending : (s.close requestID existing .reject (rejection message)).pending =
          delete requestID s.pending := rfl
      simp only [closings, hfound, rejectSession_eq, hpending]
      exact ⟨rfl, rfl⟩
    | once =>
      simp only [closings, hfound]
      exact ⟨rfl, rfl⟩
    | always =>
      simp only [closings, hfound, resolveSession_eq, closeAll_pending, closeAll_promises]
      exact ⟨rfl, rfl⟩

/-! ### The record of every run -/

/-- What holds of the record in every reachable state: a key stands once and is the
identifier of its request, no promise stands under two keys, and what is on the record
waits. -/
structure Record (s : State) : Prop where
  keys : (s.pending.map Prod.fst).Nodup
  ids : ∀ e ∈ s.pending, e.2.info.id = e.1
  distinct : ∀ e ∈ s.pending, ∀ e' ∈ s.pending, e.2.promise = e'.2.promise → e = e'
  waits : ∀ e ∈ s.pending, s.promises[e.2.promise]? = some none

theorem mem_delete : e ∈ delete id pending ↔ e ∈ pending ∧ e.1 ≠ id := by
  rw [delete, List.mem_filter, decide_eq_true_eq]

theorem mem_assign {entry : Pending} :
    e ∈ assign id entry pending ↔ e = (id, entry) ∨ e ∈ pending ∧ e.1 ≠ id := by
  unfold assign
  split
  next hmem =>
    obtain ⟨old, hold, hid⟩ : ∃ old ∈ pending, old.1 = id := by simpa using hmem
    rw [List.mem_map]
    constructor
    · rintro ⟨e, he, rfl⟩
      split
      · exact Or.inl rfl
      next hne => exact Or.inr ⟨he, hne⟩
    · rintro (rfl | ⟨he, hne⟩)
      · exact ⟨old, hold, if_pos hid⟩
      · exact ⟨e, he, if_neg hne⟩
  next hmem =>
    have hnot : ∀ old ∈ pending, old.1 ≠ id := by
      intro old hold hid
      exact hmem (List.any_eq_true.mpr ⟨old, hold, decide_eq_true hid⟩)
    rw [List.mem_append, List.mem_singleton]
    constructor
    · rintro (he | rfl)
      · exact Or.inr ⟨he, hnot e he⟩
      · exact Or.inl rfl
    · rintro (rfl | ⟨he, -⟩)
      · exact Or.inr rfl
      · exact Or.inl he

theorem nodup_keys_assign (h : (pending.map Prod.fst).Nodup) (entry : Pending) :
    ((assign id entry pending).map Prod.fst).Nodup := by
  unfold assign
  split
  next hmem =>
    have hkeys : (pending.map fun e => if e.1 = id then (id, entry) else e).map Prod.fst =
        pending.map Prod.fst := by
      rw [List.map_map]
      refine List.map_congr_left fun e _ => ?_
      show (if e.1 = id then (id, entry) else e).1 = e.1
      split
      next hid => exact hid.symm
      · rfl
    rwa [hkeys]
  next hmem =>
    rw [List.map_append, List.map_singleton, List.nodup_append]
    refine ⟨h, List.nodup_singleton id, ?_⟩
    rintro key hkey _ hid rfl
    obtain ⟨e, he, hfst⟩ := List.mem_map.mp hkey
    refine hmem (List.any_eq_true.mpr ⟨e, he, ?_⟩)
    rw [hfst, List.mem_singleton.mp hid]
    exact decide_eq_true rfl

theorem Record.lookup_iff (h : Record s) {entry : Pending} :
    lookup id s.pending = some entry ↔ (id, entry) ∈ s.pending := by
  rw [lookup, Option.map_eq_some_iff]
  constructor
  · rintro ⟨e, hfind, rfl⟩
    have hid : e.1 = id := by simpa using List.find?_some hfind
    rw [← hid]
    exact List.mem_of_find?_eq_some hfind
  · intro hmem
    obtain ⟨e, hfind⟩ : ∃ e, s.pending.find? (fun e => e.1 = id) = some e := by
      rw [← Option.isSome_iff_exists, List.find?_isSome]
      exact ⟨_, hmem, decide_eq_true rfl⟩
    have hid : e.1 = id := by simpa using List.find?_some hfind
    have heq : e = (id, entry) :=
      List.inj_on_of_nodup_map h.keys (List.mem_of_find?_eq_some hfind) hmem hid
    exact ⟨e, hfind, by rw [heq]⟩

theorem Record.mem_closings (h : Record s) {call : Call} {c : Closing}
    (hc : c ∈ closings canon s call) :
    (c.id, c.entry) ∈ s.pending ∧ ∃ requestID answer message saved existing,
      call = .reply requestID answer message saved ∧ lookup requestID s.pending = some existing ∧
        c.entry.info.sessionID = existing.info.sessionID := by
  rcases call with ⟨mode, input, fresh⟩ | ⟨requestID, answer, message, saved⟩
  · simp [closings] at hc
  · rcases hfound : lookup requestID s.pending with - | existing
    · simp [closings, hfound] at hc
    · have hhere : (requestID, existing) ∈ s.pending := h.lookup_iff.mp hfound
      have hothers : ∀ e ∈ others s requestID existing,
          e ∈ s.pending ∧ e.2.info.sessionID = existing.info.sessionID := by
        intro e he
        obtain ⟨hdel, hsession⟩ := List.mem_filter.mp he
        exact ⟨(mem_delete.mp hdel).1, of_decide_eq_true hsession⟩
      suffices hsuff : (c.id, c.entry) ∈ s.pending ∧
          c.entry.info.sessionID = existing.info.sessionID from
        ⟨hsuff.1, requestID, answer, message, saved, existing, rfl, hfound, hsuff.2⟩
      simp only [closings, hfound] at hc
      cases answer with
      | reject =>
        rcases List.mem_cons.mp hc with rfl | hc
        · exact ⟨hhere, rfl⟩
        · obtain ⟨e, he, rfl⟩ := List.mem_map.mp hc
          exact hothers e he
      | once =>
        obtain rfl := List.mem_singleton.mp hc
        exact ⟨hhere, rfl⟩
      | always =>
        rcases List.mem_cons.mp hc with rfl | hc
        · exact ⟨hhere, rfl⟩
        · obtain ⟨e, he, rfl⟩ := List.mem_map.mp hc
          exact hothers e (List.mem_of_mem_filter he)

theorem Record.nodup_closings (h : Record s) (call : Call) :
    ((closings canon s call).map fun c => c.entry.promise).Nodup := by
  have hpending : s.pending.Nodup := List.Nodup.of_map _ h.keys
  -- the answered request comes first, and what follows is a part of the others
  have hcons : ∀ (requestID : PermissionID) (existing : Pending) (reply : Reply)
      (how : Settlement) (rest : List (PermissionID × Pending)) (f : _ → Closing),
      (requestID, existing) ∈ s.pending → rest.Sublist (others s requestID existing) →
      (∀ e, (f e).entry = e.2) →
      (((⟨requestID, existing, reply, how⟩ : Closing) :: rest.map f).map
        fun c => c.entry.promise).Nodup := by
    intro requestID existing reply how rest f hhere hrest hf
    have hsub : rest.Sublist (delete requestID s.pending) := hrest.trans List.filter_sublist
    have hmem : ∀ e ∈ rest, e ∈ s.pending ∧ e.1 ≠ requestID := fun e he =>
      mem_delete.mp (hsub.subset he)
    rw [List.map_cons, List.map_map, List.nodup_cons]
    constructor
    · intro hin
      obtain ⟨e, he, hpromise⟩ := List.mem_map.mp hin
      have heq : e = (requestID, existing) :=
        h.distinct e (hmem e he).1 _ hhere (by simpa [hf] using hpromise)
      exact (hmem e he).2 (by rw [heq])
    · have hnodup : rest.Nodup := (hpending.sublist List.filter_sublist).sublist hsub
      refine hnodup.map_on fun e he e' he' hpromise => ?_
      exact h.distinct e (hmem e he).1 e' (hmem e' he').1 (by simpa [hf] using hpromise)
  rcases call with ⟨mode, input, fresh⟩ | ⟨requestID, answer, message, saved⟩
  · exact List.nodup_nil
  · rcases hfound : lookup requestID s.pending with - | existing
    · simp [closings, hfound]
    · have hhere : (requestID, existing) ∈ s.pending := h.lookup_iff.mp hfound
      simp only [closings, hfound]
      cases answer with
      | reject => exact hcons _ _ _ _ _ _ hhere (List.Sublist.refl _) fun _ => rfl
      | once => simp
      | always => exact hcons _ _ _ _ _ _ hhere List.filter_sublist fun _ => rfl

theorem settle_other {j : ℕ} (h : j ≠ i) (how : Settlement) (promises : List (Option Settlement)) :
    (settle j how promises)[i]? = promises[i]? := by
  rw [settle, List.getElem?_modify]
  simp [h]

theorem closeAll_other (h : ∀ c ∈ cs, c.entry.promise ≠ i) :
    (s.closeAll cs).promises[i]? = s.promises[i]? := by
  induction cs generalizing s with
  | nil => rfl
  | cons c cs ih =>
    have hrest : ∀ c ∈ cs, c.entry.promise ≠ i := fun c hc => h c (List.mem_cons_of_mem _ hc)
    refine (ih (s := s.close c.id c.entry c.reply c.how) hrest).trans ?_
    show (settle c.entry.promise c.how s.promises)[i]? = s.promises[i]?
    exact settle_other (h c List.mem_cons_self) _ _

theorem closeAll_settled (h : s.promises[i]? = some (some how)) (cs : List Closing) :
    (s.closeAll cs).promises[i]? = some (some how) :=
  foldl_settled (fun _ _ hs => settle_settled hs _ _) cs s h

theorem closeAll_closed (hi : s.promises[i]? = some none) (h : ∃ c ∈ cs, c.entry.promise = i) :
    ∃ how, (s.closeAll cs).promises[i]? = some (some how) := by
  induction cs generalizing s with
  | nil => simp at h
  | cons c cs ih =>
    by_cases hc : c.entry.promise = i
    · refine ⟨c.how, closeAll_settled (s := s.close c.id c.entry c.reply c.how) ?_ cs⟩
      rw [← hc]
      exact settle_waiting (by rw [hc]; exact hi) c.how
    · obtain ⟨c', hc', hpromise⟩ := h
      rcases List.mem_cons.mp hc' with rfl | hc'
      · exact absurd hpromise hc
      · refine ih (s := s.close c.id c.entry c.reply c.how) ?_ ⟨c', hc', hpromise⟩
        show (settle c.entry.promise c.how s.promises)[i]? = some none
        rw [settle_other hc, hi]

theorem mem_closeAll_pending :
    e ∈ (s.closeAll cs).pending ↔ e ∈ s.pending ∧ ∀ c ∈ cs, e.1 ≠ c.id := by
  induction cs generalizing s with
  | nil => simp [State.closeAll]
  | cons c cs ih =>
    refine (ih (s := s.close c.id c.entry c.reply c.how)).trans ?_
    show e ∈ delete c.id s.pending ∧ _ ↔ _
    rw [mem_delete, List.forall_mem_cons, and_assoc]

/-! ### The record after a call -/

theorem mem_reply_pending {answer : Reply} :
    e ∈ (step canon s (.reply requestID answer message saved)).pending ↔
      e ∈ s.pending ∧
        ∀ c ∈ closings canon s (.reply requestID answer message saved), e.1 ≠ c.id := by
  rw [(step_reply s requestID answer message saved).1, mem_closeAll_pending]

theorem promise_step (canon : UInt16 → UInt16) (hi : s.promises[i]? = some none) (call : Call) :
    ((step canon s call).promises[i]? = some none ∧
        ∀ c ∈ closings canon s call, c.entry.promise ≠ i) ∨
      ((∃ how, (step canon s call).promises[i]? = some (some how)) ∧
        ∃ c ∈ closings canon s call, c.entry.promise = i) := by
  rcases call with ⟨mode, input, fresh⟩ | ⟨requestID, answer, message, saved⟩
  · obtain ⟨p, hp⟩ := ask_promises canon s mode input fresh
    have hlt : i < s.promises.length := (List.getElem?_eq_some_iff.mp hi).1
    refine Or.inl ⟨?_, fun c hc => by simp [closings] at hc⟩
    rw [step, hp, List.getElem?_append_left hlt, hi]
  · rw [(step_reply s requestID answer message saved).2]
    by_cases hc : ∃ c ∈ closings canon s (.reply requestID answer message saved),
        c.entry.promise = i
    · exact Or.inr ⟨closeAll_closed hi hc, hc⟩
    · have hother : ∀ c ∈ closings canon s (.reply requestID answer message saved),
          c.entry.promise ≠ i := fun c hmem heq => hc ⟨c, hmem, heq⟩
      exact Or.inl ⟨(closeAll_other hother).trans hi, hother⟩

theorem Record.after_reply (h : Record s) (requestID : PermissionID) (answer : Reply)
    (message : Option JsString) (saved : Bool) :
    Record (step canon s (.reply requestID answer message saved)) := by
  have hold : ∀ e ∈ (step canon s (.reply requestID answer message saved)).pending,
      e ∈ s.pending := fun e he => (mem_reply_pending.mp he).1
  refine ⟨?_, fun e he => h.ids e (hold e he),
    fun e he e' he' => h.distinct e (hold e he) e' (hold e' he'), fun e he => ?_⟩
  · rw [(step_reply s requestID answer message saved).1, closeAll_pending]
    generalize closings canon s (.reply requestID answer message saved) = cs
    have hkeys := h.keys
    generalize s.pending = pending at hkeys ⊢
    induction cs generalizing pending with
    | nil => exact hkeys
    | cons c cs ih => exact ih _ (hkeys.sublist (List.Sublist.map _ List.filter_sublist))
  · obtain ⟨hmem, hids⟩ := mem_reply_pending.mp he
    rcases promise_step canon (h.waits e hmem) (.reply requestID answer message saved) with
      ⟨hwaits, -⟩ | ⟨-, c, hc, hpromise⟩
    · exact hwaits
    · have heq := h.distinct _ (h.mem_closings hc).1 e hmem hpromise
      exact absurd (by rw [← heq]) (hids c hc)

theorem Record.after_ask (h : Record s) (mode : Option PermissionMode) (input : AskInput)
    (fresh : PermissionID) : Record (step canon s (.ask mode input fresh)) := by
  have hnew : ∀ p, ∀ e ∈ s.pending, (s.promises ++ [p])[e.2.promise]? = some none := by
    intro p e he
    rw [List.getElem?_append_left (List.getElem?_eq_some_iff.mp (h.waits e he)).1, h.waits e he]
  rw [step, ask]
  split
  · exact ⟨h.keys, h.ids, h.distinct, hnew _⟩
  · exact ⟨h.keys, h.ids, h.distinct, hnew _⟩
  · have hfar : ∀ e ∈ s.pending, e.2.promise ≠ s.promises.length := fun e he heq => by
      have hlt := (List.getElem?_eq_some_iff.mp (h.waits e he)).1
      omega
    refine ⟨nodup_keys_assign h.keys _, fun e he => ?_, fun e he e' he' hpromise => ?_,
      fun e he => ?_⟩
    · rcases mem_assign.mp he with rfl | ⟨he, -⟩
      · rfl
      · exact h.ids e he
    · rcases mem_assign.mp he with rfl | ⟨he, -⟩ <;> rcases mem_assign.mp he' with rfl | ⟨he', -⟩
      · rfl
      · exact absurd hpromise.symm (hfar e' he')
      · exact absurd hpromise (hfar e he)
      · exact h.distinct e he e' he' hpromise
    · rcases mem_assign.mp he with rfl | ⟨he, -⟩
      · simp
      · exact hnew _ e he

theorem Record.after (h : Record s) (call : Call) : Record (step canon s call) := by
  cases call with
  | ask mode input fresh => exact h.after_ask mode input fresh
  | reply requestID answer message saved => exact h.after_reply requestID answer message saved

theorem record_createState (stored : Option Ruleset) : Record (createState stored) :=
  ⟨List.nodup_nil, by simp [createState], by simp [createState], by simp [createState]⟩

theorem Record.afterRun (h : Record s) (calls : List Call) : Record (run (step canon) s calls) :=
  run_invariant Record h (fun _ call hs => hs.after call) calls

/-! ### What a run settles -/

theorem Record.settled_not_closed (h : Record s) (hi : s.promises[i]? = some (some how))
    {call : Call} : ∀ c ∈ closings canon s call, c.entry.promise ≠ i := by
  rintro c hc rfl
  have hwaits := h.waits _ (h.mem_closings hc).1
  rw [hi] at hwaits
  simp at hwaits

theorem Record.count_settled (h : Record s) (hi : s.promises[i]? = some (some how))
    (calls : List Call) : (settlements canon s calls).count i = 0 := by
  induction calls generalizing s with
  | nil => rfl
  | cons call calls ih =>
    rw [settlements, List.count_append, ih (h.after call) (step_settled hi call), Nat.add_zero,
      List.count_eq_zero]
    rintro hmem
    obtain ⟨c, hc, hpromise⟩ := List.mem_map.mp hmem
    exact h.settled_not_closed hi c hc hpromise

/-- **No promise is settled twice.** Along any run a promise that waits goes on waiting and
no answer settles it, or exactly one answer does. -/
theorem run_ledger (h : Record s) (hi : s.promises[i]? = some none) (calls : List Call) :
    ((run (step canon) s calls).promises[i]? = some none ∧
        (settlements canon s calls).count i = 0) ∨
      ((∃ how, (run (step canon) s calls).promises[i]? = some (some how)) ∧
        (settlements canon s calls).count i = 1) := by
  induction calls generalizing s with
  | nil => exact Or.inl ⟨hi, rfl⟩
  | cons call calls ih =>
    rw [run_cons, settlements, List.count_append]
    rcases promise_step canon hi call with ⟨hwaits, hnone⟩ | ⟨⟨how, hsettled⟩, hclosed⟩
    · have hzero : ((closings canon s call).map fun c => c.entry.promise).count i = 0 := by
        rw [List.count_eq_zero]
        intro hmem
        obtain ⟨c, hc, hpromise⟩ := List.mem_map.mp hmem
        exact hnone c hc hpromise
      rw [hzero, Nat.zero_add]
      exact ih (h.after call) hwaits
    · have hone : ((closings canon s call).map fun c => c.entry.promise).count i = 1 :=
        List.count_eq_one_of_mem (h.nodup_closings call) (List.mem_map.mpr hclosed)
      rw [hone, (h.after call).count_settled hsettled]
      exact Or.inr ⟨⟨how, run_settled hsettled calls⟩, rfl⟩

/-! ### Identifiers in use -/

/-- The call does not leave a request under an identifier under which one waits. -/
def NewId (canon : UInt16 → UInt16) (s : State) : Call → Prop
  | .ask mode input fresh =>
    walk mode (input.action canon s.approved) input.patterns = .asked →
      lookup (input.request fresh).id s.pending = none
  | .reply _ _ _ _ => True

theorem lookup_eq_none : lookup id pending = none ↔ ∀ e ∈ pending, e.1 ≠ id := by
  rw [lookup, Option.map_eq_none_iff, List.find?_eq_none]
  refine forall₂_congr fun e _ => ?_
  rw [decide_eq_true_eq]

theorem Record.entry_step (h : Record s) (he : e ∈ s.pending) {call : Call}
    (hnew : NewId canon s call) :
    e ∈ (step canon s call).pending ∨
      ∃ how, (step canon s call).promises[e.2.promise]? = some (some how) := by
  rcases call with ⟨mode, input, fresh⟩ | ⟨requestID, answer, message, saved⟩
  · refine Or.inl ?_
    rw [step]
    cases hwalk : walk mode (input.action canon s.approved) input.patterns with
    | returned => simpa [ask, hwalk] using he
    | denied => simpa [ask, hwalk] using he
    | asked =>
      rw [ask_of_asked hwalk]
      exact mem_assign.mpr (Or.inr ⟨he, lookup_eq_none.mp (hnew hwalk) e he⟩)
  · rcases promise_step canon (h.waits e he) (.reply requestID answer message saved) with
      ⟨-, hnone⟩ | ⟨hsettled, -⟩
    · refine Or.inl (mem_reply_pending.mpr ⟨he, fun c hc hid => ?_⟩)
      have heq : e = (c.id, c.entry) :=
        List.inj_on_of_nodup_map h.keys he (h.mem_closings hc).1 hid
      exact hnone c hc (by rw [heq])
    · exact Or.inr hsettled

theorem Record.entry_run (h : Record s) (he : e ∈ s.pending) {calls : List Call}
    (hnew : Meets (step canon) (NewId canon) s calls) :
    e ∈ (run (step canon) s calls).pending ∨
      ∃ how, (run (step canon) s calls).promises[e.2.promise]? =
        some (some how) := by
  induction calls generalizing s with
  | nil => exact Or.inl he
  | cons call calls ih =>
    rcases h.entry_step he hnew.1 with hin | ⟨how, hsettled⟩
    · exact ih (h.after call) hin hnew.2
    · exact Or.inr ⟨how, run_settled hsettled calls⟩

/-! ### Every promise accounted for -/

/-- The promise `i` of a request is waiting, unsettled and on the record under the
request's identifier, or it was settled exactly once. -/
def Accounted (t : State) (info : Request) (i : ℕ) (settled : List ℕ) : Prop :=
  (lookup info.id t.pending = some ⟨info, i⟩ ∧ t.promises[i]? = some none ∧
      settled.count i = 0) ∨
    ((∃ how, t.promises[i]? = some (some how)) ∧ settled.count i = 1)

/-- What a run owes to the requests that it leaves waiting, in every state it reaches. -/
structure PendingKept (canon : UInt16 → UInt16) (s : State) (calls : List Call) : Prop where
  /-- A promise left waiting is accounted for ever after. -/
  accounted : ∀ before mode input fresh after rest,
    calls = before ++ .ask mode input fresh :: (after ++ rest) →
    walk mode (input.action canon (run (step canon) s before).approved) input.patterns = .asked →
    Accounted (run (step canon) (step canon (run (step canon) s before) (.ask mode input fresh))
        after)
      (input.request fresh) (run (step canon) s before).promises.length
      (settlements canon (step canon (run (step canon) s before) (.ask mode input fresh)) after)
  /-- An answer leaves the requests of other sessions alone. -/
  own_session : ∀ before requestID answer message saved rest,
    calls = before ++ .reply requestID answer message saved :: rest →
    ∀ e ∈ (run (step canon) s before).pending,
      (∀ existing, lookup requestID (run (step canon) s before).pending = some existing →
        e.2.info.sessionID ≠ existing.info.sessionID) →
      e ∈ (step canon (run (step canon) s before)
          (.reply requestID answer message saved)).pending ∧
        (step canon (run (step canon) s before)
          (.reply requestID answer message saved)).promises[e.2.promise]? = some none
  /-- A rejection leaves nothing of its session waiting. -/
  rejected : ∀ before requestID message saved rest existing,
    calls = before ++ .reply requestID .reject message saved :: rest →
    lookup requestID (run (step canon) s before).pending = some existing →
    ∀ e ∈ (step canon (run (step canon) s before)
        (.reply requestID .reject message saved)).pending,
      e.2.info.sessionID ≠ existing.info.sessionID

theorem Record.other_session (h : Record s) {answer : Reply} (he : e ∈ s.pending)
    (hsession : ∀ existing, lookup requestID s.pending = some existing →
      e.2.info.sessionID ≠ existing.info.sessionID) :
    e ∈ (step canon s (.reply requestID answer message saved)).pending ∧
      (step canon s (.reply requestID answer message saved)).promises[e.2.promise]? =
        some none := by
  -- what is closed is of the session of the request answered
  have hnot : ∀ c ∈ closings canon s (.reply requestID answer message saved),
      (c.id, c.entry) ≠ e := by
    rintro c hc rfl
    obtain ⟨-, _, _, _, _, existing, hcall, hfound, hsame⟩ := h.mem_closings hc
    obtain ⟨rfl, -, -, -⟩ : requestID = _ ∧ _ ∧ _ ∧ _ := by simpa using hcall
    exact hsession existing hfound hsame
  refine ⟨mem_reply_pending.mpr ⟨he, fun c hc hid => ?_⟩, ?_⟩
  · exact hnot c hc (List.inj_on_of_nodup_map h.keys (h.mem_closings hc).1 he hid.symm)
  · rcases promise_step canon (h.waits e he) (.reply requestID answer message saved) with
      ⟨hwaits, -⟩ | ⟨-, c, hc, hpromise⟩
    · exact hwaits
    · exact absurd (h.distinct _ (h.mem_closings hc).1 e he hpromise) (hnot c hc)

theorem session_rejected {existing : Pending}
    (hfound : lookup requestID s.pending = some existing) :
    ∀ e ∈ (step canon s (.reply requestID .reject message saved)).pending,
      e.2.info.sessionID ≠ existing.info.sessionID := by
  intro e he hsession
  obtain ⟨hmem, hids⟩ := mem_reply_pending.mp he
  simp only [closings, hfound] at hids
  rw [List.forall_mem_cons] at hids
  obtain ⟨hne, hothers⟩ := hids
  have hother : e ∈ others s requestID existing :=
    List.mem_filter.mpr ⟨mem_delete.mpr ⟨hmem, hne⟩, decide_eq_true hsession⟩
  exact hothers _ (List.mem_map.mpr ⟨e, hother, rfl⟩) rfl

theorem entry_origin (hs : s.pending = []) {calls : List Call}
    (he : e ∈ (run (step canon) s calls).pending) :
    ∃ before mode input fresh after, calls = before ++ .ask mode input fresh :: after ∧
      walk mode (input.action canon (run (step canon) s before).approved) input.patterns =
        .asked ∧
      e = ((input.request fresh).id,
        ⟨input.request fresh, (run (step canon) s before).promises.length⟩) := by
  induction calls using List.reverseRecOn generalizing e with
  | nil => simp [hs] at he
  | append_singleton calls call ih =>
    -- an entry is new at the last call or was there before it
    have hsplit : e ∈ (run (step canon) s calls).pending ∨
        ∃ mode input fresh, call = .ask mode input fresh ∧
          walk mode (input.action canon (run (step canon) s calls).approved) input.patterns =
            .asked ∧
          e = ((input.request fresh).id,
            ⟨input.request fresh, (run (step canon) s calls).promises.length⟩) := by
      rw [run_concat] at he
      rcases call with ⟨mode, input, fresh⟩ | ⟨requestID, answer, message, saved⟩
      · rw [step] at he
        cases hwalk : walk mode (input.action canon (run (step canon) s calls).approved)
            input.patterns with
        | returned => exact Or.inl (by simpa [ask, hwalk] using he)
        | denied => exact Or.inl (by simpa [ask, hwalk] using he)
        | asked =>
          rw [ask_of_asked hwalk] at he
          rcases mem_assign.mp he with rfl | ⟨hold, -⟩
          · exact Or.inr ⟨mode, input, fresh, rfl, hwalk, rfl⟩
          · exact Or.inl hold
      · exact Or.inl (mem_reply_pending.mp he).1
    rcases hsplit with hold | ⟨mode, input, fresh, rfl, hwalk, rfl⟩
    · obtain ⟨before, mode, input, fresh, after, rfl, hwalk, rfl⟩ := ih hold
      exact ⟨before, mode, input, fresh, after ++ [call], by simp, hwalk, rfl⟩
    · exact ⟨calls, mode, input, fresh, [], rfl, hwalk, rfl⟩

/-- **Requests are lost exactly by taking an identifier again.** Along a run from an empty
record every promise left waiting stays on the record under its identifier or is settled
exactly once, no answer settles a request of another session, and a rejection clears its
session; and this is so if and only if no call leaves a request under an identifier under
which one waits. -/
theorem pending_kept_iff (canon : UInt16 → UInt16) (stored : Option Ruleset)
    (calls : List Call) :
    PendingKept canon (createState stored) calls ↔
      Meets (step canon) (NewId canon) (createState stored) calls := by
  have hrecord : ∀ before, Record (run (step canon) (createState stored) before) :=
    fun before => (record_createState stored).afterRun before
  constructor
  · intro h
    refine Meets.iff_split.mpr fun before call rest hcalls => ?_
    rcases call with ⟨mode, input, fresh⟩ | ⟨requestID, answer, message, saved⟩
    · intro hwalk
      by_contra hused
      -- an earlier request waits under the identifier
      obtain ⟨old, hold⟩ := Option.ne_none_iff_exists'.mp hused
      have hmem := (hrecord before).lookup_iff.mp hold
      obtain ⟨b, mode', input', fresh', b', rfl, hwalk', heq⟩ := entry_origin rfl hmem
      obtain ⟨hid, rfl⟩ := Prod.mk.inj heq
      have hwaits := (hrecord _).waits _ hmem
      have hacc := h.accounted b mode' input' fresh' (b' ++ [.ask mode input fresh]) rest
        (by simp [hcalls]) hwalk'
      -- and this call puts another one in its place
      rw [run_concat, ← run_cons, ← run_append, step, ask_of_asked hwalk] at hacc
      rcases hacc with ⟨hfound, -, -⟩ | ⟨⟨how, hsettled⟩, -⟩
      · rw [← hid, lookup_assign] at hfound
        have hlen := congrArg Pending.promise (Option.some.inj hfound)
        have hlt := (List.getElem?_eq_some_iff.mp hwaits).1
        simp only at hlen hlt
        omega
      · rw [List.getElem?_append_left (List.getElem?_eq_some_iff.mp hwaits).1, hwaits] at hsettled
        simp at hsettled
    · trivial
  · intro h
    refine ⟨fun before mode input fresh after rest hcalls hwalk => ?_,
      fun before _ _ _ _ _ _ e he => (hrecord before).other_session he,
      fun _ _ _ _ _ _ _ hfound => session_rejected hfound⟩
    have hasked : step canon (run (step canon) (createState stored) before)
        (.ask mode input fresh) = _ := ask_of_asked hwalk fresh
    have hafter : Record (step canon (run (step canon) (createState stored) before)
        (.ask mode input fresh)) := (hrecord before).after _
    have hmem : ((input.request fresh).id, (⟨input.request fresh,
        (run (step canon) (createState stored) before).promises.length⟩ : Pending)) ∈
        (step canon (run (step canon) (createState stored) before)
          (.ask mode input fresh)).pending := by
      rw [hasked]
      exact mem_assign.mpr (Or.inl rfl)
    have hmeets := Meets.append.mp (hcalls ▸ h)
    have hnew := (Meets.append.mp hmeets.2.2).1
    rcases run_ledger hafter (hafter.waits _ hmem) after with ⟨hwaits, hzero⟩ | hsettled
    · rcases hafter.entry_run hmem hnew with hin | ⟨how, hset⟩
      · exact Or.inl ⟨(hafter.afterRun after).lookup_iff.mpr hin, hwaits, hzero⟩
      · rw [hwaits] at hset
        simp at hset
    · exact Or.inr hsettled

def namedInput (command : JsString) : AskInput :=
  { bashInput [command] [] with id := some ⟨js "per_x", by decide⟩ }

/-- **A second request under the same name takes the place of the first**, whose caller waits
for good: no answer reaches its promise. -/
theorem request_replaced :
    ¬∀ (canon : UInt16 → UInt16) (stored : Option Ruleset) (calls : List Call),
      PendingKept canon (createState stored) calls := by
  intro h
  have hkept := (h id none [.ask none (namedInput (js "ls")) ⟨js "per_1", by decide⟩,
    .ask none (namedInput (js "pwd")) ⟨js "per_2", by decide⟩]).accounted [] none
      (namedInput (js "ls")) ⟨js "per_1", by decide⟩
      [.ask none (namedInput (js "pwd")) ⟨js "per_2", by decide⟩] [] rfl (by decide)
  rcases hkept with ⟨hfound, -, -⟩ | ⟨-, hcount⟩
  · exact absurd hfound (by decide)
  · exact absurd hcount (by decide)

end Calls

end OpenCms.PermissionNext
