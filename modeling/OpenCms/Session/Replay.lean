import OpenCms.Lib.Runs
import OpenCms.Session.Anchor
import OpenCms.Session.Unanswered
import Mathlib.Data.List.Nodup

/-!
# Writing an unanswered prompt again

When a summary has been written, the prompt that is not answered is before it, and is no longer
shown to the model. So it is written again, behind the summary, and the original is removed
afterwards. It is left alone if it is still shown, as part of the rounds before the summary that
the summary does not hold.

The prompt is never lost, wherever the writes break off; and when they do not break off within the
copy, there are as many copies of it afterwards as before, and one of them is behind the summary or
shown (`OpenCms.SessionCompaction.replayed_run`).
-/

namespace OpenCms.SessionCompaction

open MessageV2 (WithParts PartBody newestFirst filterCompacted)

variable {ρ : Type}

/-! ### The replay -/

/-- What a call of the replay meets with: the flag, whether the session can be read, where the
writes break off, and what is new. -/
structure Call where
  enableUserMsgReplay : Bool
  viewFails : Bool
  readFails : Bool
  stop : Option ℕ
  newUserID : String
  partID : ℕ → String
  now : ℤ

inductive ReplayResult
  | replayed (newUserID : String)
  | featureFlagDisabled
  | alreadyAfterAnchor
  | snapshotAlreadyConsumed
  | exception

def replayedBody : PartBody ρ → PartBody ρ
  | .text _ rest => .text true rest
  | body => body

def copyPart (call : Call) (i : ℕ) (part : MessageV2.Part ρ) : MessageV2.Part ρ :=
  ⟨call.partID i, call.newUserID, replayedBody part.body⟩

def replayWrites (snapshot : UserMessageSnapshot ρ) (call : Call) : List (Write ρ) :=
  .updateMessage call.newUserID call.now snapshot.user.info ::
    (snapshot.user.parts.mapIdx fun i part => .updatePart (copyPart call i part)) ++
      snapshot.emptyAssistantID.toList.map .removeMessage ++ [.removeMessage snapshot.user.id]

def replayUnansweredUserMessage (snapshot : UserMessageSnapshot ρ)
    (messages : List (WithParts ρ)) (call : Call) : List (WithParts ρ) × ReplayResult :=
  let originalUserID := snapshot.user.id
  if call.enableUserMsgReplay = false then (messages, .featureFlagDisabled)
  else if call.viewFails = false ∧
      (filterCompacted (newestFirst messages)).any fun m => m.id = originalUserID then
    (messages, .alreadyAfterAnchor)
  else if call.readFails = false ∧ ¬messages.any fun m => m.id = originalUserID then
    (messages, .snapshotAlreadyConsumed)
  else
    match call.stop with
    | none => ((replayWrites snapshot call).foldl Write.apply messages, .replayed call.newUserID)
    | some k => (((replayWrites snapshot call).take k).foldl Write.apply messages, .exception)

/-! ### What the writes do -/

section Writes

variable {messages : List (WithParts ρ)}

theorem nodup_copyPart {call : Call} (hpartID : call.partID.Injective)
    (parts : List (MessageV2.Part ρ)) :
    ((parts.mapIdx (copyPart call)).map MessageV2.Part.id).Nodup := by
  have hids : (parts.mapIdx (copyPart call)).map MessageV2.Part.id =
      (List.range parts.length).map call.partID := by
    refine List.ext_getElem (by simp) fun i h h' => ?_
    simp [copyPart]
  rw [hids]
  exact List.nodup_range.map hpartID

theorem foldl_replayWrites {snapshot : UserMessageSnapshot ρ} {call : Call}
    (hnew : ∀ m ∈ messages, m.id ≠ call.newUserID) (hpartID : call.partID.Injective)
    (hempty : snapshot.emptyAssistantID ≠ some call.newUserID)
    (huser : snapshot.user.id ≠ call.newUserID) :
    (replayWrites snapshot call).foldl Write.apply messages =
      (messages.filter fun m => snapshot.emptyAssistantID ≠ some m.id ∧ m.id ≠ snapshot.user.id) ++
        [⟨call.newUserID, call.now, snapshot.user.info,
          snapshot.user.parts.mapIdx (copyPart call)⟩] := by
  let m : WithParts ρ := ⟨call.newUserID, call.now, snapshot.user.info, []⟩
  have hfirst : (Write.updateMessage call.newUserID call.now snapshot.user.info).apply messages =
      messages ++ [m] := by
    rw [Write.apply, if_neg]
    simpa using hnew
  have hparts : ((snapshot.user.parts.mapIdx (copyPart call)).map Write.updatePart).foldl
      Write.apply (messages ++ [m]) =
        messages ++ [{ m with parts := snapshot.user.parts.mapIdx (copyPart call) }] := by
    refine foldl_updatePart hnew (fun part hpart => ?_) (nodup_copyPart hpartID _)
    obtain ⟨i, h, rfl⟩ := List.mem_mapIdx.mp hpart
    rfl
  have hmap : (snapshot.user.parts.mapIdx fun i part => Write.updatePart (copyPart call i part)) =
      (snapshot.user.parts.mapIdx (copyPart call)).map Write.updatePart := by
    refine List.ext_getElem (by simp) fun i h h' => ?_
    simp
  rw [replayWrites, List.cons_append, List.cons_append, List.foldl_cons, hfirst,
    List.foldl_append, List.foldl_append, hmap, hparts]
  cases hid : snapshot.emptyAssistantID with
  | none => simp [Write.apply, huser.symm, m]
  | some id =>
    have hid' : call.newUserID ≠ id := fun heq => hempty (hid.trans (congrArg some heq.symm))
    have hfilter : messages.filter (fun m => some id ≠ some m.id ∧ m.id ≠ snapshot.user.id) =
        (messages.filter fun m => m.id ≠ id).filter fun m => m.id ≠ snapshot.user.id := by
      rw [List.filter_filter]
      refine List.filter_congr fun m _ => ?_
      rw [← Bool.decide_and, decide_eq_decide, and_comm]
      exact and_congr_right fun _ => not_congr ((Option.some_inj).trans eq_comm)
    rw [hfilter]
    simp [Write.apply, huser.symm, hid', m]

end Writes

/-! ### Copies of a prompt -/

section Copies

variable [DecidableEq ρ]

def content : PartBody ρ → PartBody ρ
  | .text _ rest => .text false rest
  | body => body

def isCopy (snapshot : UserMessageSnapshot ρ) (m : WithParts ρ) : Bool :=
  m.isUser && (m.parts.map fun part => content part.body) =
    snapshot.user.parts.map fun part => content part.body

/-- **What a compaction leaves when it has written its anchor**: the messages of the user are as
they were, and what is new is the anchor, the newest one. -/
structure Compacted (before : List (WithParts ρ)) (anchor : WithParts ρ)
    (after : List (WithParts ρ)) : Prop where
  nodup : (before.map WithParts.id).Nodup
  nodup_after : (after.map WithParts.id).Nodup
  users : after.filter WithParts.isUser = before.filter WithParts.isUser
  ids : ∀ m ∈ after, m.id = anchor.id ∨ m.id ∈ before.map WithParts.id
  new : anchor.id ∉ before.map WithParts.id
  assistant : anchor.isAssistant
  newest : (newestFirst after).find? WithParts.hasCompactionAnchor = some anchor

omit [DecidableEq ρ] in
def Fresh (before : List (WithParts ρ)) (anchor : WithParts ρ) (messages : List (WithParts ρ))
    (call : Call) : Prop :=
  anchor.id < call.newUserID ∧ call.newUserID ∉ before.map WithParts.id ∧
    call.newUserID ∉ messages.map WithParts.id ∧ call.partID.Injective

/-- A call is not disturbed: the replay is not switched off, its writes do not break off within
the copy, and it is not that it could not find out that the original is gone. -/
def Undisturbed (snapshot : UserMessageSnapshot ρ) (messages : List (WithParts ρ))
    (call : Call) : Prop :=
  call.enableUserMsgReplay = true ∧ (call.stop = none ∨ call.stop = some 0) ∧
    (call.readFails = true → snapshot.user ∈ messages)

def replay (snapshot : UserMessageSnapshot ρ) (messages : List (WithParts ρ)) (call : Call) :
    List (WithParts ρ) :=
  (replayUnansweredUserMessage snapshot messages call).1

def Shown (messages : List (WithParts ρ)) (m : WithParts ρ) : Prop :=
  m ∈ filterCompacted (newestFirst messages)

variable {before messages : List (WithParts ρ)} {anchor m : WithParts ρ}
  {snapshot : UserMessageSnapshot ρ} {call : Call}

structure Captured (before : List (WithParts ρ)) (snapshot : UserMessageSnapshot ρ) : Prop where
  mem : snapshot.user ∈ before
  isUser : snapshot.user.isUser
  child : ∀ id, snapshot.emptyAssistantID = some id →
    ∃ m ∈ before, m.id = id ∧ m.isUser = false

omit [DecidableEq ρ] in
theorem captured_of_snapshot {observed : Observed}
    (h : snapshotUnansweredUserMessage observed (MessageV2.chronological before) =
      some snapshot) : Captured before snapshot := by
  unfold snapshotUnansweredUserMessage at h
  cases hlast : lastMatch isPrompt (MessageV2.chronological before) with
  | none =>
    rw [hlast] at h
    cases h
  | some found =>
    obtain ⟨user, after⟩ := found
    obtain ⟨past, heq, hprompt, -⟩ := lastMatch_eq_some.mp hlast
    simp only [hlast] at h
    split_ifs at h
    cases h
    have hmem : ∀ m ∈ user :: after, m ∈ before := by
      intro m hm
      rw [← MessageV2.mem_chronological, heq]
      exact List.mem_append_right _ hm
    rw [isPrompt, Bool.and_eq_true] at hprompt
    refine ⟨hmem user List.mem_cons_self, hprompt.1, fun id hid => ?_⟩
    obtain ⟨child, hchild, rfl⟩ := Option.map_eq_some_iff.mp hid
    have htake := List.mem_of_head? hchild
    refine ⟨child, hmem child ?_, rfl, ?_⟩
    · exact List.mem_cons_of_mem _ ((List.takeWhile_sublist _).mem htake)
    · have hassistant := List.mem_takeWhile_imp htake
      rw [WithParts.isAssistant_eq] at hassistant
      simpa using hassistant

theorem isCopy_user (hc : Captured before snapshot) : isCopy snapshot snapshot.user := by
  simp [isCopy, hc.isUser]

theorem isUser_of_isCopy (h : isCopy snapshot m) : m.isUser :=
  (Bool.and_eq_true _ _ ▸ h).1

theorem isCopy_copy (hc : Captured before snapshot) :
    isCopy snapshot ⟨call.newUserID, call.now, snapshot.user.info,
      snapshot.user.parts.mapIdx (copyPart call)⟩ := by
  have hcontent : ∀ body : PartBody ρ, content (replayedBody body) = content body := by
    intro body
    cases body <;> rfl
  have hparts : (snapshot.user.parts.mapIdx (copyPart call)).map (fun p => content p.body) =
      snapshot.user.parts.map fun p => content p.body := by
    refine List.ext_getElem (by simp) fun i h h' => ?_
    simp [copyPart, hcontent]
  rw [isCopy, Bool.and_eq_true, decide_eq_true_eq]
  exact ⟨hc.isUser, hparts⟩

omit [DecidableEq ρ] in
theorem Captured.child_ne (hc : Captured before snapshot)
    (hnodup : (before.map WithParts.id).Nodup) (hm : m ∈ before) (huser : m.isUser) :
    snapshot.emptyAssistantID ≠ some m.id := by
  intro heq
  obtain ⟨child, hchild, hid, hnot⟩ := hc.child m.id heq
  rw [List.inj_on_of_nodup_map hnodup hchild hm hid, huser] at hnot
  cases hnot

/-! ### The prompt is never lost -/

def Held (before : List (WithParts ρ)) (snapshot : UserMessageSnapshot ρ)
    (messages : List (WithParts ρ)) : Prop :=
  ∃ m ∈ messages, isCopy snapshot m ∧ (m = snapshot.user ∨ m.id ∉ before.map WithParts.id)

omit [DecidableEq ρ] in
theorem target_mem {write : Write ρ} (h : write ∈ replayWrites snapshot call) :
    write.target = call.newUserID ∨ snapshot.emptyAssistantID = some write.target ∨
      write = .removeMessage snapshot.user.id := by
  rw [replayWrites, List.cons_append, List.cons_append, List.mem_cons, List.mem_append,
    List.mem_append, List.mem_singleton] at h
  rcases h with rfl | (h | h) | rfl
  · exact Or.inl rfl
  · obtain ⟨i, hi, rfl⟩ := List.mem_mapIdx.mp h
    exact Or.inl rfl
  · obtain ⟨id, hid, rfl⟩ := List.mem_map.mp h
    exact Or.inr (Or.inl (Option.mem_toList.mp hid))
  · exact Or.inr (Or.inr rfl)

/-- **Wherever the writes of a replay break off, a copy is left.** -/
theorem Held.writes (hc : Captured before snapshot) (hnodup : (before.map WithParts.id).Nodup)
    (hfresh : Fresh before anchor messages call) (h : Held before snapshot messages) (k : ℕ) :
    Held before snapshot (((replayWrites snapshot call).take k).foldl Write.apply messages) := by
  obtain ⟨-, hbefore, hmessages, hpartID⟩ := hfresh
  have hchild : ∀ id, snapshot.emptyAssistantID = some id → id ∈ before.map WithParts.id := by
    intro id hid
    obtain ⟨child, hmem, rfl, -⟩ := hc.child id hid
    exact List.mem_map_of_mem hmem
  have huser : snapshot.user.id ∈ before.map WithParts.id := List.mem_map_of_mem hc.mem
  obtain ⟨m, hm, hcopy, hwhich⟩ := h
  have hnew : call.newUserID ≠ m.id := fun heq =>
    hmessages (heq ▸ List.mem_map_of_mem hm)
  rcases hwhich with rfl | hid
  · rcases Nat.lt_or_ge k (replayWrites snapshot call).length with hlt | hge
    · -- the original is removed last
      refine ⟨snapshot.user, mem_foldl_apply hm fun write hw => ?_, hcopy, Or.inl rfl⟩
      have hinit : write ∈ (replayWrites snapshot call).dropLast := by
        rw [List.dropLast_eq_take]
        exact (List.take_subset_take_left _ (by omega)) hw
      rw [replayWrites, List.dropLast_concat] at hinit
      rw [List.cons_append, List.mem_cons, List.mem_append] at hinit
      rcases hinit with rfl | hpart | hremove
      · exact hnew
      · obtain ⟨i, hi, rfl⟩ := List.mem_mapIdx.mp hpart
        exact hnew
      · obtain ⟨id, hid, rfl⟩ := List.mem_map.mp hremove
        exact fun heq => hc.child_ne hnodup hc.mem hc.isUser
          ((Option.mem_toList.mp hid).trans (congrArg some heq))
    · rw [List.take_of_length_le hge, foldl_replayWrites _ hpartID _ (Ne.symm hnew)]
      · exact ⟨_, List.mem_append_right _ (List.mem_singleton_self _), isCopy_copy hc,
          Or.inr hbefore⟩
      · exact fun m hm heq => hmessages (heq ▸ List.mem_map_of_mem hm)
      · exact fun heq => hbefore (hchild _ heq)
  · refine ⟨m, mem_foldl_apply hm fun write hw => ?_, hcopy, Or.inr hid⟩
    rcases target_mem (List.mem_of_mem_take hw) with htarget | htarget | rfl
    · exact htarget ▸ hnew
    · exact fun heq => hid (heq ▸ hchild _ htarget)
    · exact fun heq => hid (heq ▸ huser)

theorem Held.replay (hc : Captured before snapshot) (hnodup : (before.map WithParts.id).Nodup)
    (hfresh : Fresh before anchor messages call) (h : Held before snapshot messages) :
    Held before snapshot (replay snapshot messages call) := by
  have hwrites := fun k => h.writes hc hnodup hfresh k
  unfold SessionCompaction.replay replayUnansweredUserMessage
  simp only
  split_ifs
  · exact h
  · exact h
  · exact h
  · cases call.stop with
    | none =>
      have hall := hwrites (replayWrites snapshot call).length
      rwa [List.take_length] at hall
    | some k => exact hwrites k

/-! ### Calls that are not disturbed -/

def copies (snapshot : UserMessageSnapshot ρ) (messages : List (WithParts ρ)) : ℕ :=
  messages.countP (isCopy snapshot)

/-- The original is gone, and a copy is behind the anchor. -/
structure Done (before : List (WithParts ρ)) (anchor : WithParts ρ)
    (snapshot : UserMessageSnapshot ρ) (messages : List (WithParts ρ)) : Prop where
  gone : ∀ m ∈ messages, m.id ≠ snapshot.user.id
  count : copies snapshot messages = copies snapshot before
  behind : ∃ m ∈ messages, isCopy snapshot m ∧ anchor.id < m.id

theorem copies_eq_filter (messages : List (WithParts ρ)) :
    copies snapshot messages = copies snapshot (messages.filter WithParts.isUser) := by
  rw [copies, copies, List.countP_filter]
  refine List.countP_congr fun m _ => ?_
  rw [Bool.and_eq_true]
  exact ⟨fun h => ⟨h, isUser_of_isCopy h⟩, And.left⟩

theorem copies_remove (hc : Captured before snapshot) (hnodup : (before.map WithParts.id).Nodup) :
    copies snapshot (before.filter fun m => m.id ≠ snapshot.user.id) + 1 =
      copies snapshot before := by
  obtain ⟨l, l', rfl⟩ := List.append_of_mem hc.mem
  rw [List.map_append, List.map_cons, List.nodup_append, List.nodup_cons] at hnodup
  obtain ⟨-, ⟨hnot', -⟩, hdisj⟩ := hnodup
  have hl : l.filter (fun m => m.id ≠ snapshot.user.id) = l :=
    List.filter_eq_self.mpr fun m hm => decide_eq_true
      (hdisj m.id (List.mem_map_of_mem hm) _ List.mem_cons_self)
  have hl' : l'.filter (fun m => m.id ≠ snapshot.user.id) = l' :=
    List.filter_eq_self.mpr fun m hm => decide_eq_true fun heq =>
      hnot' (heq ▸ List.mem_map_of_mem hm)
  rw [List.filter_append, List.filter_cons_of_neg (by simp), hl, hl', copies, copies,
    List.countP_append, List.countP_append, List.countP_cons_of_pos (isCopy_user hc)]
  omega

/-- **A replay that does not break off writes as many copies as it removes.** -/
theorem done_writes (hc : Captured before snapshot) (hcomp : Compacted before anchor messages)
    (hfresh : Fresh before anchor messages call) :
    Done before anchor snapshot
      ((replayWrites snapshot call).foldl Write.apply messages) := by
  obtain ⟨hbehind, hbefore, hmessages, hpartID⟩ := hfresh
  have huser : snapshot.user.id ≠ call.newUserID := fun heq =>
    hbefore (heq ▸ List.mem_map_of_mem hc.mem)
  have hempty : snapshot.emptyAssistantID ≠ some call.newUserID := by
    intro heq
    obtain ⟨child, hmem, hid, -⟩ := hc.child _ heq
    exact hbefore (hid ▸ List.mem_map_of_mem hmem)
  have hcopy : isCopy snapshot ⟨call.newUserID, call.now, snapshot.user.info,
      snapshot.user.parts.mapIdx (copyPart call)⟩ := isCopy_copy hc
  rw [foldl_replayWrites (fun m hm heq => hmessages (heq ▸ List.mem_map_of_mem hm)) hpartID
    hempty huser]
  refine ⟨fun m hm => ?_, ?_, _, List.mem_append_right _ (List.mem_singleton_self _), hcopy,
    hbehind⟩
  · rcases List.mem_append.mp hm with hm | hm
    · exact (of_decide_eq_true (List.mem_filter.mp hm).2).2
    · rw [List.mem_singleton.mp hm]
      exact huser.symm
  · -- of the messages of the user, only the original is removed
    have hremoved : (messages.filter fun m =>
          snapshot.emptyAssistantID ≠ some m.id ∧ m.id ≠ snapshot.user.id).filter
            WithParts.isUser =
        (before.filter fun m => m.id ≠ snapshot.user.id).filter WithParts.isUser := by
      rw [List.filter_comm, hcomp.users]
      refine (List.filter_congr fun m hm => ?_).trans (List.filter_comm _ _ _)
      obtain ⟨hm, hisUser⟩ := List.mem_filter.mp hm
      exact decide_eq_decide.mpr (and_iff_right (hc.child_ne hcomp.nodup hm hisUser))
    rw [← copies_remove hc hcomp.nodup, copies, List.countP_append, List.countP_singleton,
      if_pos hcopy]
    refine congrArg (· + 1) ?_
    change copies snapshot _ = copies snapshot _
    rw [copies_eq_filter, hremoved, ← copies_eq_filter]

omit [DecidableEq ρ] in
theorem Compacted.user_mem (hc : Captured before snapshot)
    (hcomp : Compacted before anchor messages) : snapshot.user ∈ messages := by
  have hmem : snapshot.user ∈ messages.filter WithParts.isUser := by
    rw [hcomp.users]
    exact List.mem_filter.mpr ⟨hc.mem, hc.isUser⟩
  exact (List.mem_filter.mp hmem).1

theorem Compacted.copies_eq (hcomp : Compacted before anchor messages) :
    copies snapshot messages = copies snapshot before := by
  rw [copies_eq_filter, hcomp.users, ← copies_eq_filter]

omit [DecidableEq ρ] in
theorem any_filterCompacted {id : String} (h : ∀ m ∈ messages, m.id ≠ id) :
    ((filterCompacted (newestFirst messages)).any fun m => m.id = id) = false := by
  rw [List.any_eq_false]
  intro m hm
  rw [decide_eq_true_eq]
  exact h m (MessageV2.mem_newestFirst.mp (MessageV2.mem_of_mem_filterCompacted hm))

/-- **A call that is not disturbed writes the copy, or leaves everything as it is**; and it leaves
it only if it breaks off before the first write, or if the original is still shown. -/
theorem replay_compacted (hc : Captured before snapshot)
    (hcomp : Compacted before anchor messages) (hfresh : Fresh before anchor messages call)
    (hok : Undisturbed snapshot messages call) :
    Done before anchor snapshot (replay snapshot messages call) ∨
      replay snapshot messages call = messages ∧
        (call.stop = none → Shown messages snapshot.user) := by
  obtain ⟨hflag, hstop, -⟩ := hok
  have huser := hcomp.user_mem hc
  have hexists : messages.any fun m => m.id = snapshot.user.id :=
    List.any_eq_true.mpr ⟨_, huser, decide_eq_true rfl⟩
  have hdone := done_writes hc hcomp hfresh
  unfold replay replayUnansweredUserMessage
  simp only [hflag, hexists, not_true_eq_false, and_false, if_false, Bool.true_eq_false]
  split_ifs with hshown
  · refine Or.inr ⟨rfl, fun _ => ?_⟩
    obtain ⟨m, hm, hid⟩ := List.any_eq_true.mp hshown.2
    have hmem : m ∈ messages :=
      MessageV2.mem_newestFirst.mp (MessageV2.mem_of_mem_filterCompacted hm)
    rwa [List.inj_on_of_nodup_map hcomp.nodup_after hmem huser (of_decide_eq_true hid)] at hm
  · rcases hstop with hstop | hstop
    · rw [hstop]
      exact Or.inl hdone
    · rw [hstop]
      exact Or.inr ⟨rfl, fun heq => by cases heq⟩

theorem Done.replay (h : Done before anchor snapshot messages)
    (hok : Undisturbed snapshot messages call) : replay snapshot messages call = messages := by
  have hread : call.readFails = false := by
    by_contra hread
    exact h.gone _ (hok.2.2 (Bool.not_eq_false _ ▸ hread)) rfl
  have hnone : messages.any (fun m => m.id = snapshot.user.id) = false := by
    simpa using h.gone
  unfold SessionCompaction.replay replayUnansweredUserMessage
  simp [hok.1, any_filterCompacted h.gone, hread, hnone]

theorem replay_run (hc : Captured before snapshot) (hcomp : Compacted before anchor messages)
    {calls : List Call} (hfresh : Meets (replay snapshot) (Fresh before anchor) messages calls)
    (hok : Meets (replay snapshot) (Undisturbed snapshot) messages calls) :
    Done before anchor snapshot (run (replay snapshot) messages calls) ∨
      run (replay snapshot) messages calls = messages ∧
        ((∃ call ∈ calls, call.stop = none) → Shown messages snapshot.user) := by
  induction calls with
  | nil => exact Or.inr ⟨rfl, fun h => by simp at h⟩
  | cons call calls ih =>
    rcases replay_compacted hc hcomp hfresh.1 hok.1 with hdone | ⟨heq, hshown⟩
    · exact Or.inl (hok.2.invariant _ hdone fun s e hs he => (hs.replay he).symm ▸ hs)
    · have hfresh' := hfresh.2
      have hok' := hok.2
      rw [heq] at hfresh' hok'
      rw [run_cons, heq]
      refine (ih hfresh' hok').imp_right fun h => ⟨h.1, ?_⟩
      rintro ⟨other, hmem, hstop⟩
      rcases List.mem_cons.mp hmem with rfl | hmem
      · exact hshown hstop
      · exact h.2 ⟨other, hmem, hstop⟩

/-- **A prompt that is not answered is not lost when a session is compacted.** Wherever the calls
of the replay break off, a message with its parts is left. If none is disturbed, there are as many
as before, and after a call that does not break off there is one that is behind the anchor, or
the original is shown with the anchor. -/
theorem replayed_run {observed : Observed}
    (hsnapshot : snapshotUnansweredUserMessage observed (MessageV2.chronological before) =
      some snapshot)
    (hcomp : Compacted before anchor messages) {calls : List Call}
    (hfresh : Meets (replay snapshot) (Fresh before anchor) messages calls) :
    (∃ m ∈ run (replay snapshot) messages calls, isCopy snapshot m) ∧
      (Meets (replay snapshot) (Undisturbed snapshot) messages calls →
        copies snapshot (run (replay snapshot) messages calls) = copies snapshot before ∧
        ((∃ call ∈ calls, call.stop = none) →
          ∃ m ∈ run (replay snapshot) messages calls, isCopy snapshot m ∧
            (anchor.id < m.id ∨ m = snapshot.user ∧
              Shown (run (replay snapshot) messages calls) m ∧
              Shown (run (replay snapshot) messages calls) anchor))) := by
  have hc := captured_of_snapshot hsnapshot
  have huser := hcomp.user_mem hc
  constructor
  · have hheld : Held before snapshot messages := ⟨_, huser, isCopy_user hc, Or.inl rfl⟩
    obtain ⟨m, hm, hcopy, -⟩ := hfresh.invariant (Held before snapshot) hheld
      fun s e hs he => hs.replay hc hcomp.nodup he
    exact ⟨m, hm, hcopy⟩
  · intro hok
    rcases replay_run hc hcomp hfresh hok with hdone | ⟨heq, hshown⟩
    · obtain ⟨m, hm, hcopy, hbehind⟩ := hdone.behind
      exact ⟨hdone.count, fun _ => ⟨m, hm, hcopy, Or.inl hbehind⟩⟩
    · rw [heq]
      exact ⟨hcomp.copies_eq, fun h => ⟨_, huser, isCopy_user hc,
        Or.inr ⟨rfl, hshown h, MessageV2.mem_filterCompacted_of_find? hcomp.newest⟩⟩⟩

end Copies

/-! ### A prompt that stays before the anchor -/

def promptAndAnswer : List (WithParts Unit) :=
  [⟨"msg_1", 1, .user (), [⟨"prt_1", "msg_1", .text false ()⟩]⟩,
    ⟨"msg_2", 2, .assistant none false (), [⟨"prt_2", "msg_2", .other ()⟩]⟩]

def tailAnchor : WithParts Unit :=
  ⟨"msg_3", 3, .assistant none true (),
    [⟨"prt_3", "msg_3", .text false ()⟩, ⟨"prt_4", "msg_3", .compaction (some 1) ()⟩]⟩

def plainCall : Call :=
  ⟨true, false, false, none, "msg_4", fun i => String.ofList (List.replicate i 'x'), 4⟩

theorem compacted_promptAndAnswer :
    Compacted promptAndAnswer tailAnchor (promptAndAnswer ++ [tailAnchor]) where
  nodup := by decide
  nodup_after := by decide
  users := by decide
  ids := by decide
  new := by decide
  assistant := by decide
  newest := by decide

theorem fresh_plainCall :
    Fresh promptAndAnswer tailAnchor (promptAndAnswer ++ [tailAnchor]) plainCall := by
  refine ⟨by decide, by decide, by decide, fun i j h => ?_⟩
  have hlen := congrArg (fun s : String => s.toList.length) h
  simpa [plainCall] using hlen

def promptSnapshot : UserMessageSnapshot Unit :=
  ⟨⟨"msg_1", 1, .user (), [⟨"prt_1", "msg_1", .text false ()⟩]⟩, some "msg_2"⟩

/-- A call that nothing goes wrong with. -/
theorem replayed_run_plainCall :
    (∃ m ∈ run (replay promptSnapshot) (promptAndAnswer ++ [tailAnchor]) [plainCall],
        isCopy promptSnapshot m) ∧
      (Meets (replay promptSnapshot) (Undisturbed promptSnapshot)
          (promptAndAnswer ++ [tailAnchor]) [plainCall] →
        copies promptSnapshot
            (run (replay promptSnapshot) (promptAndAnswer ++ [tailAnchor]) [plainCall]) =
          copies promptSnapshot promptAndAnswer ∧
        ((∃ call ∈ [plainCall], call.stop = none) →
          ∃ m ∈ run (replay promptSnapshot) (promptAndAnswer ++ [tailAnchor]) [plainCall],
            isCopy promptSnapshot m ∧ (tailAnchor.id < m.id ∨ m = promptSnapshot.user ∧
              Shown (run (replay promptSnapshot) (promptAndAnswer ++ [tailAnchor]) [plainCall])
                m ∧
              Shown (run (replay promptSnapshot) (promptAndAnswer ++ [tailAnchor]) [plainCall])
                tailAnchor))) := by
  have hsnapshot : snapshotUnansweredUserMessage .rebind
      (MessageV2.chronological promptAndAnswer) = some promptSnapshot := by decide
  exact replayed_run hsnapshot compacted_promptAndAnswer ⟨fresh_plainCall, trivial⟩

/-- The original is not written again when it is shown with the anchor, and then there is no copy
behind the anchor. -/
theorem not_replayed : ¬∀ (before messages : List (WithParts Unit)) (anchor : WithParts Unit)
    (observed : Observed) (snapshot : UserMessageSnapshot Unit) (calls : List Call),
    snapshotUnansweredUserMessage observed (MessageV2.chronological before) = some snapshot →
    Compacted before anchor messages →
    Meets (replay snapshot) (Fresh before anchor) messages calls → calls ≠ [] →
    (∀ call ∈ calls, call.enableUserMsgReplay = true ∧ call.viewFails = false ∧
      call.readFails = false ∧ call.stop = none) →
    copies snapshot (run (replay snapshot) messages calls) = 1 ∧
      ∃ m ∈ run (replay snapshot) messages calls, isCopy snapshot m ∧ anchor.id < m.id := by
  intro h
  obtain ⟨-, m, hm, -, hbehind⟩ := h promptAndAnswer (promptAndAnswer ++ [tailAnchor]) tailAnchor
    .rebind promptSnapshot [plainCall] (by decide) compacted_promptAndAnswer
    ⟨fresh_plainCall, trivial⟩ (by simp) (by decide)
  have hnone : ∀ m ∈ run (replay promptSnapshot) (promptAndAnswer ++ [tailAnchor]) [plainCall],
      ¬tailAnchor.id < m.id := by decide
  exact hnone m hm hbehind

end OpenCms.SessionCompaction
