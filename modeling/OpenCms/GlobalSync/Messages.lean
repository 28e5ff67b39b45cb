import OpenCms.GlobalSync.PartEvents
import OpenCms.Lib.Runs

/-!
# Messages that are updated

A message that the server updates should be in the list of its session afterwards, and one that it
removes should be gone. Whether an update may put a message into the list is decided by a set of
identifiers that are known; but a sweep, or the end of a session, takes messages out of the store
and leaves their identifiers known, so that a later update of such a message is lost.
`OpenCms.GlobalSync.updates_kept_iff` says exactly when none is.
-/

namespace OpenCms.GlobalSync

variable {ι V : Type*}

/-! ### The lists of messages -/

section Lists

variable [DecidableEq ι] {messages : List (Message ι V)} {id : ι} {info : Message ι V}

theorem id_ne_of_mem_eraseP (h : (messages.map Message.id).Nodup) {m : Message ι V}
    (hm : m ∈ messages.eraseP fun m => m.id = id) : m.id ≠ id := by
  rcases List.exists_or_eq_self_of_eraseP (fun m : Message ι V => decide (m.id = id)) messages with
    hself | ⟨a, before, after, -, ha, hsplit, herase⟩
  · rw [hself] at hm
    intro hid
    have hlength := List.length_eraseP_of_mem (p := fun m : Message ι V => decide (m.id = id)) hm
      (decide_eq_true hid)
    rw [hself] at hlength
    have hpos := List.length_pos_of_mem hm
    omega
  · rw [herase] at hm
    rw [hsplit, List.map_append, List.map_cons] at h
    have hid : a.id = id := of_decide_eq_true ha
    rw [← hid]
    have hnodup := List.nodup_middle.mp h
    rw [List.nodup_cons, ← List.map_append] at hnodup
    exact fun heq => hnodup.1 (heq ▸ List.mem_map_of_mem hm)

theorem set_findIdx? {index : ℕ} (h : (messages.findIdx? fun m => m.id = info.id) = some index) :
    ∃ before old after, messages = before ++ old :: after ∧ old.id = info.id ∧
      messages.set index info = before ++ info :: after := by
  obtain ⟨hlt, hid, -⟩ := List.findIdx?_eq_some_iff_getElem.mp h
  refine ⟨messages.take index, messages[index], messages.drop (index + 1), ?_,
    of_decide_eq_true hid, ?_⟩
  · rw [← List.drop_eq_getElem_cons hlt, List.take_append_drop]
  · exact List.set_eq_take_append_cons_drop.trans (if_pos hlt)

theorem notMem_of_findIdx? (h : (messages.findIdx? fun m => m.id = id) = none) :
    id ∉ messages.map Message.id := by
  rw [List.findIdx?_eq_none_iff] at h
  intro hmem
  obtain ⟨m, hm, rfl⟩ := List.mem_map.mp hmem
  exact absurd (h m hm) (by simp)

theorem filter_eq_nil (h : id ∉ messages.map Message.id) :
    (messages.filter fun m => m.id = id) = [] := by
  refine List.filter_eq_nil_iff.mpr fun m hm hid => h ?_
  rw [← of_decide_eq_true hid]
  exact List.mem_map_of_mem hm

theorem filter_cons_self :
    ((info :: messages).filter fun m => m.id = info.id) =
      info :: messages.filter fun m => m.id = info.id :=
  List.filter_cons_of_pos (decide_eq_true rfl)

theorem filter_eq_singleton {before after : List (Message ι V)}
    (h : ((before ++ info :: after).map Message.id).Nodup) :
    ((before ++ info :: after).filter fun m => m.id = info.id) = [info] := by
  rw [List.map_append, List.map_cons, List.nodup_middle, List.nodup_cons, List.mem_append] at h
  rw [List.filter_append, filter_eq_nil fun hmem => h.1 (Or.inl hmem), filter_cons_self,
    filter_eq_nil fun hmem => h.1 (Or.inr hmem), List.nil_append]

end Lists

/-! ### What is found of a session -/

section Store

variable [LinearOrder ι] {store : State ι V} {sessionID messageID other : ι}
  {messages : List (Message ι V)}

theorem messages_setMessages :
    (store.setMessages sessionID messages).messages other =
      if other = sessionID then some messages else store.messages other := by
  rw [State.messages, State.setMessages, Table.lookup_upsert]
  split
  next => rfl
  next => rfl

theorem dropMessage_of_none (h : store.messages sessionID = none) :
    store.dropMessage sessionID messageID =
      { store with part := Function.update store.part messageID none } := by
  simp only [State.dropMessage, h]

theorem dropMessage_of_missing (h : store.messages sessionID = some messages)
    (hindex : (messages.findIdx? fun m => m.id = messageID) = none) :
    store.dropMessage sessionID messageID =
      { store with part := Function.update store.part messageID none } := by
  simp only [State.dropMessage, h, hindex]

theorem dropMessage_of_found {index : ℕ} (h : store.messages sessionID = some messages)
    (hindex : (messages.findIdx? fun m => m.id = messageID) = some index) :
    store.dropMessage sessionID messageID =
      { store.setMessages sessionID (messages.eraseIdx index) with
        part := Function.update store.part messageID none } := by
  simp only [State.dropMessage, State.setMessages, h, hindex]

theorem messages_dropMessage :
    (store.dropMessage sessionID messageID).messages other =
      if other = sessionID then
        (store.messages sessionID).map fun messages => messages.eraseP fun m => m.id = messageID
      else store.messages other := by
  have hsame : store.messages other =
      if other = sessionID then store.messages sessionID else store.messages other := by
    split
    next h => rw [h]
    next => rfl
  cases hmessages : store.messages sessionID with
  | none =>
    rw [dropMessage_of_none hmessages, Option.map_none, ← hmessages]
    exact hsame
  | some messages =>
    rw [Option.map_some, List.eraseP_eq_eraseIdx]
    cases hindex : messages.findIdx? fun m => m.id = messageID with
    | none =>
      rw [dropMessage_of_missing hmessages hindex, ← hmessages]
      exact hsame
    | some index =>
      rw [dropMessage_of_found hmessages hindex]
      exact messages_setMessages

theorem messages_cleanupSessionCaches [OrderBot ι] (store : State ι V)
    {list : List (Message ι V)}
    (h : (cleanupSessionCaches store sessionID).messages other = some list) :
    store.messages other = some list := by
  rw [cleanupSessionCaches] at h
  split at h
  next => exact h
  next =>
    change (Table.lookup Prod.fst (Table.erase Prod.fst sessionID store.message) other).map
      Prod.snd = some list at h
    rw [Table.lookup_erase] at h
    split at h
    next => cases h
    next => exact h

def Distinct (store : State ι V) : Prop :=
  ∀ sessionID list, store.messages sessionID = some list → (list.map Message.id).Nodup

theorem Distinct.setMessages (h : Distinct store) (hmessages : (messages.map Message.id).Nodup) :
    Distinct (store.setMessages sessionID messages) := by
  intro other list hlist
  rw [messages_setMessages] at hlist
  split at hlist
  next =>
    obtain rfl := Option.some.inj hlist
    exact hmessages
  next => exact h other list hlist

theorem Distinct.dropMessage (h : Distinct store) :
    Distinct (store.dropMessage sessionID messageID) := by
  intro other list hlist
  rw [messages_dropMessage] at hlist
  split at hlist
  next =>
    obtain ⟨messages, hmessages, rfl⟩ := Option.map_eq_some_iff.mp hlist
    exact (h sessionID messages hmessages).sublist (List.eraseP_sublist.map _)
  next => exact h other list hlist

theorem Distinct.of_messages {store store' : State ι V} (h : Distinct store)
    (hmessages : ∀ sessionID list, store'.messages sessionID = some list →
      store.messages sessionID = some list) : Distinct store' :=
  fun sessionID list hlist => h sessionID list (hmessages sessionID list hlist)

end Store

/-! ### An update -/

section Update

variable [LinearOrder ι] {w : Client ι V} {info : Message ι V} {messages : List (Message ι V)}
  {index : ℕ}

/-- An update of a message that is in the list waits for the end of a compaction, unless the
message is being written. -/
def Deferred (w : Client ι V) (info : Message ι V) : Prop :=
  (∃ messages ∈ w.store.messages info.sessionID, info.id ∈ messages.map Message.id) ∧
    w.compactionWindows info.sessionID = true ∧ isMessageLive info = false

/-- **The session's list has the message exactly once**, as it was told. -/
def Listed (store : State ι V) (info : Message ι V) : Prop :=
  ∃ messages, store.messages info.sessionID = some messages ∧
    (messages.filter fun m => m.id = info.id) = [info]

theorem store_messageUpdated_of_none (h : w.store.messages info.sessionID = none) :
    (messageUpdated info w).store = w.store.setMessages info.sessionID [info] := by
  simp only [messageUpdated, h]

theorem store_messageUpdated_of_found (h : w.store.messages info.sessionID = some messages)
    (hindex : (messages.findIdx? fun m => m.id = info.id) = some index) :
    (messageUpdated info w).store =
      if w.compactionWindows info.sessionID ∧ ¬isMessageLive info then w.store
      else w.store.setMessages info.sessionID (messages.set index info) := by
  simp only [messageUpdated, h, hindex, Function.update_self]
  split <;> rfl

theorem store_messageUpdated_of_new (h : w.store.messages info.sessionID = some messages)
    (hindex : (messages.findIdx? fun m => m.id = info.id) = none) :
    (messageUpdated info w).store =
      if w.knownMessageIds info.id then w.store
      else w.store.setMessages info.sessionID (messages ++ [info]) := by
  simp only [messageUpdated, h, hindex]
  split <;> rfl

theorem Distinct.messageUpdated (h : Distinct w.store) :
    Distinct (messageUpdated info w).store := by
  cases hmessages : w.store.messages info.sessionID with
  | none =>
    rw [store_messageUpdated_of_none hmessages]
    exact h.setMessages (List.nodup_singleton _)
  | some messages =>
    have hnodup := h info.sessionID messages hmessages
    cases hindex : messages.findIdx? fun m => m.id = info.id with
    | some index =>
      rw [store_messageUpdated_of_found hmessages hindex]
      split
      next => exact h
      next =>
        obtain ⟨before, old, after, rfl, hid, hset⟩ := set_findIdx? hindex
        rw [hset]
        refine h.setMessages ?_
        rwa [List.map_append, List.map_cons, hid, ← List.map_cons, ← List.map_append] at hnodup
    | none =>
      rw [store_messageUpdated_of_new hmessages hindex]
      split
      next => exact h
      next =>
        refine h.setMessages ?_
        rw [List.map_append, List.map_singleton, List.nodup_append]
        refine ⟨hnodup, List.nodup_singleton _, fun a ha b hb => ?_⟩
        rw [List.mem_singleton.mp hb]
        exact fun heq => notMem_of_findIdx? hindex (heq ▸ ha)

/-- **An update that does not wait puts the message in exactly if it is in the list already, or is
not known, or the session has no list.** -/
theorem listed_messageUpdated_iff (h : Distinct w.store) (hdeferred : ¬Deferred w info) :
    Listed (messageUpdated info w).store info ↔
      ∀ messages ∈ w.store.messages info.sessionID,
        info.id ∈ messages.map Message.id ∨ w.knownMessageIds info.id = false := by
  have hnodup : Distinct (messageUpdated info w).store := h.messageUpdated
  cases hmessages : w.store.messages info.sessionID with
  | none =>
    refine iff_of_true ⟨[info], ?_, ?_⟩ fun _ hlist => absurd hlist (by rintro ⟨⟩)
    · rw [store_messageUpdated_of_none hmessages, messages_setMessages, if_pos rfl]
    · rw [filter_cons_self, List.filter_nil]
  | some messages =>
    cases hindex : messages.findIdx? fun m => m.id = info.id with
    | some index =>
      obtain ⟨before, old, after, hsplit, hid, hset⟩ := set_findIdx? hindex
      have hmem : info.id ∈ messages.map Message.id := by
        rw [hsplit, ← hid]
        exact List.mem_map_of_mem (List.mem_append_right _ List.mem_cons_self)
      have hnow : ¬(w.compactionWindows info.sessionID = true ∧ ¬isMessageLive info = true) :=
        fun hwindow => hdeferred
          ⟨⟨messages, hmessages, hmem⟩, hwindow.1, Bool.not_eq_true _ ▸ hwindow.2⟩
      rw [store_messageUpdated_of_found hmessages hindex, if_neg hnow, hset] at hnodup ⊢
      have hlist : (w.store.setMessages info.sessionID (before ++ info :: after)).messages
          info.sessionID = some (before ++ info :: after) := by
        rw [messages_setMessages, if_pos rfl]
      refine iff_of_true ⟨_, hlist, filter_eq_singleton (hnodup info.sessionID _ hlist)⟩ ?_
      intro list hlist'
      obtain rfl := Option.some.inj hlist'
      exact Or.inl hmem
    | none =>
      have hnot := notMem_of_findIdx? hindex
      rw [store_messageUpdated_of_new hmessages hindex]
      cases hknown : w.knownMessageIds info.id with
      | true =>
        refine iff_of_false ?_ fun hall => ?_
        · rintro ⟨list, hlist, hfilter⟩
          obtain rfl := Option.some.inj (hmessages.symm.trans hlist)
          rw [filter_eq_nil hnot] at hfilter
          cases hfilter
        · rcases hall messages rfl with hmem | hfalse
          · exact hnot hmem
          · cases hfalse
      | false =>
        rw [if_neg Bool.false_ne_true]
        refine iff_of_true ⟨messages ++ [info], ?_, ?_⟩ fun _ _ => Or.inr rfl
        · rw [messages_setMessages, if_pos rfl]
        · rw [List.filter_append, filter_eq_nil hnot, List.nil_append, filter_cons_self,
            List.filter_nil]

/-- **Neither the message nor a part of it is in the store.** -/
def Gone (store : State ι V) (sessionID messageID : ι) : Prop :=
  (∀ messages, store.messages sessionID = some messages → messageID ∉ messages.map Message.id) ∧
    store.part messageID = none

theorem gone_dropMessage {store : State ι V} {sessionID messageID : ι} (h : Distinct store) :
    Gone (store.dropMessage sessionID messageID) sessionID messageID := by
  refine ⟨fun messages hmessages hmem => ?_, Function.update_self ..⟩
  rw [messages_dropMessage, if_pos rfl] at hmessages
  obtain ⟨list, hlist, rfl⟩ := Option.map_eq_some_iff.mp hmessages
  obtain ⟨m, hm, hid⟩ := List.mem_map.mp hmem
  exact id_ne_of_mem_eraseP (h sessionID list hlist) hm hid

theorem Distinct.messageRemoved {sessionID messageID : ι} (h : Distinct w.store) :
    Distinct (messageRemoved sessionID messageID w).store := by
  rw [GlobalSync.messageRemoved]
  dsimp only
  split
  next => exact h
  next => exact h.dropMessage

theorem distinct_empty (limit : ℤ) : Distinct (Client.empty limit : Client ι V).store := by
  intro sessionID list hlist
  cases hlist

end Update

/-! ### Runs -/

section Runs

variable [LinearOrder ι] [OrderBot ι] {w : Client ι V} {cfg : Tweaks}

/-- What the client does: it takes an event, opens or closes a compaction window, turns to a
session, or sweeps. -/
inductive Action (ι V : Type*)
  | event (now : ℤ) (event : Event ι V)
  | beginCompactionWindow (sessionID : ι)
  | endCompactionWindow (sessionID : ι)
  | setViewingSession (sessionID : Option ι)
  | runDeferredEviction (cap : ℕ)

def act (cfg : Tweaks) (w : Client ι V) : Action ι V → Client ι V
  | .event now event => applyDirectoryEvent cfg now w event
  | .beginCompactionWindow sessionID => beginCompactionWindow sessionID w
  | .endCompactionWindow sessionID => endCompactionWindow sessionID w
  | .setViewingSession sessionID => setViewingSession sessionID w
  | .runDeferredEviction cap => runDeferredEviction cap w

/-- **What the list shows right after an action**: a message that was updated, and not one that was
removed, unless a compaction lets them wait. -/
def ShowsUpdate (cfg : Tweaks) (w : Client ι V) (action : Action ι V) : Prop :=
  match action with
  | .event _ (.messageUpdated info) => ¬Deferred w info → Listed (act cfg w action).store info
  | .event _ (.messageRemoved sessionID messageID) =>
    w.compactionWindows sessionID = false → Gone (act cfg w action).store sessionID messageID
  | _ => True

def Action.updated : Action ι V → Option (Message ι V)
  | .event _ (.messageUpdated info) => some info
  | _ => none

def NotForgotten (w : Client ι V) (action : Action ι V) : Prop :=
  ∀ info ∈ action.updated, ¬Deferred w info →
    ∀ messages ∈ w.store.messages info.sessionID,
      info.id ∈ messages.map Message.id ∨ w.knownMessageIds info.id = false

instance Deferred.instDecidable (w : Client ι V) (info : Message ι V) :
    Decidable (Deferred w info) :=
  inferInstanceAs (Decidable ((∃ messages ∈ w.store.messages info.sessionID,
    info.id ∈ messages.map Message.id) ∧ _ ∧ _))

instance NotForgotten.instDecidable (w : Client ι V) (action : Action ι V) :
    Decidable (NotForgotten w action) :=
  inferInstanceAs (Decidable (∀ info ∈ action.updated, ¬Deferred w info →
    ∀ messages ∈ w.store.messages info.sessionID, _ ∨ _))

theorem message_sessionCreated {now : ℤ} {info : Session ι V} {store : State ι V} :
    (sessionCreated now info store).message = store.message := by
  rw [sessionCreated]
  split <;> rfl

theorem messages_sessionDeleted {info : Session ι V} {store : State ι V} {sessionID : ι}
    {list : List (Message ι V)}
    (h : (sessionDeleted info store).messages sessionID = some list) :
    store.messages sessionID = some list :=
  messages_cleanupSessionCaches
    { store with session := Binary.remove store.session info.id Session.id } h

theorem messages_sessionUpdated {now : ℤ} {info : Session ι V} {store : State ι V} {sessionID : ι}
    {list : List (Message ι V)}
    (h : (sessionUpdated now info store).messages sessionID = some list) :
    store.messages sessionID = some list := by
  rw [sessionUpdated] at h
  split at h
  next => exact messages_sessionDeleted h
  next =>
    dsimp only at h
    split at h
    next => exact h
    next => exact h

/-- **No action puts a message twice into a list.** -/
theorem Distinct.act (h : Distinct w.store) (action : Action ι V) :
    Distinct (act cfg w action).store := by
  cases action with
  | event now event =>
    cases event with
    | sessionCreated info =>
      refine h.of_messages fun sessionID list hlist => ?_
      rwa [State.messages, GlobalSync.act, applyDirectoryEvent, message_sessionCreated] at hlist
    | sessionUpdated info => exact h.of_messages fun _ _ => messages_sessionUpdated
    | sessionDeleted info => exact h.of_messages fun _ _ => messages_sessionDeleted
    | sessionStatus => exact h
    | workspaceUpdated => exact h
    | messageUpdated info => exact h.messageUpdated
    | messageRemoved sessionID messageID => exact h.messageRemoved
    | partUpdated props =>
      obtain ⟨parts, hstore⟩ := partUpdated_store_eq cfg props w
      refine h.of_messages fun sessionID list hlist => ?_
      rwa [State.messages, GlobalSync.act, applyDirectoryEvent, hstore] at hlist
    | partRemoved messageID partID =>
      obtain ⟨parts, hstore⟩ := partRemoved_store_eq messageID partID w.store
      refine h.of_messages fun sessionID list hlist => ?_
      rwa [State.messages, GlobalSync.act, applyDirectoryEvent, hstore] at hlist
    | permissionAsked | permissionReplied | questionAsked | questionReplied => exact h
  | beginCompactionWindow sessionID =>
    rw [GlobalSync.act, GlobalSync.beginCompactionWindow]
    split <;> exact h
  | endCompactionWindow sessionID =>
    rw [GlobalSync.act, GlobalSync.endCompactionWindow]
    split <;> exact h
  | setViewingSession => exact h
  | runDeferredEviction cap =>
    refine List.foldlRecOn _ _ h fun store hstore decision _ => ?_
    split
    next => exact hstore.dropMessage
    next => exact hstore

/-- **Right after an action the list shows it exactly if no message was forgotten.** -/
theorem showsUpdate_iff (h : Distinct w.store) (action : Action ι V) :
    ShowsUpdate cfg w action ↔ NotForgotten w action := by
  have hnone : action.updated = none → NotForgotten w action := by
    intro hupdated info hinfo
    rw [hupdated] at hinfo
    cases hinfo
  cases action with
  | event now event =>
    cases event with
    | messageUpdated info =>
      have hforgotten : NotForgotten w (.event now (.messageUpdated info)) ↔
          (¬Deferred w info → ∀ messages ∈ w.store.messages info.sessionID,
            info.id ∈ messages.map Message.id ∨ w.knownMessageIds info.id = false) := by
        refine ⟨fun hall => hall info rfl, fun hinfo info' hinfo' => ?_⟩
        obtain rfl := Option.some.inj hinfo'
        exact hinfo
      rw [hforgotten]
      exact forall_congr' fun hnow => listed_messageUpdated_iff h hnow
    | messageRemoved sessionID messageID =>
      refine iff_of_true (fun hclosed => ?_) (hnone rfl)
      have hremoved :
          (GlobalSync.act cfg w (.event now (.messageRemoved sessionID messageID))).store =
            w.store.dropMessage sessionID messageID := by
        rw [GlobalSync.act, applyDirectoryEvent, messageRemoved]
        rw [hclosed, if_neg Bool.false_ne_true]
      rw [hremoved]
      exact gone_dropMessage h
    | _ => exact iff_of_true trivial (hnone rfl)
  | _ => exact iff_of_true trivial (hnone rfl)

/-- **Every update is shown exactly if no message is updated that is known but not in the list**,
in every run from a client whose lists have no message twice. -/
theorem updates_kept_iff (cfg : Tweaks) (w : Client ι V) (h : Distinct w.store)
    (actions : List (Action ι V)) :
    Meets (GlobalSync.act cfg) (ShowsUpdate cfg) w actions ↔
      Meets (GlobalSync.act cfg) NotForgotten w actions :=
  Meets.congr (fun w => Distinct w.store) h (fun _ action hw => hw.act action)
    (fun _ action hw => showsUpdate_iff hw action) actions

/-! ### A message that was swept away -/

def exampleMessage : Message String Unit := ⟨"msg_a", "ses_a", .user, none, ()⟩

/-- A message is put in, changed, removed and put in again. -/
theorem updates_kept_again :
    Meets (GlobalSync.act ⟨true, 64⟩) (ShowsUpdate ⟨true, 64⟩) (Client.empty 10)
      [.event 0 (.messageUpdated exampleMessage), .event 0 (.messageUpdated exampleMessage),
        .event 0 (.messageRemoved "ses_a" "msg_a"), .event 0 (.messageUpdated exampleMessage)] := by
  refine (updates_kept_iff ⟨true, 64⟩ (Client.empty 10) (distinct_empty 10) _).mpr ?_
  decide

/-- **A message is swept away, and its next update is lost.** -/
theorem not_updates_kept_swept :
    ¬Meets (GlobalSync.act ⟨true, 64⟩) (ShowsUpdate ⟨true, 64⟩) (Client.empty 10)
      [.event 0 (.messageUpdated exampleMessage), .runDeferredEviction 0,
        .event 0 (.messageUpdated exampleMessage)] := by
  rintro ⟨-, -, hlost, -⟩
  obtain ⟨messages, hmessages, hfilter⟩ := hlost (by decide)
  have hlength : ((run (GlobalSync.act ⟨true, 64⟩) (Client.empty 10)
      [.event 0 (.messageUpdated exampleMessage), .runDeferredEviction 0,
        .event 0 (.messageUpdated exampleMessage)]).store.messages "ses_a").map List.length =
      some 0 := by
    decide +kernel
  have hempty : some messages.length = some 0 :=
    (congrArg (Option.map List.length) hmessages).symm.trans hlength
  obtain rfl := List.length_eq_zero_iff.mp (Option.some.inj hempty)
  cases hfilter

end Runs

end OpenCms.GlobalSync
