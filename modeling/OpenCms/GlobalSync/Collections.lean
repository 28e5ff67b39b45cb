import OpenCms.GlobalSync.PartEvents
import OpenCms.Lib.Runs
import Mathlib.Data.Finset.Card

/-!
# The lists of the client

The lists of the client are sorted by identifier, so that the binary search finds what is in them,
and the server may deliver an event twice in a row. `OpenCms.GlobalSync.collections_inStep`
says when both go well.

What goes wrong otherwise: the number of sessions is not counted from a list but changed by each
event, so that an event that comes twice, or is about a session that has been trimmed away, counts
twice; a file that is stored already under another identifier is replaced where it stands, which
may be the wrong place for the new one; and a piece of a text is put to the text once more if the
event does not tell how long it is then.
-/

namespace OpenCms.GlobalSync

variable {ι V : Type*} [LinearOrder ι] {cfg : Tweaks} {now : ℤ} {store : State ι V}
  {w : Client ι V}

/-! ### Sorted stores -/

/-- Each list of the store is sorted by identifier. -/
structure Tidy (store : State ι V) : Prop where
  session : Binary.Sorted Session.id store.session
  part : ∀ messageID parts, store.part messageID = some parts → Binary.Sorted Part.id parts
  permission : ∀ sessionID list, store.permission sessionID = some list →
    Binary.Sorted Request.id list
  question : ∀ sessionID list, store.question sessionID = some list →
    Binary.Sorted Request.id list

theorem forall_update {α β : Type*} [DecidableEq α] {P : β → Prop} {f : α → Option β} {a : α}
    {b : Option β} (h : ∀ x y, f x = some y → P y) (hb : ∀ y, b = some y → P y) :
    ∀ x y, Function.update f a b x = some y → P y := by
  intro x y hxy
  rcases eq_or_ne x a with rfl | hne
  · rw [Function.update_self] at hxy
    exact hb y hxy
  · rw [Function.update_of_ne hne] at hxy
    exact h x y hxy

theorem tidy_put {info : Session ι V} (htidy : Tidy store) :
    Tidy { store with session := Binary.put store.session info Session.id } :=
  ⟨htidy.session.put info, htidy.part, htidy.permission, htidy.question⟩

/-- A list in which every entry is found where it stands. -/
def Searchable {α : Type*} (compare : α → ι) (list : List α) : Prop :=
  Binary.Sorted compare list ∧
    ∀ i item, list[i]? = some item → Binary.search list (compare item) compare = ⟨true, i⟩

theorem searchable_of_sorted {α : Type*} {compare : α → ι} {list : List α}
    (h : Binary.Sorted compare list) : Searchable compare list :=
  ⟨h, fun _ _ hitem => Binary.search_of_getElem? h hitem⟩

structure AllSearchable (store : State ι V) : Prop where
  session : Searchable Session.id store.session
  part : ∀ messageID parts, store.part messageID = some parts → Searchable Part.id parts
  permission : ∀ sessionID list, store.permission sessionID = some list →
    Searchable Request.id list
  question : ∀ sessionID list, store.question sessionID = some list → Searchable Request.id list

theorem Tidy.allSearchable (h : Tidy store) : AllSearchable store where
  session := searchable_of_sorted h.session
  part messageID parts hparts := searchable_of_sorted (h.part messageID parts hparts)
  permission sessionID list hlist := searchable_of_sorted (h.permission sessionID list hlist)
  question sessionID list hlist := searchable_of_sorted (h.question sessionID list hlist)

/-! ### Requests -/

section Requests

variable {requests : ι → Option (List (Request ι V))} {request : Request ι V}
  {sessionID requestID : ι} {list : List (Request ι V)}

theorem asked_of_none (h : requests request.sessionID = none) :
    asked request requests = Function.update requests request.sessionID (some [request]) := by
  simp only [asked, h]

theorem asked_of_some (h : requests request.sessionID = some list) :
    asked request requests =
      Function.update requests request.sessionID (some (Binary.put list request Request.id)) := by
  simp only [asked, h]

theorem replied_of_none (h : requests sessionID = none) :
    replied sessionID requestID requests = requests := by
  simp only [replied, h]

theorem replied_of_some (h : requests sessionID = some list) :
    replied sessionID requestID requests =
      Function.update requests sessionID (some (Binary.remove list requestID Request.id)) := by
  simp only [replied, h]

variable (h : ∀ sessionID list, requests sessionID = some list → Binary.Sorted Request.id list)

include h

theorem sorted_asked : ∀ sessionID list, asked request requests sessionID = some list →
    Binary.Sorted Request.id list := by
  cases hlist : requests request.sessionID with
  | none =>
    rw [asked_of_none hlist]
    refine forall_update h fun list' hlist' => ?_
    obtain rfl := Option.some.inj hlist'
    exact List.pairwise_singleton _ _
  | some list =>
    rw [asked_of_some hlist]
    refine forall_update h fun list' hlist' => ?_
    obtain rfl := Option.some.inj hlist'
    exact (h _ list hlist).put request

theorem asked_asked : asked request (asked request requests) = asked request requests := by
  cases hlist : requests request.sessionID with
  | none =>
    have hput : Binary.put [request] request Request.id = [request] :=
      Binary.put_self (List.pairwise_singleton _ _) List.mem_cons_self
    rw [asked_of_none hlist, asked_of_some (Function.update_self ..), hput, Function.update_idem]
  | some list =>
    rw [asked_of_some hlist, asked_of_some (Function.update_self ..),
      Binary.put_put (h _ list hlist), Function.update_idem]

theorem sorted_replied : ∀ other list, replied sessionID requestID requests other = some list →
    Binary.Sorted Request.id list := by
  cases hlist : requests sessionID with
  | none =>
    rw [replied_of_none hlist]
    exact h
  | some list =>
    rw [replied_of_some hlist]
    refine forall_update h fun list' hlist' => ?_
    obtain rfl := Option.some.inj hlist'
    exact (h _ list hlist).remove requestID

theorem replied_replied : replied sessionID requestID (replied sessionID requestID requests) =
    replied sessionID requestID requests := by
  cases hlist : requests sessionID with
  | none => rw [replied_of_none hlist, replied_of_none hlist]
  | some list =>
    rw [replied_of_some hlist, replied_of_some (Function.update_self ..),
      Binary.remove_remove (h _ list hlist), Function.update_idem]

end Requests

/-! ### Parts -/

section Parts

variable {messageID partID : ι} {props : PartUpdate ι V}

theorem partRemoved_of_none (h : store.part messageID = none) :
    partRemoved messageID partID store = store := by
  simp only [partRemoved, h]

theorem partRemoved_of_some {parts : List (Part ι V)} (h : store.part messageID = some parts)
    (hfound : (Binary.search parts partID Part.id).found = true) :
    partRemoved messageID partID store =
      { store with
        part := Function.update store.part messageID
          (if (Binary.remove parts partID Part.id).length = 0 then none
            else some (Binary.remove parts partID Part.id)) } := by
  simp only [partRemoved, h, hfound, if_pos, Binary.remove]

theorem partRemoved_of_not_found {parts : List (Part ι V)} (h : store.part messageID = some parts)
    (hfound : (Binary.search parts partID Part.id).found = false) :
    partRemoved messageID partID store = store := by
  simp only [partRemoved, h, hfound, Bool.false_eq_true, if_false]

theorem tidy_partUpdated (htidy : Tidy w.store) (hrepeats : PartRepeats cfg w props) :
    Tidy (partUpdated cfg props w).store := by
  obtain ⟨before, existing, after, hparts, hsorted, -⟩ :=
    arrived_partUpdated (htidy.part props.part.messageID) hrepeats
  obtain ⟨parts, hstore⟩ := partUpdated_store_eq cfg props w
  rw [hstore] at hparts ⊢
  replace hparts : parts = some (before ++ existing :: after) :=
    (Function.update_self (f := w.store.part) ..).symm.trans hparts
  refine ⟨htidy.session, forall_update htidy.part fun list hlist => ?_, htidy.permission,
    htidy.question⟩
  obtain rfl := Option.some.inj (hparts.symm.trans hlist)
  exact hsorted

theorem tidy_partRemoved (htidy : Tidy store) : Tidy (partRemoved messageID partID store) := by
  cases hparts : store.part messageID with
  | none => rwa [partRemoved_of_none hparts]
  | some parts =>
    cases hfound : (Binary.search parts partID Part.id).found with
    | false => rwa [partRemoved_of_not_found hparts hfound]
    | true =>
      rw [partRemoved_of_some hparts hfound]
      refine ⟨htidy.session, forall_update htidy.part fun list hlist => ?_, htidy.permission,
        htidy.question⟩
      split at hlist
      next => cases hlist
      next =>
        obtain rfl := Option.some.inj hlist
        exact (htidy.part messageID parts hparts).remove partID

theorem partRemoved_partRemoved (htidy : Tidy store) :
    partRemoved messageID partID (partRemoved messageID partID store) =
      partRemoved messageID partID store := by
  cases hparts : store.part messageID with
  | none => rw [partRemoved_of_none hparts, partRemoved_of_none hparts]
  | some parts =>
    have hsorted := htidy.part messageID parts hparts
    cases hfound : (Binary.search parts partID Part.id).found with
    | false => rw [partRemoved_of_not_found hparts hfound, partRemoved_of_not_found hparts hfound]
    | true =>
      rw [partRemoved_of_some hparts hfound]
      split
      next => exact partRemoved_of_none (Function.update_self ..)
      next =>
        obtain ⟨before, after, hlt, hgt, hremove, -⟩ := Binary.remove_cases hsorted partID
        refine partRemoved_of_not_found (Function.update_self ..) ?_
        have hsorted' := hsorted.remove partID
        rw [hremove] at hsorted' ⊢
        rw [Binary.search_of_gap hsorted' hlt hgt]

end Parts

/-! ### Sessions -/

section Sessions

variable [OrderBot ι] {info : Session ι V} {sessionID : ι}

theorem tidy_cleanupSessionCaches (htidy : Tidy store) :
    Tidy (cleanupSessionCaches store sessionID) := by
  rw [cleanupSessionCaches]
  split
  next => exact htidy
  next =>
    have hnone : ∀ list : List (Request ι V), none = some list → Binary.Sorted Request.id list :=
      fun list h => by cases h
    refine ⟨htidy.session, ?_, forall_update htidy.permission hnone,
      forall_update htidy.question hnone⟩
    refine List.foldlRecOn _ _ (motive := fun part : ι → Option (List (Part ι V)) =>
      ∀ messageID parts, part messageID = some parts → Binary.Sorted Part.id parts) htidy.part ?_
    intro part hpart message _
    split
    next => exact hpart
    next => exact forall_update hpart fun parts h => by cases h

theorem cleanupSessionCaches_again :
    cleanupSessionCaches (cleanupSessionCaches store sessionID) sessionID =
      cleanupSessionCaches store sessionID := by
  by_cases hempty : sessionID = ⊥
  · rw [cleanupSessionCaches, if_pos hempty]
  · have hmessages : (cleanupSessionCaches store sessionID).messages sessionID = none := by
      rw [cleanupSessionCaches, if_neg hempty]
      change (Table.lookup Prod.fst (Table.erase Prod.fst sessionID store.message) sessionID).map
        Prod.snd = none
      rw [Table.lookup_erase, if_pos rfl, Option.map_none]
    conv_lhs => rw [cleanupSessionCaches, if_neg hempty, hmessages]
    simp only [cleanupSessionCaches, if_neg hempty, Function.update_idem, Option.getD_none,
      List.foldl_nil, Table.erase_erase]

theorem cleanupSessionCaches_with (store : State ι V) (sessionID : ι) (session : List (Session ι V))
    (sessionTotal : ℕ) :
    cleanupSessionCaches { store with session := session, sessionTotal := sessionTotal } sessionID =
      { cleanupSessionCaches store sessionID with
        session := session, sessionTotal := sessionTotal } := by
  rw [cleanupSessionCaches, cleanupSessionCaches]
  split <;> rfl

theorem sessionDeleted_eq :
    sessionDeleted info store =
      { cleanupSessionCaches store info.id with
        session := Binary.remove store.session info.id Session.id
        sessionTotal := if info.isRoot then store.sessionTotal - 1 else store.sessionTotal } := by
  have hcleanup := cleanupSessionCaches_with store info.id
    (Binary.remove store.session info.id Session.id) store.sessionTotal
  rw [sessionDeleted]
  rw [hcleanup]

theorem tidy_sessionDeleted (htidy : Tidy store) : Tidy (sessionDeleted info store) := by
  have hclean : Tidy (cleanupSessionCaches store info.id) := tidy_cleanupSessionCaches htidy
  rw [sessionDeleted_eq]
  exact ⟨htidy.session.remove info.id, hclean.part, hclean.permission, hclean.question⟩

theorem sessionDeleted_again (htidy : Tidy store)
    (htotal : info.isRoot = true → store.sessionTotal ≤ 1) :
    sessionDeleted info (sessionDeleted info store) = sessionDeleted info store := by
  have htotal' : (if info.isRoot then
      (if info.isRoot then store.sessionTotal - 1 else store.sessionTotal) - 1
      else if info.isRoot then store.sessionTotal - 1 else store.sessionTotal) =
      if info.isRoot then store.sessionTotal - 1 else store.sessionTotal := by
    split
    next hroot =>
      have hle := htotal hroot
      omega
    next => rfl
  conv_lhs => rw [sessionDeleted_eq]
  rw [sessionDeleted_eq, cleanupSessionCaches_with, cleanupSessionCaches_again]
  simp only [Binary.remove_remove htidy.session, htotal']

/-! A session that is there takes its own place, and one that is not is put in. -/

theorem insertSession_eq (hfound : (Binary.search store.session info.id Session.id).found = false) :
    insertSession now info store =
      { store with
        session := trimSessions (Binary.put store.session info Session.id) store.limit
          store.permission now } := by
  simp only [insertSession, Binary.put, hfound, Bool.false_eq_true, if_false]

theorem sessionCreated_of_found
    (hfound : (Binary.search store.session info.id Session.id).found = true) :
    sessionCreated now info store =
      { store with session := Binary.put store.session info Session.id } := by
  simp only [sessionCreated, Binary.put, hfound, if_true]

theorem sessionCreated_of_not_found
    (hfound : (Binary.search store.session info.id Session.id).found = false) :
    sessionCreated now info store =
      { store with
        session := trimSessions (Binary.put store.session info Session.id) store.limit
          store.permission now
        sessionTotal := if info.isRoot then store.sessionTotal + 1 else store.sessionTotal } := by
  simp only [sessionCreated, hfound, Bool.false_eq_true, if_false, insertSession_eq hfound]

theorem put_trimSessions {L : List (Session ι V)} {limit : ℤ}
    {permission : ι → Option (List (Request ι V))} (h : Binary.Sorted Session.id L)
    (hfound : (Binary.search (trimSessions (Binary.put L info Session.id) limit permission now)
      info.id Session.id).found = true) :
    Binary.put (trimSessions (Binary.put L info Session.id) limit permission now) info Session.id =
      trimSessions (Binary.put L info Session.id) limit permission now := by
  have hput := h.put info
  have htrim : Binary.Sorted Session.id
      (trimSessions (Binary.put L info Session.id) limit permission now) := sorted_trimSessions hput
  obtain ⟨s, hs, hid⟩ := (Binary.found_iff htrim).mp hfound
  refine Binary.put_self htrim ?_
  have hmem := hs
  rw [trimSessions_eq_filter hput] at hmem
  obtain rfl := hput.eq_of_mem (List.mem_of_mem_filter hmem)
    ((Binary.mem_put h).mpr (Or.inl rfl)) hid
  exact hs

/-- An event about a session that is not archived: the session is exchanged or put in, and the
second time it is exchanged for itself, or left out again. -/
theorem sessionUpdated_of_found (harchived : info.isArchived = false)
    (hfound : (Binary.search store.session info.id Session.id).found = true) :
    sessionUpdated now info store =
      { store with session := Binary.put store.session info Session.id } := by
  simp only [sessionUpdated, harchived, Binary.put, hfound, Bool.false_eq_true, if_false, if_true]

theorem sessionUpdated_of_not_found (harchived : info.isArchived = false)
    (hfound : (Binary.search store.session info.id Session.id).found = false) :
    sessionUpdated now info store =
      { store with
        session := trimSessions (Binary.put store.session info Session.id) store.limit
          store.permission now } := by
  simp only [sessionUpdated, harchived, hfound, Bool.false_eq_true, if_false,
    insertSession_eq hfound]

theorem tidy_trim (htidy : Tidy store) (sessionTotal : ℕ) :
    Tidy { store with
      session := trimSessions (Binary.put store.session info Session.id) store.limit
        store.permission now
      sessionTotal := sessionTotal } :=
  ⟨sorted_trimSessions (htidy.session.put info), htidy.part, htidy.permission, htidy.question⟩

theorem tidy_sessionCreated (htidy : Tidy store) : Tidy (sessionCreated now info store) := by
  cases hfound : (Binary.search store.session info.id Session.id).found with
  | true =>
    rw [sessionCreated_of_found hfound]
    exact tidy_put htidy
  | false =>
    rw [sessionCreated_of_not_found hfound]
    exact tidy_trim htidy _

theorem tidy_sessionUpdated (htidy : Tidy store) : Tidy (sessionUpdated now info store) := by
  cases harchived : info.isArchived with
  | true =>
    rw [sessionUpdated, harchived, if_pos rfl]
    exact tidy_sessionDeleted htidy
  | false =>
    cases hfound : (Binary.search store.session info.id Session.id).found with
    | true =>
      rw [sessionUpdated_of_found harchived hfound]
      exact tidy_put htidy
    | false =>
      rw [sessionUpdated_of_not_found harchived hfound]
      exact tidy_trim htidy _

theorem sessionUpdated_again (htidy : Tidy store) (harchived : info.isArchived = false) :
    sessionUpdated now info (sessionUpdated now info store) = sessionUpdated now info store := by
  cases hfound : (Binary.search store.session info.id Session.id).found with
  | true =>
    rw [sessionUpdated_of_found harchived hfound,
      sessionUpdated_of_found harchived (Binary.search_put htidy.session info)]
    simp only [Binary.put_put htidy.session]
  | false =>
    rw [sessionUpdated_of_not_found harchived hfound]
    cases hagain : (Binary.search (trimSessions (Binary.put store.session info Session.id)
        store.limit store.permission now) info.id Session.id).found with
    | true =>
      rw [sessionUpdated_of_found harchived hagain]
      simp only [put_trimSessions htidy.session hagain]
    | false =>
      rw [sessionUpdated_of_not_found harchived hagain]
      simp only [trimSessions_put (htidy.session.put info) info
        ((Binary.mem_put htidy.session).mpr (Or.inl rfl))]

theorem sessionCreated_again (htidy : Tidy store)
    (hkept : (Binary.search store.session info.id Session.id).found = false →
      info.isRoot = true →
      (Binary.search (trimSessions (Binary.put store.session info Session.id) store.limit
        store.permission now) info.id Session.id).found = true) :
    sessionCreated now info (sessionCreated now info store) = sessionCreated now info store := by
  cases hfound : (Binary.search store.session info.id Session.id).found with
  | true =>
    rw [sessionCreated_of_found hfound,
      sessionCreated_of_found (Binary.search_put htidy.session info)]
    simp only [Binary.put_put htidy.session]
  | false =>
    rw [sessionCreated_of_not_found hfound]
    cases hagain : (Binary.search (trimSessions (Binary.put store.session info Session.id)
        store.limit store.permission now) info.id Session.id).found with
    | true =>
      rw [sessionCreated_of_found hagain]
      simp only [put_trimSessions htidy.session hagain]
    | false =>
      have hchild : info.isRoot = false := by
        rw [← Bool.not_eq_true]
        intro hroot
        rw [hkept hfound hroot] at hagain
        cases hagain
      rw [sessionCreated_of_not_found hagain]
      simp only [trimSessions_put (htidy.session.put info) info
        ((Binary.mem_put htidy.session).mpr (Or.inl rfl)), hchild, Bool.false_eq_true, if_false]

end Sessions

/-! ### Runs -/

section Runs

/-- What holds after each event: the lists are sorted, and the roots are counted. -/
structure Accounted (s : Client ι V × Finset ι) : Prop where
  tidy : Tidy s.1.store
  total : s.1.store.sessionTotal = s.2.card

theorem accounted_empty (limit : ℤ) : Accounted ((Client.empty limit : Client ι V), ∅) where
  tidy :=
    { session := List.Pairwise.nil
      part := fun _ _ h => by cases h
      permission := fun _ _ h => by cases h
      question := fun _ _ h => by cases h }
  total := rfl

variable [OrderBot ι]

def Event.isCollection : Event ι V → Bool
  | .sessionCreated _ => true
  | .sessionUpdated _ => true
  | .sessionDeleted _ => true
  | .sessionStatus .. => false
  | .workspaceUpdated _ => false
  | .messageUpdated _ => false
  | .messageRemoved .. => false
  | .partUpdated _ => true
  | .partRemoved .. => true
  | .permissionAsked _ => true
  | .permissionReplied .. => true
  | .questionAsked _ => true
  | .questionReplied .. => true

def aliveRoots (alive : Finset ι) : Event ι V → Finset ι
  | .sessionCreated info => if info.isRoot then insert info.id alive else alive
  | .sessionUpdated info => if info.isArchived then alive.erase info.id else alive
  | .sessionDeleted info => alive.erase info.id
  | _ => alive

abbrev Delivery (ι V : Type*) : Type _ := ℤ × Event ι V

def deliver (cfg : Tweaks) (s : Client ι V × Finset ι) (d : Delivery ι V) :
    Client ι V × Finset ι :=
  (applyDirectoryEvent cfg d.1 s.1 d.2, aliveRoots s.2 d.2)

def EndsOnce (alive : Finset ι) (info : Session ι V) : Prop :=
  if info.isRoot then alive ⊆ {info.id} else info.id ∉ alive

/-- A root that is created is counted once: if it is in the list it is alive, and otherwise it is
not alive yet and is kept when the list is trimmed. -/
def CountsOnce (now : ℤ) (store : State ι V) (alive : Finset ι) (info : Session ι V) : Prop :=
  info.isRoot →
    if (Binary.search store.session info.id Session.id).found then info.id ∈ alive
    else
      let next := Binary.put store.session info Session.id
      info.id ∉ alive ∧
        kept ((keepRoots next store.limit now).map Session.id) store.permission now info

/-- **When an event can come twice in a row.** -/
def Repeats (cfg : Tweaks) (s : Client ι V × Finset ι) (d : Delivery ι V) : Prop :=
  match d.2 with
  | .sessionCreated info => CountsOnce d.1 s.1.store s.2 info
  | .sessionUpdated info => info.isArchived → EndsOnce s.2 info
  | .sessionDeleted info => EndsOnce s.2 info
  | .partUpdated props => PartRepeats cfg s.1 props
  | _ => True

variable {s : Client ι V × Finset ι} {d : Delivery ι V}

section Counted

variable {store : State ι V} {alive : Finset ι} {info : Session ι V}

theorem sessionTotal_sessionDeleted (htotal : store.sessionTotal = alive.card)
    (hends : EndsOnce alive info) :
    (sessionDeleted info store).sessionTotal = (alive.erase info.id).card ∧
      (info.isRoot = true → store.sessionTotal ≤ 1) := by
  have hdeleted : (sessionDeleted info store).sessionTotal =
      if info.isRoot then store.sessionTotal - 1 else store.sessionTotal := by
    rw [sessionDeleted_eq]
  rw [hdeleted, htotal]
  rw [EndsOnce] at hends
  split
  next hroot =>
    rw [if_pos hroot] at hends
    have hcard : alive.card ≤ 1 := (Finset.card_le_card hends).trans_eq (Finset.card_singleton _)
    have herase : alive.erase info.id = ∅ :=
      Finset.subset_empty.mp (Finset.subset_insert_iff.mp hends)
    rw [herase, Finset.card_empty]
    exact ⟨by omega, fun _ => hcard⟩
  next hroot =>
    rw [if_neg hroot] at hends
    rw [Finset.erase_eq_of_notMem hends]
    exact ⟨rfl, fun h => absurd h hroot⟩

theorem sessionTotal_sessionCreated (htotal : store.sessionTotal = alive.card)
    (hcounts : CountsOnce now store alive info) :
    (sessionCreated now info store).sessionTotal =
      (if info.isRoot then insert info.id alive else alive).card := by
  cases hfound : (Binary.search store.session info.id Session.id).found with
  | true =>
    rw [sessionCreated_of_found hfound]
    split
    next hroot =>
      have halive := hcounts hroot
      rw [if_pos hfound] at halive
      rw [Finset.insert_eq_of_mem halive]
      exact htotal
    next => exact htotal
  | false =>
    rw [sessionCreated_of_not_found hfound]
    split
    next hroot =>
      have hnew := hcounts hroot
      rw [hfound, if_neg Bool.false_ne_true] at hnew
      rw [Finset.card_insert_of_notMem hnew.1, htotal]
    next => exact htotal

theorem CountsOnce.found (hcounts : CountsOnce now store alive info)
    (hsorted : Binary.Sorted Session.id store.session)
    (hfound : (Binary.search store.session info.id Session.id).found = false)
    (hroot : info.isRoot = true) :
    (Binary.search (trimSessions (Binary.put store.session info Session.id) store.limit
      store.permission now) info.id Session.id).found = true := by
  have hnew := hcounts hroot
  rw [hfound, if_neg Bool.false_ne_true] at hnew
  have hput := hsorted.put info
  refine (Binary.found_iff (sorted_trimSessions hput)).mpr ⟨info, ?_, rfl⟩
  rw [trimSessions_eq_filter hput]
  exact List.mem_filter.mpr ⟨(Binary.mem_put hsorted).mpr (Or.inl rfl), hnew.2⟩

end Counted

/-- **One delivery keeps the lists sorted and the roots counted, and changes nothing any more when
it comes again.** -/
theorem Accounted.deliver (h : Accounted s) (hcollection : d.2.isCollection = true)
    (hrepeats : Repeats cfg s d) :
    Accounted (deliver cfg s d) ∧
      (applyDirectoryEvent cfg d.1 (deliver cfg s d).1 d.2).store = (deliver cfg s d).1.store := by
  obtain ⟨now, event⟩ := d
  obtain ⟨w, alive⟩ := s
  obtain ⟨htidy, htotal⟩ := h
  cases event with
  | sessionCreated info =>
    refine ⟨⟨tidy_sessionCreated htidy, sessionTotal_sessionCreated htotal hrepeats⟩, ?_⟩
    exact sessionCreated_again htidy fun hfound hroot =>
      CountsOnce.found hrepeats htidy.session hfound hroot
  | sessionUpdated info =>
    cases harchived : info.isArchived with
    | true =>
      obtain ⟨htotal', hle⟩ := sessionTotal_sessionDeleted htotal (hrepeats harchived)
      have hdeleted : ∀ store : State ι V, sessionUpdated now info store =
          sessionDeleted info store := fun store => by
        rw [sessionUpdated, harchived, if_pos rfl]
      refine ⟨⟨tidy_sessionUpdated htidy, ?_⟩, ?_⟩
      · change (sessionUpdated now info w.store).sessionTotal =
          (if info.isArchived then alive.erase info.id else alive).card
        rw [hdeleted, harchived, htotal']
        rfl
      · change sessionUpdated now info (sessionUpdated now info w.store) =
          sessionUpdated now info w.store
        rw [hdeleted, hdeleted]
        exact sessionDeleted_again htidy hle
    | false =>
      refine ⟨⟨tidy_sessionUpdated htidy, ?_⟩, sessionUpdated_again htidy harchived⟩
      change (sessionUpdated now info w.store).sessionTotal =
        (if info.isArchived then alive.erase info.id else alive).card
      rw [harchived, if_neg Bool.false_ne_true, ← htotal]
      cases hfound : (Binary.search w.store.session info.id Session.id).found with
      | true => rw [sessionUpdated_of_found harchived hfound]
      | false => rw [sessionUpdated_of_not_found harchived hfound]
  | sessionDeleted info =>
    obtain ⟨htotal', hle⟩ := sessionTotal_sessionDeleted htotal hrepeats
    exact ⟨⟨tidy_sessionDeleted htidy, htotal'⟩, sessionDeleted_again htidy hle⟩
  | sessionStatus | workspaceUpdated | messageUpdated | messageRemoved => cases hcollection
  | partUpdated props =>
    refine ⟨⟨tidy_partUpdated htidy hrepeats, ?_⟩, ?_⟩
    · obtain ⟨parts, hstore⟩ := partUpdated_store_eq cfg props w
      exact (congrArg State.sessionTotal hstore).trans htotal
    · exact (arrived_partUpdated (htidy.part props.part.messageID) hrepeats).store_eq
  | partRemoved messageID partID =>
    refine ⟨⟨tidy_partRemoved htidy, ?_⟩, partRemoved_partRemoved htidy⟩
    obtain ⟨parts, hstore⟩ := partRemoved_store_eq messageID partID w.store
    exact (congrArg State.sessionTotal hstore).trans htotal
  | permissionAsked permission =>
    have hagain : asked permission (asked permission w.store.permission) = _ :=
      asked_asked htidy.permission
    refine ⟨⟨⟨htidy.session, htidy.part, sorted_asked htidy.permission, htidy.question⟩, htotal⟩,
      ?_⟩
    exact congrArg (fun p => { w.store with permission := p }) hagain
  | permissionReplied sessionID requestID =>
    have hagain :
        replied sessionID requestID (replied sessionID requestID w.store.permission) = _ :=
      replied_replied htidy.permission
    refine ⟨⟨⟨htidy.session, htidy.part, sorted_replied htidy.permission, htidy.question⟩, htotal⟩,
      ?_⟩
    exact congrArg (fun p => { w.store with permission := p }) hagain
  | questionAsked question =>
    have hagain : asked question (asked question w.store.question) = _ :=
      asked_asked htidy.question
    refine ⟨⟨⟨htidy.session, htidy.part, htidy.permission, sorted_asked htidy.question⟩, htotal⟩,
      ?_⟩
    exact congrArg (fun q => { w.store with question := q }) hagain
  | questionReplied sessionID requestID =>
    have hagain : replied sessionID requestID (replied sessionID requestID w.store.question) = _ :=
      replied_replied htidy.question
    refine ⟨⟨⟨htidy.session, htidy.part, htidy.permission, sorted_replied htidy.question⟩, htotal⟩,
      ?_⟩
    exact congrArg (fun q => { w.store with question := q }) hagain

/-- After each event the lists are searchable and the roots are counted, and each event that comes
twice in a row changes nothing the second time. -/
def InStep (cfg : Tweaks) (limit : ℤ) (deliveries : List (Delivery ι V)) : Prop :=
  (∀ past, past <+: deliveries →
    AllSearchable (run (deliver cfg) (Client.empty limit, ∅) past).1.store ∧
      (run (deliver cfg) (Client.empty limit, ∅) past).1.store.sessionTotal =
        (run (deliver cfg) (Client.empty limit, ∅) past).2.card) ∧
    ∀ past d, past ++ [d] <+: deliveries →
      (run (deliver cfg) (Client.empty limit, ∅) (past ++ [d, d])).1.store =
        (run (deliver cfg) (Client.empty limit, ∅) (past ++ [d])).1.store

/-- **The lists of the client are searchable, the roots are counted, and an event that comes again
changes nothing, in every run in which each event can come twice**: a root that is created is kept
and not alive before, or in the list and alive; no other root is alive when one ends; and a part
that comes again shows that it has come before. -/
theorem collections_inStep (cfg : Tweaks) (limit : ℤ) (deliveries : List (Delivery ι V))
    (hcollection : ∀ d ∈ deliveries, d.2.isCollection = true)
    (hrepeats : Meets (deliver cfg) (Repeats cfg) (Client.empty limit, ∅) deliveries) :
    InStep cfg limit deliveries := by
  have hmeets : Meets (deliver cfg) (fun s d => d.2.isCollection = true ∧ Repeats cfg s d)
      (Client.empty limit, ∅) deliveries := by
    refine Meets.and (Meets.iff_split.mpr fun before d after hsplit => ?_) hrepeats
    exact hcollection d (hsplit ▸ List.mem_append_right _ List.mem_cons_self)
  have haccounted : ∀ past, past <+: deliveries →
      Accounted (run (deliver cfg) (Client.empty limit, ∅) past) := fun past hpast =>
    (hmeets.initial hpast).invariant Accounted (accounted_empty limit) fun s d hs hd =>
      (hs.deliver hd.1 hd.2).1
  refine ⟨fun past hpast => ?_, fun past d hpast => ?_⟩
  · have h := haccounted past hpast
    exact ⟨h.tidy.allSearchable, h.total⟩
  · have hd := (Meets.append.mp (hmeets.initial hpast)).2.1
    have h := haccounted past ((List.prefix_append past [d]).trans hpast)
    rw [run_append, run_append]
    exact (h.deliver hd.1 hd.2).2

/-! ### A session that is deleted twice -/

def exampleRoot (id : String) : Session String Unit := ⟨id, none, 1, none, none, ()⟩

/-- A root is created and asks for a permission, each of which is delivered twice. -/
theorem collections_inStep_root :
    InStep ⟨true, 64⟩ 10
      [(5, .sessionCreated (exampleRoot "ses_a")), (5, .sessionCreated (exampleRoot "ses_a")),
        (6, .permissionAsked ⟨"per_a", "ses_a", ()⟩),
        (6, .permissionAsked ⟨"per_a", "ses_a", ()⟩)] := by
  refine collections_inStep _ _ _ (by decide) ⟨fun _ => ?_, fun _ => ?_, trivial, trivial, trivial⟩
  · decide
  · decide

/-- **One of two roots is deleted, and the event comes twice**: no session is counted any more. -/
theorem not_inStep_deleted :
    ¬InStep ⟨true, 64⟩ 10
      [(5, .sessionCreated (exampleRoot "ses_a")), (5, .sessionCreated (exampleRoot "ses_b")),
        (6, .sessionDeleted (exampleRoot "ses_a")),
        (6, .sessionDeleted (exampleRoot "ses_a"))] := by
  intro h
  exact absurd (h.1 _ (List.prefix_refl _)).2 (by decide)

end Runs

end OpenCms.GlobalSync
