import OpenCms.Lib.JsString
import Mathlib.Data.List.Nodup
import Mathlib.Data.List.TakeWhile

/-!
# Taking back a part of a session

`revert` looks for the point that is asked for, a message or one of its parts, and records it;
`cleanup` removes what comes after the point recorded. A part counts only if something useful comes
before it in its message; otherwise the point is the message, and then the last message of the user.

The two do not agree on what a recorded part means. `revert` records it with the message that holds
it, and `cleanup` removes the message recorded with all that follow it, and then looks for the part
in the last message that it has kept. So a part that counts takes its whole message with it, and
`OpenCms.SessionRevert.reverted_iff` says that what is left is what was asked for exactly if the
part does not count and the message asked for has been found; a message without parts is not.
-/

namespace OpenCms.SessionRevert

inductive PartType
  | text | tool | patch | other
  deriving DecidableEq, Repr

structure Part (ρ : Type) where
  id : JsString
  type : PartType
  rest : ρ
  deriving DecidableEq

/-- `info.role`. -/
inductive Role
  | user | assistant
  deriving DecidableEq, Repr

/-- `MessageV2.WithParts`. -/
structure Message (ρ : Type) where
  id : JsString
  role : Role
  parts : List (Part ρ)
  deriving DecidableEq

/-- `RevertInput`. Identifiers are never empty, so that a part that is given is a true value. -/
structure RevertInput where
  messageID : JsString
  partID : Option JsString
  deriving DecidableEq

/-- `Session.Info["revert"]`. -/
structure Revert where
  messageID : JsString
  partID : Option JsString
  snapshot : Option JsString := none
  diff : Option JsString := none
  deriving DecidableEq

/-- `Snapshot.FileDiff`: what is summed up of it, and the rest. -/
structure FileDiff where
  additions : ℕ
  deletions : ℕ
  rest : JsString
  deriving DecidableEq

structure Summary where
  additions : ℕ
  deletions : ℕ
  files : ℕ
  deriving DecidableEq

/-- The messages of a session, oldest first. The identifier is their primary key. -/
structure Messages (ρ : Type) where
  toList : List (Message ρ)
  nodup : (toList.map Message.id).Nodup

/-- A session as it is stored, with the files of its project. -/
structure Session (ρ φ : Type) where
  messages : Messages ρ
  revert : Option Revert := none
  summary : Option Summary := none
  sessionDiff : List FileDiff := []
  files : φ

/-- What `Snapshot` and `SessionSummary` do with the files of a project. -/
structure Snapshot (ρ φ : Type) where
  track : φ → Option JsString
  revert : List (Part ρ) → φ → φ
  diff : JsString → φ → JsString
  computeDiff : List (Message ρ) → φ → List FileDiff

variable {ρ φ : Type}

/-! ### Recording a point -/

def Message.isUser (m : Message ρ) : Bool := m.role = .user

def Part.useful (part : Part ρ) : Bool := part.type = .text || part.type = .tool

/-- What the loops of `revert` keep. -/
structure Scan (ρ : Type) where
  lastUser : Option JsString := none
  revert : Option Revert := none
  patches : List (Part ρ) := []

def hit (input : RevertInput) (msg : Message ρ) (part : Part ρ) : Bool :=
  (msg.id = input.messageID ∧ input.partID = none) ∨ some part.id = input.partID

def scanPart (input : RevertInput) (msg : Message ρ) (acc : Scan ρ × List (Part ρ))
    (part : Part ρ) : Scan ρ × List (Part ρ) :=
  let (s, remaining) := acc
  match s.revert with
  | some _ =>
    if part.type = .patch then ({ s with patches := s.patches ++ [part] }, remaining)
    else (s, remaining)
  | none =>
    if hit input msg part then
      -- without a useful part before it, the whole message is meant
      let partID := if remaining.any Part.useful then input.partID else none
      let messageID := if partID = none then s.lastUser.getD msg.id else msg.id
      ({ s with revert := some { messageID, partID } }, remaining ++ [part])
    else (s, remaining ++ [part])

def scanMessage (input : RevertInput) (s : Scan ρ) (msg : Message ρ) : Scan ρ :=
  let s := if msg.isUser then { s with lastUser := some msg.id } else s
  (msg.parts.foldl (scanPart input msg) (s, [])).1

def scan (input : RevertInput) (all : List (Message ρ)) : Scan ρ :=
  all.foldl (scanMessage input) {}

def revert (snapshots : Snapshot ρ φ) (busy : Bool) (session : Session ρ φ)
    (input : RevertInput) : Option (Session ρ φ) :=
  if busy then none
  else
    let found := scan input session.messages.toList
    match found.revert with
    | none => some session
    | some point =>
      let snapshot := (session.revert.bind Revert.snapshot).or (snapshots.track session.files)
      let files := snapshots.revert found.patches session.files
      let range := session.messages.toList.filter fun m => point.messageID ≤ m.id
      let diffs := snapshots.computeDiff range files
      some { session with
        files
        sessionDiff := diffs
        revert := some { point with
          snapshot, diff := snapshot.map fun hash => snapshots.diff hash files }
        summary := some {
          additions := diffs.foldl (fun sum x => sum + x.additions) 0
          deletions := diffs.foldl (fun sum x => sum + x.deletions) 0
          files := diffs.length } }

/-! ### Removing what comes after it -/

def Message.removePart (partID : JsString) (m : Message ρ) : Message ρ :=
  { m with parts := m.parts.filter fun part => part.id ≠ partID }

def Messages.removeMessage (messages : Messages ρ) (messageID : JsString) : Messages ρ where
  toList := messages.toList.filter fun m => m.id ≠ messageID
  nodup := messages.nodup.sublist (List.filter_sublist.map Message.id)

def Messages.removePart (messages : Messages ρ) (partID : JsString) : Messages ρ where
  toList := messages.toList.map (Message.removePart partID)
  nodup := by
    rw [List.map_map]
    exact messages.nodup

def cleanup (session : Session ρ φ) : Session ρ φ :=
  match session.revert with
  | none => session
  | some revert =>
    let split := session.messages.toList.span fun m => m.id ≠ revert.messageID
    let kept := split.2.foldl (fun stored msg => stored.removeMessage msg.id) session.messages
    let kept := match revert.partID, split.1.getLast? with
      | some partID, some last =>
        let removeParts := (last.parts.span fun part => part.id ≠ partID).2
        removeParts.foldl (fun stored part => stored.removePart part.id) kept
      | _, _ => kept
    { session with messages := kept, revert := none }

/-! ### What is asked for -/

def asks (input : RevertInput) (m : Message ρ) : Bool :=
  match input.partID with
  | none => m.id = input.messageID
  | some partID => partID ∈ m.parts.map Part.id

def partsBefore (input : RevertInput) (m : Message ρ) : List (Part ρ) :=
  m.parts.takeWhile fun part => !(hit input m part)

def effective (input : RevertInput) (m : Message ρ) : Bool :=
  input.partID.isSome && (partsBefore input m).any Part.useful

def lastUser (messages : List (Message ρ)) : Option JsString :=
  (messages.reverse.find? Message.isUser).map Message.id

/-- The message from which on all is taken back, if it is not a part. -/
def recorded (before : List (Message ρ)) (m : Message ρ) : JsString :=
  (lastUser (before ++ [m])).getD m.id

def untilRecorded (before : List (Message ρ)) (m : Message ρ) : List (Message ρ) :=
  (before ++ [m]).takeWhile fun x => x.id ≠ recorded before m

def leftOf (input : RevertInput) (before : List (Message ρ)) (m : Message ρ) :
    List (Message ρ) :=
  if effective input m then before ++ [{ m with parts := partsBefore input m }]
  else untilRecorded before m

/-- What is left when the point is found nowhere is all. -/
def left (input : RevertInput) (messages : List (Message ρ)) : List (Message ρ) :=
  match messages.span fun m => !(asks input m) with
  | (before, m :: _) => leftOf input before m
  | (_, []) => messages

def Existing (input : RevertInput) (messages : List (Message ρ)) : Prop :=
  ∃ m ∈ messages, m.id = input.messageID ∧
    ∀ partID, input.partID = some partID → partID ∈ m.parts.map Part.id

/-- A revert that is already pending takes back what is asked for. -/
def Pending (pending : Option Revert) (before : List (Message ρ)) (m : Message ρ) : Prop :=
  ∃ r, pending = some r ∧ r.messageID = recorded before m ∧
    ∀ partID, r.partID = some partID → ∀ last, (untilRecorded before m).getLast? = some last →
      partID ∉ last.parts.map Part.id

/-- The point is a message that has a part, or is already recorded. -/
def WholeMessage (session : Session ρ φ) (input : RevertInput) : Prop :=
  match session.messages.toList.span fun m => !(asks input m) with
  | (before, m :: _) =>
    effective input m = false ∧ (m.parts = [] → Pending session.revert before m)
  | (_, []) => False

variable {input : RevertInput} {before rest : List (Message ρ)} {m : Message ρ}
  {parts : List (Part ρ)} {part : Part ρ} {s : Scan ρ} {r : Revert} {messages : List (Message ρ)}

/-! ### What the loops find -/

theorem exists_hit_iff : (∃ part ∈ m.parts, hit input m part) ↔ asks input m ∧ m.parts ≠ [] := by
  cases hpart : input.partID with
  | none =>
    have hhit : ∀ part, hit input m part ↔ m.id = input.messageID := fun part => by
      simp [hit, hpart]
    simp only [hhit, asks, hpart, decide_eq_true_eq, exists_and_right]
    rw [and_comm]
    exact and_congr_right fun _ => ⟨fun ⟨part, hmem⟩ => List.ne_nil_of_mem hmem,
      List.exists_mem_of_ne_nil m.parts⟩
  | some partID =>
    have hhit : ∀ part, hit input m part ↔ part.id = partID := fun part => by
      simp [hit, hpart]
    simp only [hhit, asks, hpart, decide_eq_true_eq, List.mem_map]
    constructor
    · rintro ⟨part, hmem, rfl⟩
      exact ⟨⟨part, hmem, rfl⟩, List.ne_nil_of_mem hmem⟩
    · rintro ⟨h, -⟩
      exact h

theorem foldl_scanPart (hs : s.revert = none) (h : ∀ part ∈ parts, hit input m part = false)
    (remaining : List (Part ρ)) :
    parts.foldl (scanPart input m) (s, remaining) = (s, remaining ++ parts) := by
  induction parts generalizing remaining with
  | nil => rw [List.foldl_nil, List.append_nil]
  | cons part parts ih =>
    obtain ⟨hpart, hparts⟩ := List.forall_mem_cons.mp h
    have hstep : scanPart input m (s, remaining) part = (s, remaining ++ [part]) := by
      simp only [scanPart, hs, hpart, Bool.false_eq_true, if_false]
    rw [List.foldl_cons, hstep, ih hparts, List.append_assoc, List.singleton_append]

theorem foldl_scanPart_found {acc : Scan ρ × List (Part ρ)} (h : acc.1.revert = some r) :
    (parts.foldl (scanPart input m) acc).1.revert = some r := by
  induction parts generalizing acc with
  | nil => exact h
  | cons part parts ih =>
    refine ih ?_
    simp only [scanPart, h]
    split
    · rfl
    · exact h

theorem scanMessage_found (h : s.revert = some r) : (scanMessage input s m).revert = some r := by
  refine foldl_scanPart_found ?_
  split
  · exact h
  · exact h

theorem foldl_scanMessage_found (h : s.revert = some r) :
    (rest.foldl (scanMessage input) s).revert = some r := by
  induction rest generalizing s with
  | nil => exact h
  | cons m rest ih => exact ih (scanMessage_found h)

theorem lastUser_concat : lastUser (before ++ [m]) =
    if m.isUser then some m.id else lastUser before := by
  rw [lastUser, List.reverse_append, List.reverse_singleton, List.singleton_append,
    List.find?_cons]
  cases hm : m.isUser <;> rfl

theorem scanMessage_eq : scanMessage input { lastUser := lastUser before } m =
    (m.parts.foldl (scanPart input m) ({ lastUser := lastUser (before ++ [m]) }, [])).1 := by
  rw [scanMessage, lastUser_concat]
  split
  · rfl
  · rfl

theorem scan_eq (h : ∀ x ∈ before, ∀ part ∈ x.parts, hit input x part = false) :
    scan input before = { lastUser := lastUser before } := by
  induction before using List.reverseRecOn with
  | nil => rfl
  | append_singleton before m ih =>
    have hm := h m (List.mem_append_right _ (List.mem_singleton_self m))
    rw [scan, List.foldl_append, ← scan, ih fun x hx => h x (List.mem_append_left _ hx),
      List.foldl_cons, scanMessage_eq, foldl_scanPart rfl hm, List.foldl_nil]

/-- **What is recorded**: the message of the point with the part, if the part counts, and the last
message of the user else. -/
theorem scan_revert (hbefore : ∀ x ∈ before, asks input x = false) (hm : asks input m)
    (hparts : m.parts ≠ []) : (scan input (before ++ m :: rest)).revert =
      some (if effective input m then { messageID := m.id, partID := input.partID }
        else { messageID := recorded before m, partID := none }) := by
  have hnone : ∀ x ∈ before, ∀ part ∈ x.parts, hit input x part = false := by
    intro x hx part hpart
    by_contra hhit
    have hasks := (exists_hit_iff.mp ⟨part, hpart, eq_true_of_ne_false hhit⟩).1
    rw [hbefore x hx] at hasks
    exact Bool.false_ne_true hasks
  obtain ⟨part, hmem, hhit⟩ := exists_hit_iff.mpr ⟨hm, hparts⟩
  -- the first part that is hit, and the parts that remain before it
  have hsplit : m.parts =
      partsBefore input m ++ m.parts.dropWhile fun part => !(hit input m part) :=
    List.takeWhile_append_dropWhile.symm
  obtain ⟨point, others, hrest⟩ : ∃ point others,
      (m.parts.dropWhile fun part => !(hit input m part)) = point :: others := by
    refine List.exists_cons_of_ne_nil fun hnil => ?_
    have hpass := List.dropWhile_eq_nil_iff.mp hnil part hmem
    rw [hhit] at hpass
    exact Bool.false_ne_true hpass
  have hpoint : hit input m point := by
    have hhead := List.head?_dropWhile_not (fun part => !(hit input m part)) m.parts
    rw [hrest] at hhead
    simpa using hhead
  have hpassed : ∀ part ∈ partsBefore input m, hit input m part = false := fun part hpart => by
    simpa using List.mem_takeWhile_imp hpart
  rw [scan, List.foldl_append, ← scan, scan_eq hnone, List.foldl_cons]
  refine foldl_scanMessage_found ?_
  rw [scanMessage_eq, hsplit, hrest, List.foldl_append, foldl_scanPart rfl hpassed,
    List.foldl_cons, List.nil_append]
  refine foldl_scanPart_found ?_
  simp only [scanPart, hpoint, if_true]
  rw [effective, recorded]
  cases hpart : input.partID with
  | none => simp
  | some partID => cases (partsBefore input m).any Part.useful <;> simp

theorem scan_revert_none {all : List (Message ρ)}
    (h : ∀ x ∈ all, asks input x → x.parts = []) : (scan input all).revert = none := by
  rw [scan_eq fun x hx part hpart => ?_]
  by_contra hhit
  obtain ⟨hasks, hne⟩ := exists_hit_iff.mp ⟨part, hpart, eq_true_of_ne_false hhit⟩
  exact hne (h x hx hasks)

/-! ### What is removed -/

theorem foldl_removeMessage (remove : List (Message ρ)) (stored : Messages ρ) :
    (remove.foldl (fun stored msg => stored.removeMessage msg.id) stored).toList =
      stored.toList.filter fun m => m.id ∉ remove.map Message.id := by
  induction remove generalizing stored with
  | nil => simp
  | cons msg remove ih =>
    rw [List.foldl_cons, ih, Messages.removeMessage, List.filter_filter]
    refine List.filter_congr fun m _ => ?_
    rw [List.map_cons, Bool.eq_iff_iff]
    simp only [Bool.and_eq_true, decide_eq_true_eq, List.mem_cons, not_or]
    exact and_comm

theorem filter_preserve (h : (messages.map Message.id).Nodup) (hall : before ++ rest = messages) :
    (messages.filter fun m => m.id ∉ rest.map Message.id) = before := by
  subst hall
  rw [List.map_append] at h
  have hdisjoint := List.disjoint_of_nodup_append h
  rw [List.filter_append, List.filter_eq_self.mpr, List.filter_eq_nil_iff.mpr, List.append_nil]
  · intro m hm
    simpa using ⟨m, hm, rfl⟩
  · intro m hm
    exact decide_eq_true (hdisjoint (List.mem_map_of_mem hm))

theorem length_foldl_removePart (parts : List (Part ρ)) (stored : Messages ρ) :
    (parts.foldl (fun stored part => stored.removePart part.id) stored).toList.length =
      stored.toList.length := by
  induction parts generalizing stored with
  | nil => rfl
  | cons part parts ih =>
    rw [List.foldl_cons, ih]
    exact List.length_map ..

theorem notMem_foldl_removePart {partID : JsString} {stored : Messages ρ}
    (h : partID ∈ parts.map Part.id ∨ ∀ m ∈ stored.toList, partID ∉ m.parts.map Part.id) :
    ∀ m ∈ (parts.foldl (fun stored part => stored.removePart part.id) stored).toList,
      partID ∉ m.parts.map Part.id := by
  induction parts generalizing stored with
  | nil => exact h.resolve_left List.not_mem_nil
  | cons part parts ih =>
    refine ih ?_
    by_cases hlater : partID ∈ parts.map Part.id
    · exact Or.inl hlater
    · refine Or.inr fun m hm hmem => ?_
      obtain ⟨m', hm', rfl⟩ := List.mem_map.mp hm
      obtain ⟨part', hpart', rfl⟩ := List.mem_map.mp hmem
      obtain ⟨hold, hne⟩ := List.mem_filter.mp hpart'
      rcases h with hhere | hnowhere
      · rcases List.mem_cons.mp hhere with heq | hmem'
        · exact of_decide_eq_true hne heq
        · exact hlater hmem'
      · exact hnowhere m' hm' (List.mem_map_of_mem hold)

section Cleanup

variable {session : Session ρ φ}

def preserved (session : Session ρ φ) (r : Revert) : List (Message ρ) :=
  session.messages.toList.takeWhile fun x => x.id ≠ r.messageID

/-- The part recorded is in the last message before the one recorded. -/
def InLast (session : Session ρ φ) (r : Revert) : Prop :=
  ∃ partID last, r.partID = some partID ∧ (preserved session r).getLast? = some last ∧
    partID ∈ last.parts.map Part.id

theorem removed_toList (session : Session ρ φ) (r : Revert) :
    ((session.messages.toList.dropWhile fun x => x.id ≠ r.messageID).foldl
      (fun stored msg => stored.removeMessage msg.id) session.messages).toList =
      preserved session r := by
  have hsplit : preserved session r ++
      (session.messages.toList.dropWhile fun x => x.id ≠ r.messageID) = session.messages.toList :=
    List.takeWhile_append_dropWhile
  rw [foldl_removeMessage]
  exact filter_preserve session.messages.nodup hsplit

/-- **What `cleanup` leaves**: the messages before the one recorded, as they are exactly if the part
recorded is not in the last of them. -/
theorem cleanup_eq_iff (h : session.revert = some r) :
    (cleanup session).messages.toList = preserved session r ↔ ¬InLast session r := by
  have hkept := removed_toList session r
  rw [cleanup]
  simp only [h, List.span_eq_takeWhile_dropWhile]
  split
  next partID last hpart hlast =>
    have hin : InLast session r ↔ partID ∈ last.parts.map Part.id := by
      constructor
      · rintro ⟨partID', last', hpart', hlast', hmem⟩
        obtain rfl := Option.some.inj (hpart.symm.trans hpart')
        obtain rfl := Option.some.inj (hlast.symm.trans hlast')
        exact hmem
      · intro hmem
        exact ⟨partID, last, hpart, hlast, hmem⟩
    rw [hin]
    constructor
    · intro heq hmem
      obtain ⟨part, hpartmem, rfl⟩ := List.mem_map.mp hmem
      have hdropped : part.id ∈ (last.parts.dropWhile fun x => x.id ≠ part.id).map Part.id := by
        rw [← List.takeWhile_append_dropWhile (p := fun x : Part ρ => decide (x.id ≠ part.id))
          (l := last.parts)] at hpartmem
        rcases List.mem_append.mp hpartmem with hbefore | hafter
        · have hne : decide (part.id ≠ part.id) := List.mem_takeWhile_imp
            (p := fun x : Part ρ => decide (x.id ≠ part.id)) hbefore
          exact absurd rfl (of_decide_eq_true hne)
        · exact List.mem_map_of_mem hafter
      have hlastmem : last ∈ preserved session r := List.mem_of_getLast? hlast
      rw [← heq] at hlastmem
      exact notMem_foldl_removePart (Or.inl hdropped) last hlastmem hmem
    · intro hmem
      have hnil : (last.parts.dropWhile fun x => x.id ≠ partID) = [] := by
        refine List.dropWhile_eq_nil_iff.mpr fun part hpartmem => decide_eq_true fun heq => ?_
        exact hmem (List.mem_map.mpr ⟨part, hpartmem, heq⟩)
      rw [hnil]
      exact hkept
  next hnone =>
    refine iff_of_true hkept ?_
    rintro ⟨partID, last, hpart, hlast, -⟩
    exact hnone partID last hpart hlast

theorem length_cleanup (h : session.revert = some r) :
    (cleanup session).messages.toList.length = (preserved session r).length := by
  rw [← removed_toList session r, cleanup]
  simp only [h, List.span_eq_takeWhile_dropWhile]
  split
  · exact length_foldl_removePart _ _
  · rfl

end Cleanup

/-! ### What is left -/

theorem span_asks (hbefore : ∀ x ∈ before, asks input x = false) (hm : asks input m) :
    (before ++ m :: rest).span (fun m => !(asks input m)) = (before, m :: rest) := by
  have hpassed : ∀ x ∈ before, !(asks input x) := fun x hx => by rw [hbefore x hx]; rfl
  rw [List.span_eq_takeWhile_dropWhile, List.takeWhile_append_of_pos hpassed,
    List.dropWhile_append_of_pos hpassed, List.takeWhile_cons_of_neg (by simp [hm]),
    List.dropWhile_cons_of_neg (by simp [hm]), List.append_nil]

theorem recorded_mem : recorded before m ∈ (before ++ [m]).map Message.id := by
  rw [recorded, lastUser]
  cases hfind : (before ++ [m]).reverse.find? Message.isUser with
  | none => simp
  | some user =>
    exact List.mem_map_of_mem (List.mem_reverse.mp (List.mem_of_find?_eq_some hfind))

theorem takeWhile_of_mem {messageID : JsString} (h : messageID ∈ messages.map Message.id) :
    ((messages ++ rest).takeWhile fun x => x.id ≠ messageID) =
      messages.takeWhile fun x => x.id ≠ messageID := by
  induction messages with
  | nil => exact absurd h List.not_mem_nil
  | cons x messages ih =>
    rw [List.cons_append, List.takeWhile_cons, List.takeWhile_cons]
    split
    next hx =>
      have hrest := (List.mem_cons.mp h).resolve_left fun heq => of_decide_eq_true hx heq.symm
      rw [ih hrest]
    next => rfl

theorem eq_of_length_takeWhile {a b : JsString} (h : b ∈ messages.map Message.id)
    (heq : (messages.takeWhile fun x => x.id ≠ a).length =
      (messages.takeWhile fun x => x.id ≠ b).length) : a = b := by
  induction messages with
  | nil => exact absurd h List.not_mem_nil
  | cons x messages ih =>
    rw [List.takeWhile_cons, List.takeWhile_cons] at heq
    rcases eq_or_ne x.id a with rfl | ha
    · rcases eq_or_ne x.id b with hb | hb
      · exact hb
      · rw [if_neg (by simp), if_pos (decide_eq_true hb)] at heq
        exact absurd heq (by simp)
    · rw [if_pos (decide_eq_true ha)] at heq
      rcases eq_or_ne x.id b with rfl | hb
      · exact absurd heq (by simp)
      · rw [if_pos (decide_eq_true hb), List.length_cons, List.length_cons] at heq
        have hrest := (List.mem_cons.mp h).resolve_left hb.symm
        exact ih hrest (Nat.succ_injective heq)

theorem length_takeWhile_lt {messageID : JsString} (h : messageID ∈ messages.map Message.id) :
    (messages.takeWhile fun x => x.id ≠ messageID).length < messages.length := by
  refine lt_of_le_of_ne (List.takeWhile_prefix _).length_le fun heq => ?_
  obtain ⟨m, hm, rfl⟩ := List.mem_map.mp h
  have hall := List.takeWhile_eq_self_iff.mp ((List.takeWhile_prefix _).eq_of_length heq) m hm
  exact absurd rfl (of_decide_eq_true hall)

section Reverted

variable {session session' : Session ρ φ}

theorem preserved_recorded (hall : session.messages.toList = before ++ m :: rest)
    (hr : r.messageID = recorded before m) : preserved session r = untilRecorded before m := by
  have hcons : before ++ m :: rest = (before ++ [m]) ++ rest := by
    rw [List.append_assoc, List.singleton_append]
  rw [preserved, hall, hr, hcons, takeWhile_of_mem recorded_mem, untilRecorded]

theorem preserved_id (hall : session.messages.toList = before ++ m :: rest)
    (hr : r.messageID = m.id) : preserved session r = before := by
  have hnodup := session.messages.nodup
  rw [hall, List.map_append, List.map_cons] at hnodup
  have hpassed : ∀ x ∈ before, decide (x.id ≠ m.id) := fun x hx =>
    decide_eq_true fun heq => List.disjoint_of_nodup_append hnodup (List.mem_map_of_mem hx)
      (List.mem_cons.mpr (Or.inl heq))
  rw [preserved, hall, hr, List.takeWhile_append_of_pos hpassed,
    List.takeWhile_cons_of_neg (by simp), List.append_nil]

theorem cleanup_iff_pending (hall : session.messages.toList = before ++ m :: rest) :
    (cleanup session).messages.toList = untilRecorded before m ↔
      Pending session.revert before m := by
  have hmem : recorded before m ∈ session.messages.toList.map Message.id := by
    have hcons : before ++ m :: rest = (before ++ [m]) ++ rest := by
      rw [List.append_assoc, List.singleton_append]
    rw [hall, hcons, List.map_append]
    exact List.mem_append_left _ recorded_mem
  have huntil : untilRecorded before m =
      session.messages.toList.takeWhile fun x => x.id ≠ recorded before m :=
    (preserved_recorded (r := { messageID := recorded before m, partID := none }) hall rfl).symm
  cases hpending : session.revert with
  | none =>
    refine iff_of_false (fun heq => ?_) (fun ⟨r, hr, _⟩ => absurd hr (by rintro ⟨⟩))
    rw [cleanup, hpending, huntil] at heq
    exact absurd (congrArg List.length heq).symm (length_takeWhile_lt hmem).ne
  | some r =>
    constructor
    · intro heq
      have hlength : (preserved session r).length = (untilRecorded before m).length := by
        rw [← length_cleanup hpending, heq]
      rw [huntil] at hlength
      have hr : r.messageID = recorded before m := eq_of_length_takeWhile hmem hlength
      rw [← preserved_recorded hall hr, cleanup_eq_iff hpending] at heq
      refine ⟨r, rfl, hr, fun partID hpart last hlast hin => heq ⟨partID, last, hpart, ?_, hin⟩⟩
      rw [preserved_recorded hall hr]
      exact hlast
    · rintro ⟨r', hr', hr, hparts⟩
      obtain rfl := Option.some.inj hr'
      rw [← preserved_recorded hall hr, cleanup_eq_iff hpending]
      rintro ⟨partID, last, hpart, hlast, hin⟩
      rw [preserved_recorded hall hr] at hlast
      exact hparts partID hpart last hlast hin

theorem revert_messages {snapshots : Snapshot ρ φ} {busy : Bool}
    (h : revert snapshots busy session input = some session') :
    session'.messages = session.messages ∧
      match (scan input session.messages.toList).revert with
      | none => session' = session
      | some point => ∃ r, session'.revert = some r ∧ r.messageID = point.messageID ∧
          r.partID = point.partID := by
  rw [revert] at h
  split at h
  · exact absurd h (by rintro ⟨⟩)
  · cases hfound : (scan input session.messages.toList).revert with
    | none =>
      simp only [hfound, Option.some.injEq] at h
      exact ⟨by rw [h], h.symm⟩
    | some point =>
      simp only [hfound, Option.some.injEq] at h
      subst h
      exact ⟨rfl, _, rfl, rfl, rfl⟩

theorem exists_asks (h : Existing input messages) :
    ∃ before m rest, messages = before ++ m :: rest ∧ asks input m ∧
      ∀ x ∈ before, asks input x = false := by
  obtain ⟨m, hmem, hid, hparts⟩ := h
  have hasks : asks input m := by
    rw [asks]
    cases hpart : input.partID with
    | none => exact decide_eq_true hid
    | some partID => exact decide_eq_true (hparts partID hpart)
  obtain ⟨first, hfirst⟩ := Option.isSome_iff_exists.mp (List.find?_isSome.mpr ⟨m, hmem, hasks⟩)
  obtain ⟨hm, before, rest, hsplit, hbefore⟩ := List.find?_eq_some_iff_append.mp hfirst
  exact ⟨before, first, rest, hsplit, hm, fun x hx => by simpa using hbefore x hx⟩

theorem parts_eq_nil_of_asks (h : (messages.map Message.id).Nodup) (hmem : m ∈ messages)
    (hm : asks input m) (hparts : m.parts = []) : ∀ x ∈ messages, asks input x → x.parts = [] := by
  intro x hx hasks
  cases hpart : input.partID with
  | none =>
    simp only [asks, hpart, decide_eq_true_eq] at hm hasks
    rw [List.inj_on_of_nodup_map h hx hmem (hasks.trans hm.symm), hparts]
  | some partID =>
    simp only [asks, hpart, hparts, List.map_nil, List.not_mem_nil, decide_false,
      Bool.false_eq_true] at hm

/-- **Reverting removes exactly what was asked for exactly if the point is a whole message that has
been found**: that the part asked for does not count, and that its message has parts, unless it is
the point already pending. -/
theorem reverted_iff (snapshots : Snapshot ρ φ) (busy : Bool) (session session' : Session ρ φ)
    (input : RevertInput) (hexists : Existing input session.messages.toList)
    (hrevert : revert snapshots busy session input = some session') :
    (cleanup session').messages.toList = left input session.messages.toList ↔
      WholeMessage session input := by
  obtain ⟨before, m, rest, hall, hm, hbefore⟩ := exists_asks hexists
  obtain ⟨hmessages, hfound⟩ := revert_messages hrevert
  have hspan : (before ++ m :: rest).span (fun x => !(asks input x)) = (before, m :: rest) :=
    span_asks hbefore hm
  have hleft : left input session.messages.toList = leftOf input before m := by
    rw [left, hall, hspan]
  rw [WholeMessage, hleft, hall, hspan, leftOf]
  by_cases hparts : m.parts = []
  · -- a message without parts is not found, and what is pending is done
    have heffective : effective input m = false := by
      rw [effective, partsBefore, hparts]
      exact Bool.and_false _
    have hnone : (scan input session.messages.toList).revert = none := by
      refine scan_revert_none (parts_eq_nil_of_asks session.messages.nodup ?_ hm hparts)
      rw [hall]
      exact List.mem_append_right _ List.mem_cons_self
    rw [hnone] at hfound
    subst hfound
    simp only [heffective, Bool.false_eq_true, if_false, true_and, hparts, forall_const]
    exact cleanup_iff_pending hall
  · rw [hall, scan_revert hbefore hm hparts] at hfound
    obtain ⟨r, hr, hid, hpart⟩ := hfound
    have hall' : session'.messages.toList = before ++ m :: rest := by rw [hmessages, hall]
    cases heffective : effective input m with
    | true =>
      -- `cleanup` removes the message with the part
      simp only [heffective, if_true] at hid
      refine iff_of_false (fun heq => ?_) (fun h => Bool.false_ne_true (h.1.symm.trans heffective))
      have hlength := congrArg List.length heq
      rw [length_cleanup hr, preserved_id hall' hid, if_pos rfl, List.length_append,
        List.length_singleton] at hlength
      omega
    | false =>
      simp only [heffective, Bool.false_eq_true, if_false] at hid hpart ⊢
      refine iff_of_true ?_ ⟨trivial, fun hnil => absurd hnil hparts⟩
      rw [← preserved_recorded hall' hid, cleanup_eq_iff hr]
      rintro ⟨partID, last, hpart', -⟩
      exact absurd (hpart.symm.trans hpart') (by rintro ⟨⟩)

end Reverted

/-! ### An answer with a tool call -/

def answered : Session Unit Unit where
  messages := {
    toList := [
      { id := js "msg_1", role := .user, parts := [⟨js "prt_1", .text, ()⟩] },
      { id := js "msg_2", role := .assistant,
        parts := [⟨js "prt_2", .text, ()⟩, ⟨js "prt_3", .tool, ()⟩] }]
    nodup := by decide }
  files := ()

def untracked : Snapshot Unit Unit where
  track _ := none
  revert _ _ := ()
  diff _ _ := []
  computeDiff _ _ := []

/-- The answer is reverted: the question is recorded, and nothing is left. -/
theorem answer_reverted : ∃ session',
    revert untracked false answered ⟨js "msg_2", none⟩ = some session' ∧
      ((cleanup session').messages.toList =
          left ⟨js "msg_2", none⟩ answered.messages.toList ↔
        WholeMessage answered ⟨js "msg_2", none⟩) := by
  refine ⟨_, rfl, reverted_iff untracked false answered _ ⟨js "msg_2", none⟩ ?_ rfl⟩
  refine ⟨_, List.mem_cons_of_mem _ List.mem_cons_self, rfl, ?_⟩
  rintro partID ⟨⟩

/-- **The call of the tool is reverted**: the text before it in its message is asked to stay, and
the whole message is removed. -/
theorem tool_not_reverted : ∃ session',
    Existing ⟨js "msg_2", some (js "prt_3")⟩ answered.messages.toList ∧
    revert untracked false answered ⟨js "msg_2", some (js "prt_3")⟩ = some session' ∧
      (cleanup session').messages.toList ≠
        left ⟨js "msg_2", some (js "prt_3")⟩ answered.messages.toList := by
  refine ⟨_, ⟨_, List.mem_cons_of_mem _ List.mem_cons_self, rfl, ?_⟩, rfl, by decide⟩
  rintro partID ⟨⟩
  decide

end OpenCms.SessionRevert
