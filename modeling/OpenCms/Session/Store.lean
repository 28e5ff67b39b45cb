import OpenCms.Session.Row
import OpenCms.Lib.Table
import Mathlib.Data.List.Sort
import Mathlib.Data.String.Basic
import Mathlib.Algebra.Order.Ring.Unbundled.Rat

/-!
# The tables of a session

A session is kept in two tables: its messages, and the parts of its messages. A part has a number,
by which the parts of a message are ordered; it gets the next one when it is inserted and keeps it
when it is written again.

What this is for is a book: the messages that are there, each with its parts in the order in which
they came. After any calls that leave no part without its message, the tables show the book, up to
what a row cannot hold (`OpenCms.SqliteStore.shows_iff`).
-/

namespace OpenCms.SqliteStore

open JsValue

/-- `MessageV2.Part`: the members that the store looks at, and all of them. -/
structure Part where
  id : String
  messageID : String
  type : String
  members : Record

structure PartRow where
  id : String
  message_id : String
  sequence : ℕ
  type : String
  payload_json : Text

def encodePart (part : Part) (sequence : ℕ) : PartRow where
  id := part.id
  message_id := part.messageID
  sequence := sequence
  type := part.type
  payload_json := stringifyMembers part.members

def decodePart (row : PartRow) : Record := ofJsonMembers row.payload_json

structure Tables where
  messages : List MessageRow
  parts : List PartRow

def Tables.empty : Tables := ⟨[], []⟩

def Info.id : Info → String
  | .user info => info.id
  | .assistant info => info.id

def Info.timeCreated : Info → ℚ
  | .user info => info.timeCreated
  | .assistant info => info.timeCreated

/-! ### Calls -/

inductive Call
  | upsertMessage (info : Info)
  | upsertPart (part : Part)
  | removeMessage (messageID : String)
  | removePart (messageID partID : String)

/-- The order of `SQL_LIST_MESSAGES`. -/
def NewerOrSame (row row' : MessageRow) : Prop :=
  row'.time_created < row.time_created ∨
    row'.time_created = row.time_created ∧ row'.id ≤ row.id

instance : DecidableRel NewerOrSame := fun row row' =>
  inferInstanceAs (Decidable (row'.time_created < row.time_created ∨
    row'.time_created = row.time_created ∧ row'.id ≤ row.id))

namespace Tables

variable (t : Tables)

def rowsOf (messageID : String) : List PartRow := t.parts.filter fun row => row.message_id = messageID

def nextSequence (messageID : String) : ℕ :=
  (t.rowsOf messageID).foldr (fun row next => max (row.sequence + 1) next) 0

/-- `SQL_INSERT_PART`: the number and the message of a part that is there are kept. -/
def insertPart (row : PartRow) : List PartRow :=
  if row.id ∈ t.parts.map PartRow.id then
    Table.update PartRow.id row.id
      (fun r => { r with type := row.type, payload_json := row.payload_json }) t.parts
  else t.parts ++ [row]

def apply : Call → Option Tables
  | .upsertMessage info =>
    some { t with messages := Table.upsert MessageRow.id (encodeMessageInfo info) t.messages }
  | .upsertPart part =>
    let existing := Table.lookup PartRow.id t.parts part.id
    let sequence := existing.elim (t.nextSequence part.messageID) PartRow.sequence
    if existing.isSome ∨ part.messageID ∈ t.messages.map MessageRow.id then
      some { t with parts := t.insertPart (encodePart part sequence) }
    else none
  | .removeMessage messageID =>
    -- the parts go with their message
    some
      { messages := Table.erase MessageRow.id messageID t.messages
        parts := t.parts.filter fun row => row.message_id ≠ messageID }
  | .removePart _ partID => some { t with parts := Table.erase PartRow.id partID t.parts }

def applyAll (t : Tables) (calls : List Call) : Option Tables := calls.foldlM apply t

def listMessages : List MessageRow := t.messages.insertionSort NewerOrSame

def listParts (messageID : String) : List PartRow :=
  (t.rowsOf messageID).insertionSort fun row row' =>
    row.sequence < row'.sequence ∨ row.sequence = row'.sequence ∧ row.id ≤ row'.id

def stream (sessionID : String) : List (Info × List Record) :=
  t.listMessages.map fun row =>
    (decodeMessageInfo row sessionID, (t.listParts row.id).map decodePart)

end Tables

/-! ### The book of a session -/

structure Entry where
  info : Info
  parts : List Part

/-- What a session holds under each identifier. -/
abbrev Book : Type := String → Option Entry

namespace Book

variable (book : Book)

/-- What a call does to a book: a part that is there is replaced in its place, and a new one comes
last. -/
def apply : Call → Option Book
  | .upsertMessage info =>
    some (Function.update book info.id
      (some ⟨info, (book info.id).elim [] Entry.parts⟩))
  | .upsertPart part =>
    (book part.messageID).map fun entry =>
      Function.update book part.messageID
        (some { entry with parts := Table.upsert Part.id part entry.parts })
  | .removeMessage messageID => some (Function.update book messageID none)
  | .removePart messageID partID =>
    some (Function.update book messageID
      ((book messageID).map fun entry =>
        { entry with parts := Table.erase Part.id partID entry.parts }))

def applyAll (book : Book) (calls : List Call) : Option Book := calls.foldlM apply book

/-- What a session shows of its book: each message once, the newest first, with its latest info
and its parts in their order. -/
structure Shows (out : List (Info × List Record)) : Prop where
  once : (out.map fun w => w.1.id).Nodup
  live : ∀ id, id ∈ out.map (fun w => w.1.id) ↔ (book id).isSome
  newest : out.Pairwise fun w w' => w'.1.timeCreated < w.1.timeCreated ∨
    w'.1.timeCreated = w.1.timeCreated ∧ w'.1.id < w.1.id
  info : ∀ w ∈ out, ∀ entry ∈ book w.1.id, w.1.Same entry.info
  parts : ∀ w ∈ out, ∀ entry ∈ book w.1.id,
    w.2.map keptMembers = entry.parts.map fun part => keptMembers part.members

/-- Every message and every part is one that a row can hold. -/
def Storable : Prop :=
  ∀ id, ∀ entry ∈ book id,
    entry.info.Storable ∧ ∀ part ∈ entry.parts, isPlainMembers part.members

end Book

def Call.messageID : Call → String
  | .upsertMessage info => info.id
  | .upsertPart part => part.messageID
  | .removeMessage messageID => messageID
  | .removePart messageID _ => messageID

def Call.Belongs (sessionID : String) (owner : String → String) : Call → Prop
  | .upsertMessage info => info.sessionID = sessionID
  | .upsertPart part => owner part.id = part.messageID
  | .removeMessage _ => True
  | .removePart messageID partID => owner partID = messageID

/-! ### The parts of a message -/

def PartRow.shown (row : PartRow) : String × Text := (row.id, row.payload_json)

def Part.shown (part : Part) : String × Text := (part.id, stringifyMembers part.members)

section Rows

variable {t : Tables} {owner : String → String} {row : PartRow} {m p : String} (rows : List PartRow)

theorem ids_shown : (rows.map PartRow.shown).map Prod.fst = rows.map PartRow.id := List.map_map

theorem mem_rowsOf : row ∈ t.rowsOf m ↔ row ∈ t.parts ∧ row.message_id = m := by
  rw [Tables.rowsOf, List.mem_filter, decide_eq_true_eq]

theorem mem_ids_rowsOf (howned : ∀ row ∈ t.parts, owner row.id = row.message_id) :
    p ∈ (t.rowsOf m).map PartRow.id ↔ p ∈ t.parts.map PartRow.id ∧ owner p = m := by
  simp only [List.mem_map, mem_rowsOf]
  constructor
  · rintro ⟨row, ⟨hmem, rfl⟩, rfl⟩
    exact ⟨⟨row, hmem, rfl⟩, howned row hmem⟩
  · rintro ⟨⟨row, hmem, rfl⟩, hown⟩
    exact ⟨row, ⟨hmem, (howned row hmem).symm.trans hown⟩, rfl⟩

theorem lt_nextSequence (h : row ∈ t.rowsOf m) : row.sequence < t.nextSequence m := by
  rw [Tables.nextSequence]
  generalize t.rowsOf m = rows at h
  induction rows with
  | nil => cases h
  | cons r rows ih =>
    rcases List.mem_cons.mp h with rfl | h
    · exact lt_max_of_lt_left (Nat.lt_succ_self _)
    · exact lt_max_of_lt_right (ih h)

theorem rowsOf_insertPart_of_mem (h : row.id ∈ t.parts.map PartRow.id) :
    { t with parts := t.insertPart row }.rowsOf m =
      Table.update PartRow.id row.id
        (fun r => { r with type := row.type, payload_json := row.payload_json }) (t.rowsOf m) := by
  rw [Tables.rowsOf, Tables.insertPart, if_pos h, Tables.rowsOf, Table.update, Table.update,
    List.filter_map]
  refine congrArg _ (List.filter_congr fun r _ => ?_)
  rw [Function.comp_apply]
  split <;> rfl

theorem rowsOf_insertPart_of_notMem (h : row.id ∉ t.parts.map PartRow.id) :
    { t with parts := t.insertPart row }.rowsOf m =
      t.rowsOf m ++ if row.message_id = m then [row] else [] := by
  rw [Tables.rowsOf, Tables.insertPart, if_neg h, List.filter_append, List.filter_singleton,
    Tables.rowsOf]
  simp

theorem shown_update :
    (Table.update PartRow.id row.id
        (fun r => { r with type := row.type, payload_json := row.payload_json }) rows).map
      PartRow.shown =
      Table.update Prod.fst row.id (fun _ => row.shown) (rows.map PartRow.shown) := by
  rw [Table.update, Table.update, List.map_map, List.map_map]
  refine List.map_congr_left fun r _ => ?_
  rw [Function.comp_apply, Function.comp_apply]
  by_cases h : r.id = row.id
  · rw [if_pos h, if_pos (show (PartRow.shown r).1 = row.id from h)]
    exact congrArg (·, row.payload_json) h
  · rw [if_neg h, if_neg (show ¬(PartRow.shown r).1 = row.id from h)]

/-- **Inserting a part changes the parts of its message as it changes the book, and no others.** -/
theorem shown_insertPart (howned : ∀ row ∈ t.parts, owner row.id = row.message_id)
    (hrow : owner row.id = row.message_id) :
    ({ t with parts := t.insertPart row }.rowsOf m).map PartRow.shown =
      if m = row.message_id then
        Table.upsert Prod.fst row.shown ((t.rowsOf m).map PartRow.shown)
      else (t.rowsOf m).map PartRow.shown := by
  by_cases hmem : row.id ∈ t.parts.map PartRow.id
  · rw [rowsOf_insertPart_of_mem hmem, shown_update]
    split
    next hm =>
      have hthere : row.shown.1 ∈ ((t.rowsOf m).map PartRow.shown).map Prod.fst := by
        rw [ids_shown]
        exact (mem_ids_rowsOf howned).mpr ⟨hmem, hrow.trans hm.symm⟩
      rw [Table.upsert, if_pos hthere]
      rfl
    next hm =>
      refine Table.update_of_notMem ?_
      rw [ids_shown, mem_ids_rowsOf howned]
      exact fun h => hm (h.2.symm.trans hrow)
  · rw [rowsOf_insertPart_of_notMem hmem, List.map_append]
    by_cases hm : m = row.message_id
    · have hnew : row.shown.1 ∉ ((t.rowsOf m).map PartRow.shown).map Prod.fst := by
        rw [ids_shown, mem_ids_rowsOf howned]
        exact fun h => hmem h.1
      rw [if_pos hm, if_pos hm.symm, Table.upsert, if_neg hnew, List.map_singleton]
    · rw [if_neg hm, if_neg (Ne.symm hm), List.map_nil, List.append_nil]

theorem rowsOf_erase : { t with parts := Table.erase PartRow.id p t.parts }.rowsOf m =
    Table.erase PartRow.id p (t.rowsOf m) := by
  rw [Tables.rowsOf, Table.erase, List.filter_comm]
  rfl

theorem shown_erase :
    (Table.erase PartRow.id p rows).map PartRow.shown =
      Table.erase Prod.fst p (rows.map PartRow.shown) := by
  rw [Table.erase, Table.erase, List.filter_map]
  rfl

theorem rowsOf_removeMessage (messages : List MessageRow) (messageID : String) :
    (Tables.mk messages (t.parts.filter fun row => row.message_id ≠ messageID)).rowsOf m =
      if m = messageID then [] else t.rowsOf m := by
  rw [Tables.rowsOf, List.filter_filter]
  split
  next h =>
    refine List.filter_eq_nil_iff.mpr fun row _ => ?_
    simp [h]
  next h =>
    refine List.filter_congr fun row _ => ?_
    by_cases hrow : row.message_id = m
    · simp [hrow, h]
    · simp [hrow]

end Rows

/-! ### Tables and books -/

structure Stores (sessionID : String) (owner : String → String) (t : Tables) (book : Book) :
    Prop where
  ids : (t.messages.map MessageRow.id).Nodup
  message : ∀ id, Table.lookup MessageRow.id t.messages id =
    (book id).map fun entry => encodeMessageInfo entry.info
  named : ∀ id, ∀ entry ∈ book id, entry.info.id = id ∧ entry.info.sessionID = sessionID
  owned : ∀ row ∈ t.parts, owner row.id = row.message_id
  ordered : ∀ m, ((t.rowsOf m).map PartRow.sequence).Pairwise (· < ·)
  parts : ∀ m, (t.rowsOf m).map PartRow.shown =
    ((book m).elim [] Entry.parts).map Part.shown

variable {entry : Entry}

section Steps

variable {sessionID : String} {owner : String → String} {t t' : Tables} {book : Book}

theorem stores_empty : Stores sessionID owner Tables.empty fun _ => none where
  ids := List.nodup_nil
  message _ := rfl
  named _ _ h := by cases h
  owned _ h := by cases h
  ordered _ := List.Pairwise.nil
  parts _ := rfl

theorem id_encodeMessageInfo (info : Info) : (encodeMessageInfo info).id = info.id := by
  cases info <;> rfl

theorem Stores.mem_ids (h : Stores sessionID owner t book) (id : String) :
    id ∈ t.messages.map MessageRow.id ↔ (book id).isSome := by
  rw [← Table.isSome_lookup, h.message, Option.isSome_map]

theorem Stores.upsertMessage (h : Stores sessionID owner t book) {info : Info}
    (hsession : info.sessionID = sessionID) :
    Stores sessionID owner
      { t with messages := Table.upsert MessageRow.id (encodeMessageInfo info) t.messages }
      (Function.update book info.id
        (some ⟨info, (book info.id).elim [] Entry.parts⟩)) where
  ids := Table.nodup_upsert h.ids
  message id := by
    rw [Table.lookup_upsert, id_encodeMessageInfo, h.message]
    rcases eq_or_ne id info.id with rfl | hid
    · rw [if_pos rfl, Function.update_self, Option.map_some]
    · rw [if_neg hid, Function.update_of_ne hid]
  named id entry hentry := by
    rcases eq_or_ne id info.id with rfl | hid
    · rw [Function.update_self] at hentry
      obtain rfl := Option.some.inj hentry
      exact ⟨rfl, hsession⟩
    · rw [Function.update_of_ne hid] at hentry
      exact h.named id entry hentry
  owned := h.owned
  ordered := h.ordered
  parts m := by
    rcases eq_or_ne m info.id with rfl | hm
    · rw [Function.update_self]
      exact h.parts _
    · rw [Function.update_of_ne hm]
      exact h.parts m

theorem Stores.named_update (h : Stores sessionID owner t book) {m : String} (f : Entry → Entry)
    (hf : ∀ entry, (f entry).info = entry.info) (id : String) :
    ∀ entry ∈ Function.update book m ((book m).map f) id,
      entry.info.id = id ∧ entry.info.sessionID = sessionID := by
  intro entry hentry
  rcases eq_or_ne id m with rfl | hid
  · rw [Function.update_self] at hentry
    obtain ⟨entry', hentry', rfl⟩ := Option.map_eq_some_iff.mp hentry
    rw [hf]
    exact h.named id entry' hentry'
  · rw [Function.update_of_ne hid] at hentry
    exact h.named id entry hentry

theorem Stores.message_update (h : Stores sessionID owner t book) {m : String} (f : Entry → Entry)
    (hf : ∀ entry, (f entry).info = entry.info) (id : String) :
    Table.lookup MessageRow.id t.messages id =
      (Function.update book m ((book m).map f) id).map fun entry =>
        encodeMessageInfo entry.info := by
  rcases eq_or_ne id m with rfl | hid
  · rw [Function.update_self, Option.map_map, h.message]
    exact Option.map_congr fun entry _ => by rw [Function.comp_apply, hf]
  · rw [Function.update_of_ne hid, h.message]

theorem Stores.removePart (h : Stores sessionID owner t book) {m p : String} (hp : owner p = m) :
    Stores sessionID owner { t with parts := Table.erase PartRow.id p t.parts }
      (Function.update book m
        ((book m).map fun entry => { entry with parts := Table.erase Part.id p entry.parts })) where
  ids := h.ids
  message := h.message_update _ fun _ => rfl
  named := h.named_update _ fun _ => rfl
  owned row hrow := h.owned row (List.mem_filter.mp hrow).1
  ordered m' := by
    rw [rowsOf_erase]
    exact (h.ordered m').sublist (List.filter_sublist.map _)
  parts m' := by
    rw [rowsOf_erase, shown_erase, h.parts]
    rcases eq_or_ne m' m with rfl | hm
    · rw [Function.update_self]
      rcases book m' with _ | entry
      · rfl
      · rw [Table.erase, List.filter_map]
        rfl
    · rw [Function.update_of_ne hm, ← h.parts]
      refine List.filter_eq_self.mpr fun row hrow => ?_
      have hmem : row.1 ∈ (t.rowsOf m').map PartRow.id := by
        rw [← ids_shown]
        exact List.mem_map_of_mem hrow
      have howner := ((mem_ids_rowsOf h.owned).mp hmem).2
      simp only [ne_eq, decide_not, Bool.not_eq_true', decide_eq_false_iff_not]
      rintro rfl
      exact hm (howner.symm.trans hp)

theorem Stores.removeMessage (h : Stores sessionID owner t book) (messageID : String) :
    Stores sessionID owner
      { messages := Table.erase MessageRow.id messageID t.messages
        parts := t.parts.filter fun row => row.message_id ≠ messageID }
      (Function.update book messageID none) where
  ids := Table.nodup_erase h.ids
  message id := by
    rw [Table.lookup_erase, h.message]
    rcases eq_or_ne id messageID with rfl | hid
    · rw [if_pos rfl, Function.update_self, Option.map_none]
    · rw [if_neg hid, Function.update_of_ne hid]
  named id entry hentry := by
    rcases eq_or_ne id messageID with rfl | hid
    · rw [Function.update_self] at hentry
      cases hentry
    · rw [Function.update_of_ne hid] at hentry
      exact h.named id entry hentry
  owned row hrow := h.owned row (List.mem_filter.mp hrow).1
  ordered m := by
    rw [rowsOf_removeMessage]
    split
    next => exact List.Pairwise.nil
    next => exact h.ordered m
  parts m := by
    rw [rowsOf_removeMessage]
    rcases eq_or_ne m messageID with rfl | hm
    · rw [if_pos rfl, Function.update_self]
      rfl
    · rw [if_neg hm, Function.update_of_ne hm, h.parts]

theorem Stores.isSome_of_upsertPart (h : Stores sessionID owner t book) {part : Part}
    (hpart : owner part.id = part.messageID)
    (hkey : (Table.lookup PartRow.id t.parts part.id).isSome ∨
      part.messageID ∈ t.messages.map MessageRow.id) : (book part.messageID).isSome := by
  rcases hkey with hthere | hmessage
  · have hmem : part.id ∈ (t.rowsOf part.messageID).map PartRow.id :=
      (mem_ids_rowsOf h.owned).mpr ⟨Table.isSome_lookup.mp hthere, hpart⟩
    rw [← ids_shown, h.parts] at hmem
    rcases hbook : book part.messageID with _ | entry
    · rw [hbook] at hmem
      cases hmem
    · rfl
  · exact (h.mem_ids _).mp hmessage

theorem Stores.ordered_insertPart (h : Stores sessionID owner t book) {row : PartRow}
    (hnext : row.id ∉ t.parts.map PartRow.id → row.sequence = t.nextSequence row.message_id)
    (m : String) :
    (({ t with parts := t.insertPart row }.rowsOf m).map PartRow.sequence).Pairwise (· < ·) := by
  by_cases hmem : row.id ∈ t.parts.map PartRow.id
  · rw [rowsOf_insertPart_of_mem hmem, Table.update, List.map_map]
    have hsame : ∀ r ∈ t.rowsOf m, (PartRow.sequence ∘ fun r : PartRow => if r.id = row.id then
        { r with type := row.type, payload_json := row.payload_json } else r) r = r.sequence := by
      intro r _
      rw [Function.comp_apply]
      split <;> rfl
    rw [List.map_congr_left hsame]
    exact h.ordered m
  · rw [rowsOf_insertPart_of_notMem hmem]
    split
    next hm =>
      obtain rfl := hm
      rw [List.map_append, List.pairwise_append]
      refine ⟨h.ordered _, List.pairwise_singleton _ _, fun n hn n' hn' => ?_⟩
      obtain ⟨r, hr, rfl⟩ := List.mem_map.mp hn
      obtain rfl := List.mem_singleton.mp hn'
      rw [hnext hmem]
      exact lt_nextSequence hr
    next =>
      rw [List.append_nil]
      exact h.ordered m

theorem Stores.insertPart (h : Stores sessionID owner t book) {part : Part} {sequence : ℕ}
    (hpart : owner part.id = part.messageID)
    (hnext : part.id ∉ t.parts.map PartRow.id → sequence = t.nextSequence part.messageID)
    (hentry : book part.messageID = some entry) :
    Stores sessionID owner { t with parts := t.insertPart (encodePart part sequence) }
      (Function.update book part.messageID
        (some { entry with parts := Table.upsert Part.id part entry.parts })) := by
  have hupdate : some { entry with parts := Table.upsert Part.id part entry.parts } =
      (book part.messageID).map fun entry =>
        { entry with parts := Table.upsert Part.id part entry.parts } := by
    rw [hentry, Option.map_some]
  refine
    { ids := h.ids
      message := ?_
      named := ?_
      owned := ?_
      ordered := h.ordered_insertPart hnext
      parts := fun m => ?_ }
  · rw [hupdate]
    exact h.message_update _ fun _ => rfl
  · rw [hupdate]
    exact h.named_update _ fun _ => rfl
  · intro row hrow
    rw [Tables.insertPart] at hrow
    split at hrow
    next =>
      obtain ⟨r, hr, rfl⟩ := List.mem_map.mp hrow
      split
      · exact h.owned r hr
      · exact h.owned r hr
    next =>
      rcases List.mem_append.mp hrow with hrow | hrow
      · exact h.owned row hrow
      · obtain rfl := List.mem_singleton.mp hrow
        exact hpart
  · have hmessage : (encodePart part sequence).message_id = part.messageID := rfl
    have hmap : (Table.upsert Part.id part entry.parts).map Part.shown =
        Table.upsert Prod.fst part.shown (entry.parts.map Part.shown) :=
      Table.map_upsert fun _ => rfl
    rw [shown_insertPart h.owned hpart, hmessage]
    rcases eq_or_ne m part.messageID with rfl | hm
    · rw [if_pos rfl, Function.update_self, h.parts, hentry]
      exact hmap.symm
    · rw [if_neg hm, Function.update_of_ne hm, h.parts]

/-- **A call changes the book as it changes the tables.** -/
theorem Stores.apply (h : Stores sessionID owner t book) {call : Call}
    (hcall : call.Belongs sessionID owner) (happly : t.apply call = some t') :
    ∃ book', book.apply call = some book' ∧ Stores sessionID owner t' book' := by
  rcases call with info | part | messageID | ⟨messageID, partID⟩
  · obtain rfl := Option.some.inj happly
    exact ⟨_, rfl, h.upsertMessage hcall⟩
  · rw [Tables.apply] at happly
    split at happly
    next hkey =>
      obtain rfl := Option.some.inj happly
      obtain ⟨entry, hentry⟩ := Option.isSome_iff_exists.mp (h.isSome_of_upsertPart hcall hkey)
      refine ⟨_, by rw [Book.apply, hentry, Option.map_some], h.insertPart hcall ?_ hentry⟩
      intro hnew
      rw [Table.lookup_eq_none.mpr hnew]
      rfl
    next => cases happly
  · obtain rfl := Option.some.inj happly
    exact ⟨_, rfl, h.removeMessage messageID⟩
  · obtain rfl := Option.some.inj happly
    exact ⟨_, rfl, h.removePart hcall⟩

/-- **So do any calls, one after another.** -/
theorem Stores.applyAll (h : Stores sessionID owner t book) {calls : List Call}
    (hcalls : ∀ call ∈ calls, call.Belongs sessionID owner) (hrun : t.applyAll calls = some t') :
    ∃ book', book.applyAll calls = some book' ∧ Stores sessionID owner t' book' := by
  induction calls generalizing t book with
  | nil =>
    obtain rfl := Option.some.inj hrun
    exact ⟨book, rfl, h⟩
  | cons call calls ih =>
    obtain ⟨hcall, hcalls⟩ := List.forall_mem_cons.mp hcalls
    obtain ⟨t₁, hstep, hrun⟩ := Option.bind_eq_some_iff.mp hrun
    obtain ⟨book₁, hbook, hstores⟩ := h.apply hcall hstep
    obtain ⟨book', hrest, hstores'⟩ := ih hstores hcalls hrun
    exact ⟨book', Option.bind_eq_some_iff.mpr ⟨book₁, hbook, hrest⟩, hstores'⟩

theorem Stores.rowsOf_apply (h : Stores sessionID owner t book) {call : Call}
    (hcall : call.Belongs sessionID owner) (happly : t.apply call = some t') {m : String}
    (hm : m ≠ call.messageID) : t'.rowsOf m = t.rowsOf m := by
  rcases call with info | part | messageID | ⟨messageID, partID⟩
  · obtain rfl := Option.some.inj happly
    rfl
  · rw [Tables.apply] at happly
    split at happly
    next =>
      obtain rfl := Option.some.inj happly
      by_cases hmem : part.id ∈ t.parts.map PartRow.id
      · rw [rowsOf_insertPart_of_mem hmem]
        refine Table.update_of_notMem ?_
        rw [mem_ids_rowsOf h.owned]
        exact fun hown => hm (hown.2.symm.trans hcall)
      · rw [rowsOf_insertPart_of_notMem hmem]
        exact (congrArg _ (if_neg (Ne.symm hm))).trans (List.append_nil _)
    next => cases happly
  · obtain rfl := Option.some.inj happly
    exact (rowsOf_removeMessage _ messageID).trans (if_neg hm)
  · obtain rfl := Option.some.inj happly
    rw [rowsOf_erase]
    refine List.filter_eq_self.mpr fun row hrow => ?_
    have howner := ((mem_ids_rowsOf h.owned).mp (List.mem_map_of_mem hrow)).2
    rw [decide_eq_true_eq]
    rintro rfl
    exact hm (howner.symm.trans hcall)

end Steps

/-! ### What is shown -/

section Stream

variable {sessionID : String} {owner : String → String} {t : Tables} {book : Book}

theorem id_decodeMessageInfo (row : MessageRow) : (decodeMessageInfo row sessionID).id = row.id := by
  rw [decodeMessageInfo]
  split <;> rfl

theorem timeCreated_decodeMessageInfo (row : MessageRow) :
    (decodeMessageInfo row sessionID).timeCreated = row.time_created := by
  rw [decodeMessageInfo]
  split <;> rfl

theorem Stores.listParts_eq (h : Stores sessionID owner t book) (m : String) :
    t.listParts m = t.rowsOf m := by
  refine List.Pairwise.insertionSort_eq ?_
  exact (List.pairwise_map.mp (h.ordered m)).imp fun hlt => Or.inl hlt

theorem mem_listMessages {row : MessageRow} : row ∈ t.listMessages ↔ row ∈ t.messages :=
  (List.perm_insertionSort _ _).mem_iff

theorem ids_stream : (t.stream sessionID).map (fun w => w.1.id) =
    t.listMessages.map MessageRow.id := by
  rw [Tables.stream, List.map_map]
  exact List.map_congr_left fun row _ => id_decodeMessageInfo row

theorem Stores.nodup_listMessages (h : Stores sessionID owner t book) :
    (t.listMessages.map MessageRow.id).Nodup :=
  (((List.perm_insertionSort _ _).map _).nodup_iff).mpr h.ids

instance : Std.Total NewerOrSame where
  total row row' := by
    rcases lt_trichotomy row.time_created row'.time_created with h | h | h
    · exact Or.inr (Or.inl h)
    · exact (le_total row'.id row.id).imp (fun hle => Or.inr ⟨h.symm, hle⟩)
        fun hle => Or.inr ⟨h, hle⟩
    · exact Or.inl (Or.inl h)

instance : IsTrans MessageRow NewerOrSame where
  trans row row' row'' := by
    rintro (h | ⟨h, hid⟩) (h' | ⟨h', hid'⟩)
    · exact Or.inl (h'.trans h)
    · exact Or.inl (h'.trans_lt h)
    · exact Or.inl (h'.trans_eq h)
    · exact Or.inr ⟨h'.trans h, hid'.trans hid⟩

theorem Stores.newest (h : Stores sessionID owner t book) :
    (t.stream sessionID).Pairwise fun w w' => w'.1.timeCreated < w.1.timeCreated ∨
      w'.1.timeCreated = w.1.timeCreated ∧ w'.1.id < w.1.id := by
  have hsorted : t.listMessages.Pairwise NewerOrSame := List.pairwise_insertionSort NewerOrSame _
  have hne : t.listMessages.Pairwise fun row row' => row.id ≠ row'.id :=
    List.pairwise_map.mp h.nodup_listMessages
  rw [Tables.stream, List.pairwise_map]
  refine (hsorted.and hne).imp ?_
  rintro row row' ⟨hle, hid⟩
  simp only [timeCreated_decodeMessageInfo, id_decodeMessageInfo]
  exact hle.imp_right fun heq => ⟨heq.1, heq.2.lt_of_ne hid.symm⟩

def Entry.held (entry : Entry) : Info × List Record :=
  (decodeMessageInfo (encodeMessageInfo entry.info) entry.info.sessionID,
    entry.parts.map fun part => ofJsonMembers (stringifyMembers part.members))

theorem Stores.decode_rowsOf (h : Stores sessionID owner t book) {id : String}
    (hentry : book id = some entry) :
    (t.rowsOf id).map decodePart =
      entry.parts.map fun part => ofJsonMembers (stringifyMembers part.members) := by
  have hshown := congrArg (List.map fun shown : String × Text => ofJsonMembers shown.2) (h.parts id)
  rw [hentry, List.map_map, List.map_map] at hshown
  exact hshown

/-- **What is shown of a message is what its rows hold of it.** -/
theorem Stores.mem_stream (h : Stores sessionID owner t book) {w : Info × List Record} :
    w ∈ t.stream sessionID ↔ ∃ id, ∃ entry ∈ book id, w = entry.held := by
  rw [Tables.stream, List.mem_map]
  constructor
  · rintro ⟨row, hrow, rfl⟩
    have hlookup := (Table.lookup_eq_some_iff h.ids).mpr ⟨mem_listMessages.mp hrow, rfl⟩
    rw [h.message] at hlookup
    obtain ⟨entry, hentry, hencode⟩ := Option.map_eq_some_iff.mp hlookup
    refine ⟨row.id, entry, hentry, ?_⟩
    rw [Entry.held, hencode, (h.named _ entry hentry).2, h.listParts_eq, h.decode_rowsOf hentry]
  · rintro ⟨id, entry, hentry, rfl⟩
    obtain ⟨hid, hsession⟩ := h.named id entry hentry
    have hlookup : Table.lookup MessageRow.id t.messages id = some (encodeMessageInfo entry.info) :=
      (h.message id).trans (congrArg _ hentry)
    refine ⟨_, mem_listMessages.mpr (Table.mem_of_lookup hlookup), ?_⟩
    rw [Entry.held, hsession, h.listParts_eq, id_encodeMessageInfo, hid, h.decode_rowsOf hentry]

theorem Entry.id_held (entry : Entry) : entry.held.1.id = entry.info.id :=
  (id_decodeMessageInfo _).trans (id_encodeMessageInfo _)

theorem Entry.kept_held :
    entry.held.2.map keptMembers = entry.parts.map (fun part => keptMembers part.members) ↔
      ∀ part ∈ entry.parts, isPlainMembers part.members := by
  rw [Entry.held, List.map_map, List.map_inj_left]
  exact forall₂_congr fun part _ => keptMembers_ofJsonMembers_iff

/-- **The tables show the book that they hold exactly if its messages are such as rows can
hold.** -/
theorem Stores.shows_iff_storable (h : Stores sessionID owner t book) :
    book.Shows (t.stream sessionID) ↔ book.Storable := by
  constructor
  · intro hshows id entry hentry
    have hmem := h.mem_stream.mpr ⟨id, entry, hentry, rfl⟩
    have hbook : book entry.held.1.id = some entry := by
      rw [entry.id_held, (h.named id entry hentry).1]
      exact hentry
    exact ⟨(same_iff _).mp (hshows.info _ hmem entry hbook),
      Entry.kept_held.mp (hshows.parts _ hmem entry hbook)⟩
  · intro hstorable
    have hentry : ∀ w ∈ t.stream sessionID, ∀ entry ∈ book w.1.id,
        w = entry.held ∧ entry.info.Storable ∧ ∀ part ∈ entry.parts, isPlainMembers part.members := by
      intro w hw entry hbook
      obtain ⟨id, entry', hentry', rfl⟩ := h.mem_stream.mp hw
      rw [entry'.id_held, (h.named id entry' hentry').1] at hbook
      obtain rfl := Option.some.inj (hbook.symm.trans hentry')
      exact ⟨rfl, hstorable id entry hentry'⟩
    refine
      { once := ?_
        live := fun id => ?_
        newest := h.newest
        info := fun w hw entry hbook => ?_
        parts := fun w hw entry hbook => ?_ }
    · rw [ids_stream]
      exact h.nodup_listMessages
    · rw [ids_stream, ← h.mem_ids]
      exact ((List.perm_insertionSort _ _).map _).mem_iff
    · obtain ⟨rfl, hinfo, -⟩ := hentry w hw entry hbook
      exact (same_iff _).mpr hinfo
    · obtain ⟨rfl, -, hparts⟩ := hentry w hw entry hbook
      exact Entry.kept_held.mpr hparts

end Stream

/-- **The tables refine the book**: after calls that leave no part without its message, the book is
there, and what is streamed shows it exactly if its messages are such as rows can hold. A call on
one message leaves the parts of every other one as they are. -/
theorem shows_iff {sessionID : String} {owner : String → String} {calls : List Call} {t : Tables}
    (hcalls : ∀ call ∈ calls, call.Belongs sessionID owner)
    (hrun : Tables.empty.applyAll calls = some t) :
    ∃ book, Book.applyAll (fun _ => none) calls = some book ∧
      (book.Shows (t.stream sessionID) ↔ book.Storable) ∧
      ∀ call t', call.Belongs sessionID owner → t.apply call = some t' →
        ∀ m, m ≠ call.messageID → t'.rowsOf m = t.rowsOf m := by
  obtain ⟨book, hbook, hstores⟩ := stores_empty.applyAll hcalls hrun
  exact ⟨book, hbook, hstores.shows_iff_storable, fun call t' hcall happly m hm =>
    hstores.rowsOf_apply hcall happly hm⟩

def asked (id agent : String) : Info := .user ⟨id, "ses_1", 0, agent, none, ⟨[], by simp⟩⟩

def askedText (id messageID : String) : Part := ⟨id, messageID, "text", [("text", .str "Hello")]⟩

/-- Two messages; one is written again, and the other loses its part. -/
def askedTwice : List Call :=
  [.upsertMessage (asked "msg_0" "build"), .upsertPart (askedText "prt_0" "msg_0"),
    .upsertMessage (asked "msg_1" "build"), .upsertPart (askedText "prt_1" "msg_1"),
    .upsertMessage (asked "msg_0" "plan"), .removePart "msg_1" "prt_1"]

theorem shows_askedTwice : ∃ book t, Tables.empty.applyAll askedTwice = some t ∧
    Book.applyAll (fun _ => none) askedTwice = some book ∧ book.Shows (t.stream "ses_1") := by
  have hcalls : ∀ call ∈ askedTwice,
      call.Belongs "ses_1" fun id => if id = "prt_0" then "msg_0" else "msg_1" := by
    simp [askedTwice, Call.Belongs, asked, askedText, Info.sessionID]
  obtain ⟨t, hrun⟩ : ∃ t, Tables.empty.applyAll askedTwice = some t := ⟨_, rfl⟩
  obtain ⟨book, hbook, hshows, -⟩ := shows_iff hcalls hrun
  refine ⟨book, t, hrun, hbook, hshows.mpr fun id entry hentry => ?_⟩
  obtain ⟨final, hfinal, hfirst, hsecond, hrest⟩ : ∃ final : Book,
      Book.applyAll (fun _ => none) askedTwice = some final ∧
        final "msg_0" = some ⟨asked "msg_0" "plan", [askedText "prt_0" "msg_0"]⟩ ∧
        final "msg_1" = some ⟨asked "msg_1" "build", []⟩ ∧
        ∀ id, id ≠ "msg_0" → id ≠ "msg_1" → final id = none := by
    refine ⟨_, rfl, rfl, rfl, fun id hfirst hsecond => ?_⟩
    simp [asked, askedText, Info.id, Function.update_of_ne hfirst, Function.update_of_ne hsecond]
  obtain rfl := Option.some.inj (hfinal.symm.trans hbook)
  rcases eq_or_ne id "msg_0" with rfl | hne
  · obtain rfl := Option.some.inj (hfirst.symm.trans hentry)
    refine ⟨⟨by simp, rfl⟩, fun part hpart => ?_⟩
    rw [List.mem_singleton.mp hpart]
    rfl
  · rcases eq_or_ne id "msg_1" with rfl | hne'
    · obtain rfl := Option.some.inj (hsecond.symm.trans hentry)
      exact ⟨⟨by simp, rfl⟩, fun part hpart => absurd hpart List.not_mem_nil⟩
    · rw [hrest id hne hne'] at hentry
      cases hentry

/-- **A message without a sum of its tokens is not streamed as it was written.** -/
theorem not_shows : ¬∀ (sessionID : String) (owner : String → String) (calls : List Call)
    (t : Tables), (∀ call ∈ calls, call.Belongs sessionID owner) →
    Tables.empty.applyAll calls = some t →
    ∃ book, Book.applyAll (fun _ => none) calls = some book ∧
      book.Shows (t.stream sessionID) := by
  intro h
  have hcalls : ∀ call ∈ [Call.upsertMessage created], call.Belongs "ses_1" id := by
    simp [Call.Belongs, created, Info.sessionID]
  obtain ⟨book, hbook, hshows⟩ := h "ses_1" id [.upsertMessage created] _ hcalls rfl
  obtain ⟨book', hbook', hstores⟩ := stores_empty.applyAll hcalls rfl
  obtain rfl := Option.some.inj (hbook.symm.trans hbook')
  have hstorable := hstores.shows_iff_storable.mp hshows
  obtain rfl : Function.update (fun _ => none) "msg_1" (some ⟨created, []⟩) = book :=
    Option.some.inj hbook
  exact (hstorable "msg_1" _ (Function.update_self _ _ _)).1.2.2.1 rfl

end OpenCms.SqliteStore
