import OpenCms.GlobalSync.PartEvents
import OpenCms.Lib.Runs
import Mathlib.Algebra.Group.Nat.Defs

/-!
# A text that is streamed

The text of a part grows by one piece after the other. The client is told of it by the pieces, each
with the length that the text has then, and by snapshots of the whole; a piece may come again, and
a snapshot may tell what is known already. `OpenCms.GlobalSync.shown_iff` says when the text that
is stored is the longest one that was told: a snapshot must not be older than what is stored, since
it replaces it, and a piece that a snapshot has told already must not be longer than the length
that is remembered, since a snapshot leaves no trace there.
-/

namespace OpenCms.GlobalSync

/-! ### The texts of a part -/

structure Growth where
  initial : JsString
  deltas : List JsString
  nonempty : ∀ delta ∈ deltas, delta ≠ []

namespace Growth

variable (g : Growth) {k l : ℕ}

def text (k : ℕ) : JsString := g.initial ++ (g.deltas.take k).flatten

def delta (k : ℕ) : JsString := g.deltas[k]?.getD []

theorem text_succ (h : k < g.deltas.length) : g.text (k + 1) = g.text k ++ g.delta k := by
  rw [text, text, delta, List.take_succ_eq_append_getElem h, List.flatten_append,
    List.flatten_singleton, List.getElem?_eq_getElem h, Option.getD_some, List.append_assoc]

theorem delta_ne_nil (h : k < g.deltas.length) : g.delta k ≠ [] := by
  rw [delta, List.getElem?_eq_getElem h, Option.getD_some]
  exact g.nonempty _ (List.getElem_mem h)

theorem length_text_succ (h : k < g.deltas.length) :
    (g.text (k + 1)).length = (g.text k).length + (g.delta k).length := by
  rw [g.text_succ h, List.length_append]

theorem length_text_mono (h : k ≤ l) : (g.text k).length ≤ (g.text l).length := by
  induction l, h using Nat.le_induction with
  | base => exact le_rfl
  | succ l _ ih =>
    rcases Nat.lt_or_ge l g.deltas.length with hlt | hge
    · rw [g.length_text_succ hlt]
      omega
    · have heq : g.text (l + 1) = g.text l := by
        rw [text, text, List.take_of_length_le hge, List.take_of_length_le (by omega)]
      rw [heq]
      exact ih

/-- **The text gets longer with each piece.** -/
theorem length_text_lt (h : k < l) (hl : l ≤ g.deltas.length) :
    (g.text k).length < (g.text l).length := by
  have hsucc := g.length_text_succ (k := k) (by omega)
  have hpos := List.length_pos_of_ne_nil (g.delta_ne_nil (k := k) (by omega))
  have hmono := g.length_text_mono (k := k + 1) (l := l) h
  omega

theorem length_text_le_iff (hk : k ≤ g.deltas.length) :
    (g.text k).length ≤ (g.text l).length ↔ k ≤ l := by
  constructor
  · intro h
    by_contra hlt
    exact absurd (g.length_text_lt (not_le.mp hlt) hk) (not_lt.mpr h)
  · exact g.length_text_mono

end Growth

/-! ### The cap on a text that grows -/

section Cap

variable {cfg : Tweaks} {text delta : JsString}

def cut (cfg : Tweaks) (length : ℕ) : ℕ :=
  if cfg.lazyload then length - cfg.tail_window_kb * 1024 * 16 else 0

theorem truncatedPrefix_eq (text : JsString) (cfg : Tweaks) :
    (applyStreamingOomCap text cfg).truncatedPrefix = cut cfg text.length := by
  rw [applyStreamingOomCap, cut]
  cases cfg.lazyload with
  | false => rfl
  | true =>
    dsimp only
    rw [if_neg (by decide), if_pos rfl]
    split
    · dsimp only
      omega
    · rfl

theorem windowed_text (text : JsString) (cfg : Tweaks) :
    (applyStreamingOomCap text cfg).text = text.drop (cut cfg text.length) := by
  rw [applyStreamingOomCap_eq, truncatedPrefix_eq]

theorem cut_le (cfg : Tweaks) (length : ℕ) : cut cfg length ≤ length := by
  rw [cut]
  split <;> omega

theorem cut_mono {length length' : ℕ} (h : length ≤ length') :
    cut cfg length ≤ cut cfg length' := by
  rw [cut, cut]
  split <;> omega

/-- **A piece put to the rest of a text**: as much is cut in all as is cut of the whole. -/
theorem cut_add (cfg : Tweaks) (length more : ℕ) :
    cut cfg length + cut cfg (length - cut cfg length + more) = cut cfg (length + more) := by
  rw [cut, cut, cut]
  split <;> omega

theorem windowed_append (text delta : JsString) (cfg : Tweaks) :
    (applyStreamingOomCap ((applyStreamingOomCap text cfg).text ++ delta) cfg).text =
      (applyStreamingOomCap (text ++ delta) cfg).text := by
  have hle := cut_le cfg text.length
  have hadd := cut_add cfg text.length delta.length
  rw [windowed_text, windowed_text, windowed_text, List.length_append, List.length_append,
    List.length_drop, ← List.drop_append_of_le_length hle, List.drop_drop, hadd]

end Cap

theorem lt_of_append {existing incoming : JsString}
    (h : classifyNonDeltaUpdate existing incoming = .append) :
    existing.length < incoming.length := by
  rw [classifyNonDeltaUpdate] at h
  split at h
  next => cases h
  next hlt => exact not_le.mp hlt

theorem Growth.snapshot_iff (g : Growth) {cfg : Tweaks} {longest k : ℕ}
    (hlongest : longest ≤ g.deltas.length) :
    (some (applyStreamingOomCap (g.text k) cfg).text =
          some (applyStreamingOomCap (g.text (max longest k)) cfg).text ∧
        (if cut cfg (g.text k).length > 0 then cut cfg (g.text k).length
          else if classifyNonDeltaUpdate (applyStreamingOomCap (g.text longest) cfg).text
              (g.text k) = .append then cut cfg (g.text longest).length
          else 0) = cut cfg (g.text (max longest k)).length) ↔
      (g.text longest).length ≤ (g.text k).length := by
  rcases le_or_gt (g.text longest).length (g.text k).length with hle | hlt
  · have hmono : cut cfg (g.text longest).length ≤ cut cfg (g.text k).length :=
      cut_mono hle
    rw [max_eq_right ((g.length_text_le_iff hlongest).mp hle)]
    refine iff_of_true ⟨rfl, ?_⟩ hle
    split
    next => rfl
    next => split <;> omega
  · have hk : k < longest := not_le.mp fun h => absurd hlt (g.length_text_mono h).not_gt
    rw [max_eq_left hk.le]
    refine iff_of_false ?_ (not_le.mpr hlt)
    rintro ⟨htext, hcut⟩
    have hlength := congrArg List.length (Option.some.inj htext)
    rw [windowed_text, windowed_text, List.length_drop, List.length_drop] at hlength
    have hle' := cut_le cfg (g.text k).length
    split at hcut
    next => omega
    next =>
      split at hcut
      next happend =>
        have hlonger := lt_of_append happend
        rw [windowed_text, List.length_drop] at hlonger
        omega
      next => omega

theorem Growth.delta_iff (g : Growth) {cfg : Tweaks} {longest k : ℕ} (hk : k < g.deltas.length)
    (hle : k ≤ longest) :
    (some (applyStreamingOomCap ((applyStreamingOomCap (g.text longest) cfg).text ++ g.delta k)
            cfg).text =
          some (applyStreamingOomCap (g.text (max longest (k + 1))) cfg).text ∧
        cut cfg (g.text longest).length +
            cut cfg ((applyStreamingOomCap (g.text longest) cfg).text ++ g.delta k).length =
          cut cfg (g.text (max longest (k + 1))).length) ↔
      ¬(g.text (k + 1)).length ≤ (g.text longest).length := by
  have hcut := cut_le cfg (g.text longest).length
  rw [windowed_append]
  rw [windowed_text (g.text longest), List.length_append, List.length_drop, cut_add]
  rcases Nat.lt_or_ge k longest with hlt | hge
  · rw [max_eq_left hlt]
    refine iff_of_false ?_ (not_not.mpr (g.length_text_mono hlt))
    rintro ⟨htext, hcut'⟩
    have hlength := congrArg List.length (Option.some.inj htext)
    rw [windowed_text, windowed_text, List.length_drop, List.length_drop, List.length_append,
      hcut'] at hlength
    have hpos := List.length_pos_of_ne_nil (g.delta_ne_nil hk)
    omega
  · obtain rfl : k = longest := le_antisymm hle hge
    rw [max_eq_right (Nat.le_succ k), g.text_succ hk]
    refine iff_of_true ⟨rfl, by rw [List.length_append]⟩ ?_
    have hpos := List.length_pos_of_ne_nil (g.delta_ne_nil hk)
    rw [List.length_append]
    omega

/-! ### The delivery of a text -/

variable {ι V : Type*}

structure Streamed (ι : Type*) where
  messageID : ι
  id : ι
  reasoning : Bool
  growth : Growth

/-- What else an event tells of the part. -/
structure Extra (V : Type*) where
  metadata : Option (JsString → Option V)
  rest : V

inductive Telling (V : Type*)
  /-- The whole text after so many pieces. -/
  | snapshot (k : ℕ) (extra : Extra V)
  /-- The piece after so many. -/
  | delta (k : ℕ) (extra : Extra V)

def Streamed.event (p : Streamed ι) : Telling V → PartUpdate ι V
  | .snapshot k extra =>
    ⟨⟨p.id, p.messageID, .text p.reasoning (some (p.growth.text k)), none, extra.metadata,
      extra.rest⟩, none, none⟩
  | .delta k extra =>
    ⟨⟨p.id, p.messageID, .text p.reasoning none, none, extra.metadata, extra.rest⟩,
      some (p.growth.delta k), some (p.growth.text (k + 1)).length⟩

section Event

variable {p : Streamed ι} {extra : Extra V} {k : ℕ}

theorem hasDelta_snapshot : ¬((p.event (.snapshot k extra)).hasDelta ∧
    (p.event (.snapshot k extra)).part.isText) :=
  fun h => absurd h.1 (by rintro ⟨⟩)

theorem hasDelta_delta (h : k < p.growth.deltas.length) :
    (p.event (.delta k extra)).hasDelta ∧ (p.event (.delta k extra)).part.isText :=
  ⟨bne_iff_ne.mpr (p.growth.delta_ne_nil h), rfl⟩

end Event

/-- **The text is shown as it should be**: the whole of it up to the cap, and else its end, and it
is counted what is cut. -/
def Shown (cfg : Tweaks) (text : JsString) (part : Part ι V) : Prop :=
  ∃ stored, part.text = some stored ∧ stored <:+ text ∧
    part.truncatedPrefix.getD 0 + stored.length = text.length ∧
    stored.length =
      if cfg.lazyload then min text.length (cfg.tail_window_kb * 1024 * 16) else text.length

section Shown

variable {cfg : Tweaks} {text : JsString} {part : Part ι V}

theorem shown_iff_cap :
    Shown cfg text part ↔
      part.text = some (applyStreamingOomCap text cfg).text ∧
        part.truncatedPrefix.getD 0 = cut cfg text.length := by
  have hlength : text.length - cut cfg text.length =
      if cfg.lazyload then min text.length (cfg.tail_window_kb * 1024 * 16) else text.length := by
    rw [cut]
    split <;> omega
  have hle := cut_le cfg text.length
  rw [Shown, windowed_text, ← hlength]
  constructor
  · rintro ⟨stored, hstored, ⟨front, rfl⟩, hsum, hlen⟩
    rw [List.length_append] at hsum hlen hle ⊢
    have hfront : front.length = cut cfg (front.length + stored.length) := by omega
    rw [hstored, ← hfront, List.drop_left]
    exact ⟨rfl, by omega⟩
  · rintro ⟨hstored, hcut⟩
    refine ⟨_, hstored, List.drop_suffix _ _, ?_, List.length_drop⟩
    rw [hcut, List.length_drop]
    omega

end Shown

variable [LinearOrder ι]

/-- The client, and what has been told: how long the longest text is, and how many pieces have
come. -/
structure Told (ι V : Type*) where
  client : Client ι V
  longest : ℕ
  arrived : ℕ

def tell (cfg : Tweaks) (p : Streamed ι) (s : Told ι V) (e : Telling V) : Told ι V where
  client := partUpdated cfg (p.event e) s.client
  longest :=
    match e with
    | .snapshot k _ => max s.longest k
    | .delta k _ => max s.longest (k + 1)
  arrived :=
    match e with
    | .snapshot .. => s.arrived
    | .delta k _ => max s.arrived (k + 1)

/-- A delivery starts with the whole text as it is at first. -/
def firstTold (cfg : Tweaks) (p : Streamed ι) (w : Client ι V) (extra : Extra V) : Told ι V :=
  ⟨partUpdated cfg (p.event (.snapshot 0 extra)) w, 0, 0⟩

/-- The pieces come for the first time in their order. A snapshot may come at any time. -/
def InOrder (p : Streamed ι) (s : Told ι V) : Telling V → Prop
  | .snapshot k _ => k ≤ p.growth.deltas.length
  | .delta k _ => k < p.growth.deltas.length ∧ k ≤ s.arrived

def Streamed.stored (p : Streamed ι) (w : Client ι V) : Option (Part ι V) :=
  (w.store.part p.messageID).bind fun parts => parts.find? fun part => part.id = p.id

def Told.Right (cfg : Tweaks) (p : Streamed ι) (s : Told ι V) : Prop :=
  ∃ part, p.stored s.client = some part ∧ Shown cfg (p.growth.text s.longest) part

def Streamed.applied (p : Streamed ι) (w : Client ι V) : ℕ :=
  (w.appliedTextLength (p.messageID, p.id)).getD
    (((p.stored w).bind Part.text).getD []).length

/-- **When an event goes well**: a snapshot is not older than what was told, and a piece of what
was told is known to be applied. -/
def GoesWell (p : Streamed ι) (s : Told ι V) : Telling V → Prop
  | .snapshot k _ => (p.growth.text s.longest).length ≤ (p.growth.text k).length
  | .delta k _ =>
    (p.growth.text (k + 1)).length ≤ (p.growth.text s.longest).length →
      (p.growth.text (k + 1)).length ≤ p.applied s.client

/-! ### One event -/

instance InOrder.instDecidable (p : Streamed ι) (s : Told ι V) :
    (e : Telling V) → Decidable (InOrder p s e)
  | .snapshot k _ => inferInstanceAs (Decidable (k ≤ p.growth.deltas.length))
  | .delta k _ => inferInstanceAs (Decidable (k < p.growth.deltas.length ∧ k ≤ s.arrived))

instance GoesWell.instDecidable (p : Streamed ι) (s : Told ι V) :
    (e : Telling V) → Decidable (GoesWell p s e)
  | .snapshot k _ =>
    inferInstanceAs (Decidable ((p.growth.text s.longest).length ≤ (p.growth.text k).length))
  | .delta k _ =>
    inferInstanceAs (Decidable ((p.growth.text (k + 1)).length ≤ (p.growth.text s.longest).length →
      (p.growth.text (k + 1)).length ≤ p.applied s.client))

section Event

variable {cfg : Tweaks} {p : Streamed ι} {w : Client ι V} {part : Part ι V} {text : JsString}
  {before after : List (Part ι V)} {k : ℕ} {extra : Extra V}

section Stored

variable (hparts : w.store.part p.messageID = some (before ++ part :: after))
  (hsorted : Binary.Sorted Part.id (before ++ part :: after)) (hid : part.id = p.id)

include hparts hsorted hid

theorem stored_eq : p.stored w = some part := by
  rw [Streamed.stored, hparts, Option.bind_some, ← hid]
  exact Binary.find?_split hsorted

theorem applied_eq (k : ℕ) (extra : Extra V) (htext : part.text = some text) :
    p.applied w = w.applied (p.event (.delta k extra)).part text := by
  rw [Streamed.applied, stored_eq hparts hsorted hid, Option.bind_some, htext]
  rfl

theorem partUpdated_snapshot (cfg : Tweaks) (k : ℕ) (extra : Extra V)
    (htext : part.text = some text) :
    ∃ new : Part ι V, partUpdated cfg (p.event (.snapshot k extra)) w =
        w.setParts p.messageID (before ++ new :: after) ∧ new.id = p.id ∧
      new.text = some (applyStreamingOomCap (p.growth.text k) cfg).text ∧
      new.truncatedPrefix.getD 0 =
        if cut cfg (p.growth.text k).length > 0 then cut cfg (p.growth.text k).length
        else if classifyNonDeltaUpdate text (p.growth.text k) = .append then
          part.truncatedPrefix.getD 0
        else 0 := by
  have hpartText : (p.event (.snapshot k extra : Telling V)).part.text = some (p.growth.text k) :=
    rfl
  cases hdecision : classifyNonDeltaUpdate text (p.growth.text k) with
  | append =>
    refine ⟨_, partUpdated_of_append hparts hsorted hid hasDelta_snapshot htext hpartText hdecision,
      ?_, appendRebuild_text (Part.isText_of_text htext), ?_⟩
    · rw [appendRebuild_id, hid]
    · rw [appendRebuild]
      simp only [truncatedPrefix_eq, if_true]
      split <;> rfl
  | replace =>
    refine ⟨capped cfg (p.event (.snapshot k extra)).part, ?_, capped_id,
      capped_text hpartText, ?_⟩
    · refine partUpdated_of_split hparts hsorted hid hasDelta_snapshot
        fun partText text' ht ht' => ?_
      obtain rfl := Option.some.inj (hpartText.symm.trans ht)
      obtain rfl := Option.some.inj (htext.symm.trans ht')
      exact hdecision
    · rw [capped_truncatedPrefix hpartText, truncatedPrefix_eq]
      split <;> rfl

theorem partUpdated_delta_known (cfg : Tweaks) (extra : Extra V)
    (hk : k < p.growth.deltas.length) (htext : part.text = some text)
    (hle : (p.growth.text (k + 1)).length ≤ p.applied w) :
    partUpdated cfg (p.event (.delta k extra)) w = w := by
  rw [applied_eq hparts hsorted hid k extra htext] at hle
  exact partUpdated_of_applied hparts hsorted hid (hasDelta_delta hk) htext rfl hle

theorem partUpdated_delta_new (cfg : Tweaks) (extra : Extra V)
    (hk : k < p.growth.deltas.length) (htext : part.text = some text)
    (hnew : p.applied w < (p.growth.text (k + 1)).length) :
    ∃ new : Part ι V, partUpdated cfg (p.event (.delta k extra)) w =
        { w.setParts p.messageID (before ++ new :: after) with
          appliedTextLength :=
            Function.update w.appliedTextLength (p.messageID, p.id)
              (some (p.growth.text (k + 1)).length) } ∧ new.id = p.id ∧
      new.text = some (applyStreamingOomCap (text ++ p.growth.delta k) cfg).text ∧
      new.truncatedPrefix.getD 0 =
        part.truncatedPrefix.getD 0 + cut cfg (text ++ p.growth.delta k).length := by
  rw [applied_eq hparts hsorted hid k extra htext] at hnew
  refine ⟨_, partUpdated_of_delta hparts hsorted hid (hasDelta_delta hk) htext
    fun textLength hlength hle => ?_, ?_, appendDelta_text (Part.isText_of_text htext), ?_⟩
  · obtain rfl := Option.some.inj hlength
    exact absurd hle (not_le.mpr hnew)
  · rw [appendDelta_id, hid]
  · exact appendDelta_truncatedPrefix.trans (congrArg _ (truncatedPrefix_eq _ cfg))

end Stored

end Event

/-! ### Deliveries -/

section Deliveries

variable {cfg : Tweaks} {p : Streamed ι} {s : Told ι V} {e : Telling V}

/-- What does not depend on how the events go: the part is in its list with a text, and the length
that is remembered is that of a piece that has come. -/
structure Underway (p : Streamed ι) (s : Told ι V) : Prop where
  stored : ∃ before part after text,
    s.client.store.part p.messageID = some (before ++ part :: after) ∧
      Binary.Sorted Part.id (before ++ part :: after) ∧ part.id = p.id ∧ part.text = some text
  arrived : s.arrived ≤ s.longest
  longest : s.longest ≤ p.growth.deltas.length
  applied : ∀ n, s.client.appliedTextLength (p.messageID, p.id) = some n →
    n ≤ (p.growth.text s.arrived).length

theorem Underway.tell (h : Underway p s) (horder : InOrder p s e) :
    Underway p (tell cfg p s e) := by
  obtain ⟨⟨before, part, after, text, hparts, hsorted, hid, htext⟩, harrived, hlongest,
    happlied⟩ := h
  cases e with
  | snapshot k extra =>
    obtain ⟨new, hupdated, hnewid, hnewtext, -⟩ :=
      partUpdated_snapshot hparts hsorted hid cfg k extra htext
    refine ⟨⟨before, new, after, _, ?_, sorted_replace hsorted (hnewid.trans hid.symm), hnewid,
      hnewtext⟩, harrived.trans (le_max_left _ _), max_le hlongest horder, ?_⟩
    · change (partUpdated cfg (p.event (.snapshot k extra)) s.client).store.part p.messageID = _
      rw [hupdated, setParts_part_self]
    · change ∀ n, (partUpdated cfg (p.event (.snapshot k extra)) s.client).appliedTextLength
        (p.messageID, p.id) = some n → _
      rw [hupdated, setParts_appliedTextLength]
      exact happlied
  | delta k extra =>
    have hlongest' : max s.longest (k + 1) ≤ p.growth.deltas.length := max_le hlongest horder.1
    have harrived' : max s.arrived (k + 1) ≤ max s.longest (k + 1) := by omega
    rcases le_or_gt (p.growth.text (k + 1)).length (p.applied s.client) with hle | hnew
    · have hknown := partUpdated_delta_known hparts hsorted hid cfg extra horder.1 htext hle
      refine ⟨⟨before, part, after, text, ?_, hsorted, hid, htext⟩, harrived', hlongest', ?_⟩
      · change (partUpdated cfg (p.event (.delta k extra)) s.client).store.part p.messageID = _
        rw [hknown, hparts]
      · change ∀ n, (partUpdated cfg (p.event (.delta k extra)) s.client).appliedTextLength
          (p.messageID, p.id) = some n → _
        rw [hknown]
        exact fun n hn => (happlied n hn).trans (p.growth.length_text_mono (le_max_left _ _))
    · obtain ⟨new, hupdated, hnewid, hnewtext, -⟩ :=
        partUpdated_delta_new hparts hsorted hid cfg extra horder.1 htext hnew
      refine ⟨⟨before, new, after, _, ?_, sorted_replace hsorted (hnewid.trans hid.symm), hnewid,
        hnewtext⟩, harrived', hlongest', ?_⟩
      · change (partUpdated cfg (p.event (.delta k extra)) s.client).store.part p.messageID = _
        rw [hupdated]
        exact setParts_part_self
      · change ∀ n, (partUpdated cfg (p.event (.delta k extra)) s.client).appliedTextLength
          (p.messageID, p.id) = some n → _
        rw [hupdated]
        intro n hn
        replace hn := (Function.update_self (f := s.client.appliedTextLength) ..).symm.trans hn
        obtain rfl := Option.some.inj hn
        exact p.growth.length_text_mono (le_max_right _ _)

theorem right_iff {before after : List (Part ι V)} {part : Part ι V}
    (hparts : s.client.store.part p.messageID = some (before ++ part :: after))
    (hsorted : Binary.Sorted Part.id (before ++ part :: after)) (hid : part.id = p.id) :
    s.Right cfg p ↔
      part.text = some (applyStreamingOomCap (p.growth.text s.longest) cfg).text ∧
        part.truncatedPrefix.getD 0 = cut cfg (p.growth.text s.longest).length := by
  rw [Told.Right, stored_eq hparts hsorted hid]
  constructor
  · rintro ⟨part', hpart, hshown⟩
    obtain rfl := Option.some.inj hpart
    exact shown_iff_cap.mp hshown
  · exact fun h => ⟨part, rfl, shown_iff_cap.mpr h⟩

/-- **An event goes well exactly if it meets the condition**, where what was shown is right. -/
theorem right_tell_iff (h : Underway p s) (hright : s.Right cfg p) (horder : InOrder p s e) :
    (tell cfg p s e).Right cfg p ↔ GoesWell p s e := by
  obtain ⟨⟨before, part, after, text, hparts, hsorted, hid, htext⟩, harrived, hlongest,
    happlied⟩ := h
  obtain ⟨hshown, hcut⟩ := (right_iff hparts hsorted hid).mp hright
  obtain rfl := Option.some.inj (htext.symm.trans hshown)
  cases e with
  | snapshot k extra =>
    obtain ⟨new, hupdated, hnewid, hnewtext, hnewcut⟩ :=
      partUpdated_snapshot hparts hsorted hid cfg k extra htext
    have hparts' : (tell cfg p s (.snapshot k extra)).client.store.part p.messageID =
        some (before ++ new :: after) := by
      change (partUpdated cfg (p.event (.snapshot k extra)) s.client).store.part p.messageID = _
      rw [hupdated, setParts_part_self]
    rw [right_iff hparts' (sorted_replace hsorted (hnewid.trans hid.symm)) hnewid, hnewtext,
      hnewcut, hcut]
    exact p.growth.snapshot_iff hlongest
  | delta k extra =>
    have happlied' : p.applied s.client ≤ (p.growth.text s.longest).length := by
      rw [applied_eq hparts hsorted hid k extra htext, Client.applied]
      cases hmap : s.client.appliedTextLength
          ((p.event (.delta k extra)).part.messageID, (p.event (.delta k extra)).part.id) with
      | none =>
        rw [Option.getD_none, windowed_text, List.length_drop]
        exact Nat.sub_le _ _
      | some n => exact (happlied n hmap).trans (p.growth.length_text_mono harrived)
    rcases le_or_gt (p.growth.text (k + 1)).length (p.applied s.client) with hle | hnew
    · have hknown := partUpdated_delta_known hparts hsorted hid cfg extra horder.1 htext hle
      have hparts' : (tell cfg p s (.delta k extra)).client.store.part p.messageID =
          some (before ++ part :: after) := by
        change (partUpdated cfg (p.event (.delta k extra)) s.client).store.part p.messageID = _
        rw [hknown, hparts]
      have hcovered : k + 1 ≤ s.longest :=
        (p.growth.length_text_le_iff horder.1).mp (hle.trans happlied')
      rw [right_iff hparts' hsorted hid]
      refine iff_of_true ?_ fun _ => hle
      change _ = some (applyStreamingOomCap (p.growth.text (max s.longest (k + 1))) cfg).text ∧
        _ = cut cfg (p.growth.text (max s.longest (k + 1))).length
      rw [max_eq_left hcovered]
      exact ⟨htext, hcut⟩
    · obtain ⟨new, hupdated, hnewid, hnewtext, hnewcut⟩ :=
        partUpdated_delta_new hparts hsorted hid cfg extra horder.1 htext hnew
      have hparts' : (tell cfg p s (.delta k extra)).client.store.part p.messageID =
          some (before ++ new :: after) := by
        change (partUpdated cfg (p.event (.delta k extra)) s.client).store.part p.messageID = _
        rw [hupdated]
        exact setParts_part_self
      rw [right_iff hparts' (sorted_replace hsorted (hnewid.trans hid.symm)) hnewid, hnewtext,
        hnewcut, hcut]
      refine (p.growth.delta_iff horder.1 (horder.2.trans harrived)).trans ?_
      exact ⟨fun h hle => absurd hle h, fun h hle => absurd (h hle) (not_le.mpr hnew)⟩

/-- Nothing is known of the part, and the parts of its message are sorted. -/
structure Unknown (p : Streamed ι) (w : Client ι V) : Prop where
  sorted : ∀ parts, w.store.part p.messageID = some parts → Binary.Sorted Part.id parts
  part : ∀ parts, w.store.part p.messageID = some parts → ∀ part ∈ parts, part.id ≠ p.id
  applied : w.appliedTextLength (p.messageID, p.id) = none

theorem Unknown.first {w : Client ι V} (h : Unknown p w) (cfg : Tweaks) (extra : Extra V) :
    ∃ parts, partUpdated cfg (p.event (.snapshot 0 extra)) w = w.setParts p.messageID parts ∧
      Binary.Sorted Part.id parts ∧ capped cfg (p.event (.snapshot 0 extra)).part ∈ parts := by
  have hpartText : (p.event (.snapshot 0 extra : Telling V)).part.text = some (p.growth.text 0) :=
    rfl
  cases hparts : w.store.part p.messageID with
  | none =>
    exact ⟨_, partUpdated_of_none hparts, List.pairwise_singleton _ _, List.mem_cons_self⟩
  | some parts =>
    refine ⟨_, partUpdated_of_replace hparts hasDelta_snapshot
      fun partText index existing text _ hfind => ?_,
      sorted_receive (h.sorted parts hparts) (fits_of_text hpartText)⟩
    obtain ⟨before, after, rfl, -, hid, -⟩ := findText_eq_some (h.sorted parts hparts) hfind
    exact absurd hid (h.part _ hparts existing (List.mem_append_right _ List.mem_cons_self))

theorem Unknown.firstTold {w : Client ι V} (h : Unknown p w) (cfg : Tweaks) (extra : Extra V) :
    Underway p (firstTold cfg p w extra) ∧ (firstTold cfg p w extra).Right cfg p := by
  have hpartText : (p.event (.snapshot 0 extra : Telling V)).part.text = some (p.growth.text 0) :=
    rfl
  obtain ⟨parts, hupdated, hsorted, hmem⟩ := h.first cfg extra
  obtain ⟨before, after, rfl⟩ := List.append_of_mem hmem
  have hparts : (GlobalSync.firstTold cfg p w extra).client.store.part p.messageID =
      some (before ++ capped cfg (p.event (.snapshot 0 extra)).part :: after) := by
    change (partUpdated cfg (p.event (.snapshot 0 extra)) w).store.part p.messageID = _
    rw [hupdated, setParts_part_self]
  refine ⟨⟨⟨_, _, _, _, hparts, hsorted, capped_id, capped_text hpartText⟩, le_rfl,
    Nat.zero_le _, fun n hn => ?_⟩, (right_iff hparts hsorted capped_id).mpr
    ⟨capped_text hpartText, ?_⟩⟩
  · change (partUpdated cfg (p.event (.snapshot 0 extra)) w).appliedTextLength
      (p.messageID, p.id) = some n at hn
    rw [hupdated, setParts_appliedTextLength, h.applied] at hn
    cases hn
  · rw [capped_truncatedPrefix hpartText, truncatedPrefix_eq]
    change _ = cut cfg (p.growth.text 0).length
    split
    next => rfl
    next hzero =>
      change 0 = _
      omega

/-- **The longest text that was told is shown after each event exactly if each event goes well.** -/
theorem shown_iff (cfg : Tweaks) (p : Streamed ι) (w : Client ι V) (hunknown : Unknown p w)
    (extra : Extra V) (events : List (Telling V))
    (horder : Meets (GlobalSync.tell cfg p) (InOrder p) (firstTold cfg p w extra) events) :
    (∀ past, past <+: events →
        (run (GlobalSync.tell cfg p) (firstTold cfg p w extra) past).Right cfg p) ↔
      Meets (GlobalSync.tell cfg p) (GoesWell p) (firstTold cfg p w extra) events := by
  obtain ⟨hunderway, hright⟩ := hunknown.firstTold cfg extra
  exact horder.throughout_iff_meets (Underway p) (Told.Right cfg p) hunderway hright
    (fun _ _ h ho => h.tell ho) fun _ _ h hr ho => right_tell_iff h hr ho

end Deliveries

/-! ### A text that a snapshot is ahead of -/

def exampleStreamed : Streamed String where
  messageID := "msg_a"
  id := "prt_a"
  reasoning := false
  growth :=
    { initial := js ""
      deltas := [js "a", js "b"]
      nonempty := by decide }

def exampleExtra : Extra Unit := ⟨none, ()⟩

theorem unknown_empty : Unknown exampleStreamed (Client.empty 10 : Client String Unit) where
  sorted _ h := by cases h
  part _ h := by cases h
  applied := rfl

/-- The pieces come in their order, one of them twice, and then the whole text. -/
theorem shown_pieces :
    Unknown exampleStreamed (Client.empty 10 : Client String Unit) ∧
      ∀ past, past <+: [Telling.delta 0 exampleExtra, .delta 1 exampleExtra,
          .delta 0 exampleExtra, .snapshot 2 exampleExtra] →
        (run (tell ⟨true, 64⟩ exampleStreamed)
          (firstTold ⟨true, 64⟩ exampleStreamed (Client.empty 10) exampleExtra) past).Right
            ⟨true, 64⟩ exampleStreamed := by
  refine ⟨unknown_empty, (shown_iff ⟨true, 64⟩ exampleStreamed (Client.empty 10) unknown_empty
    exampleExtra _ ?_).mpr ?_⟩
  · decide
  · decide

/-- **After the first piece the whole text comes, and then the second piece, which is put to it once
more.** -/
theorem not_shown_ahead :
    ¬∀ past, past <+: [Telling.delta 0 exampleExtra, .snapshot 2 exampleExtra,
        .delta 1 exampleExtra] →
      (run (tell ⟨true, 64⟩ exampleStreamed)
        (firstTold ⟨true, 64⟩ exampleStreamed (Client.empty 10) exampleExtra) past).Right ⟨true, 64⟩
          exampleStreamed := by
  intro h
  obtain ⟨part, hstored, text, htext, -, hsum, -⟩ := h _ (List.prefix_refl _)
  have habb : (exampleStreamed.stored (run (tell ⟨true, 64⟩ exampleStreamed)
      (firstTold ⟨true, 64⟩ exampleStreamed (Client.empty 10) exampleExtra)
      [Telling.delta 0 exampleExtra, .snapshot 2 exampleExtra,
        .delta 1 exampleExtra]).client).bind Part.text = some (js "abb") := by
    decide
  rw [hstored, Option.bind_some, htext] at habb
  obtain rfl := Option.some.inj habb
  change _ + 3 = 2 at hsum
  omega

end OpenCms.GlobalSync
