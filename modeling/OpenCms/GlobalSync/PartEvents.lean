import OpenCms.GlobalSync.EventReducer

/-!
# Parts that arrive

What `message.part.updated` does to the list of a message's parts. In a list that is sorted an
entry is found by its identifier, so that each branch of the reducer either changes the entry in
its place or puts one in.
-/

namespace OpenCms.GlobalSync

/-! ### The cap -/

section Cap

variable {text : JsString} {cfg : Tweaks}

theorem applyStreamingOomCap_eq (text : JsString) (cfg : Tweaks) :
    (applyStreamingOomCap text cfg).text =
      text.drop (applyStreamingOomCap text cfg).truncatedPrefix := by
  rw [applyStreamingOomCap]
  split
  · rfl
  · dsimp only
    split
    · rfl
    · rfl

theorem applyStreamingOomCap_of_zero (h : (applyStreamingOomCap text cfg).truncatedPrefix = 0) :
    (applyStreamingOomCap text cfg).text = text := by
  rw [applyStreamingOomCap_eq, h, List.drop_zero]

end Cap

variable {ι V : Type*} {cfg : Tweaks} {part existing : Part ι V} {text delta : JsString}

/-! ### The part that is put in -/

theorem capped_of_none (h : part.text = none) : capped cfg part = part := by
  rw [capped, h]

theorem capped_of_some (h : part.text = some text) :
    capped cfg part =
      { part.setText (applyStreamingOomCap text cfg).text with
        truncatedPrefix :=
          if (applyStreamingOomCap text cfg).truncatedPrefix > 0 then
            some (applyStreamingOomCap text cfg).truncatedPrefix
          else part.truncatedPrefix } := by
  rw [capped, h]
  dsimp only
  split
  next => rfl
  next hzero =>
    rw [applyStreamingOomCap_of_zero (by omega), Part.setText_self h]

@[simp] theorem capped_id : (capped cfg part).id = part.id := by
  cases h : part.text with
  | none => rw [capped_of_none h]
  | some text => rw [capped_of_some h, Part.setText_id]

theorem capped_text (h : part.text = some text) :
    (capped cfg part).text = some (applyStreamingOomCap text cfg).text := by
  rw [capped_of_some h]
  exact Part.setText_text (Part.isText_of_text h)

theorem capped_of_zero (h : part.text = some text)
    (hzero : (applyStreamingOomCap text cfg).truncatedPrefix = 0) : capped cfg part = part := by
  rw [capped_of_some h, hzero, if_neg (Nat.lt_irrefl 0), applyStreamingOomCap_of_zero hzero,
    Part.setText_self h]

theorem capped_truncatedPrefix (h : part.text = some text) :
    (capped cfg part).truncatedPrefix =
      if (applyStreamingOomCap text cfg).truncatedPrefix > 0 then
        some (applyStreamingOomCap text cfg).truncatedPrefix
      else part.truncatedPrefix := by
  rw [capped_of_some h]

@[simp] theorem capped_metadata : (capped cfg part).metadata = part.metadata := by
  cases h : part.text with
  | none => rw [capped_of_none h]
  | some text => rw [capped_of_some h, Part.setText_metadata]

theorem mergeMetadata_self (metadata : Option (JsString → Option V)) :
    mergeMetadata metadata metadata = metadata := by
  cases metadata with
  | none => rfl
  | some m =>
    refine congrArg some (funext fun key => ?_)
    exact Option.or_self

theorem mergeMetadata_merge (existing incoming : Option (JsString → Option V)) :
    mergeMetadata (mergeMetadata existing incoming) incoming = mergeMetadata existing incoming := by
  cases incoming with
  | none => rfl
  | some new =>
    cases existing with
    | none => exact mergeMetadata_self (some new)
    | some old =>
      refine congrArg some (funext fun key => ?_)
      cases h : new key <;> simp [h]

theorem semanticIndex_of_text {parts : List (Part ι V)} (h : part.text = some text) :
    semanticIndex part parts = none := by
  obtain ⟨id, messageID, body, truncatedPrefix, metadata, rest⟩ := part
  cases body with
  | text => rfl
  | file => cases h
  | other => cases h

theorem semanticIndex_capped {parts : List (Part ι V)} :
    semanticIndex (capped cfg part) parts = semanticIndex part parts := by
  cases h : part.text with
  | none => rw [capped_of_none h]
  | some text => rw [semanticIndex_of_text h, semanticIndex_of_text (capped_text h)]

theorem lt_of_semanticIndex {parts : List (Part ι V)} {index : ℕ}
    (h : semanticIndex part parts = some index) : index < parts.length := by
  obtain ⟨id, messageID, body, truncatedPrefix, metadata, rest⟩ := part
  cases body with
  | text => cases h
  | file => exact (List.findIdx?_eq_some_iff_getElem.mp h).1
  | other => cases h

/-! ### A text that is changed in its place -/

theorem appendDelta_text (h : existing.isText = true) :
    (appendDelta cfg existing part text delta).text =
      some (applyStreamingOomCap (part.text.getD (text ++ delta)) cfg).text :=
  Part.setText_text h

theorem appendRebuild_text (h : existing.isText = true) {partText : JsString} :
    (appendRebuild cfg existing part partText).text =
      some (applyStreamingOomCap partText cfg).text :=
  Part.setText_text h

@[simp] theorem appendDelta_id : (appendDelta cfg existing part text delta).id = existing.id :=
  Part.setText_id

@[simp] theorem appendRebuild_id {partText : JsString} :
    (appendRebuild cfg existing part partText).id = existing.id :=
  Part.setText_id

theorem appendDelta_truncatedPrefix :
    (appendDelta cfg existing part text delta).truncatedPrefix.getD 0 =
      existing.truncatedPrefix.getD 0 +
        (applyStreamingOomCap (part.text.getD (text ++ delta)) cfg).truncatedPrefix := by
  simp only [appendDelta]
  split
  next => rfl
  next hzero =>
    split
    next =>
      rw [Option.getD_some]
      omega
    next =>
      rw [Option.getD_none]
      omega

theorem appendDelta_self {partText : JsString} (hpart : part.text = some partText)
    (hzero : (applyStreamingOomCap partText cfg).truncatedPrefix = 0)
    (htext : existing.text = some partText)
    (hmetadata : mergeMetadata existing.metadata part.metadata = existing.metadata) :
    appendDelta cfg existing part text delta = existing := by
  have htruncated : (if existing.truncatedPrefix.getD 0 + 0 > 0 then
      some (existing.truncatedPrefix.getD 0 + 0)
      else if existing.truncatedPrefix.isSome then some 0 else none) =
        existing.truncatedPrefix := by
    cases existing.truncatedPrefix with
    | none => rfl
    | some n => cases n <;> rfl
  simp only [appendDelta, hpart, Option.getD_some, hzero, applyStreamingOomCap_of_zero hzero,
    Part.setText_self htext, htruncated, hmetadata]

theorem appendRebuild_self {partText : JsString}
    (htext : existing.text = some (applyStreamingOomCap partText cfg).text)
    (htruncated : (applyStreamingOomCap partText cfg).truncatedPrefix > 0 →
      existing.truncatedPrefix = some (applyStreamingOomCap partText cfg).truncatedPrefix)
    (hmetadata : mergeMetadata existing.metadata part.metadata = existing.metadata) :
    appendRebuild cfg existing part partText = existing := by
  have htruncated' : (if (applyStreamingOomCap partText cfg).truncatedPrefix > 0 then
      some (applyStreamingOomCap partText cfg).truncatedPrefix
      else existing.truncatedPrefix) = existing.truncatedPrefix := by
    split
    next hcut => exact (htruncated hcut).symm
    next => rfl
  simp only [appendRebuild, Part.setText_self htext, htruncated', hmetadata]

/-! ### Finding a part -/

section Find

variable [LinearOrder ι] {parts before after : List (Part ι V)} {id : ι} {index : ℕ}

theorem findText_of_split (h : Binary.Sorted Part.id (before ++ existing :: after)) :
    findText (before ++ existing :: after) existing.id =
      existing.text.map fun text => (before.length, existing, text) := by
  rw [findText, Binary.search_of_split h]
  change ((before ++ existing :: after)[before.length]?).bind _ = _
  rw [Binary.getElem?_split, Option.bind_some]

theorem findText_eq_some (h : Binary.Sorted Part.id parts)
    (hfind : findText parts id = some (index, existing, text)) :
    ∃ before after, parts = before ++ existing :: after ∧ before.length = index ∧
      existing.id = id ∧ existing.text = some text := by
  rcases Binary.search_cases h id with
    ⟨before, found, after, rfl, hid, -⟩ | ⟨before, after, rfl, -, -, hresult⟩
  · rw [← hid, findText_of_split h] at hfind
    obtain ⟨text', htext, heq⟩ := Option.map_eq_some_iff.mp hfind
    obtain ⟨rfl, rfl, rfl⟩ : before.length = index ∧ found = existing ∧ text' = text := by
      simpa using heq
    exact ⟨before, after, rfl, rfl, hid, htext⟩
  · rw [findText, hresult] at hfind
    cases hfind

/-! ### Putting a part in -/

/-- If the same file is there under another identifier, there is no part between that one and the
place of the new one. -/
def Fits (part : Part ι V) (parts : List (Part ι V)) : Prop :=
  ∀ index, (Binary.search parts part.id Part.id).found = false →
    semanticIndex part parts = some index →
      (Binary.search parts part.id Part.id).index = index ∨
        (Binary.search parts part.id Part.id).index = index + 1

theorem fits_of_text (h : part.text = some text) : Fits part parts := by
  intro index _ hindex
  rw [semanticIndex_of_text h] at hindex
  cases hindex

theorem receive_of_split (h : Binary.Sorted Part.id (before ++ existing :: after))
    (hid : existing.id = part.id) :
    receive cfg part (before ++ existing :: after) = before ++ capped cfg part :: after := by
  simp only [receive, capped_id, ← hid, Binary.search_of_split h, if_pos]
  exact Binary.set_split _

/-- **A part is in the list once it has been put in, and the list stays sorted.** -/
theorem sorted_receive (h : Binary.Sorted Part.id parts) (hfits : Fits part parts) :
    Binary.Sorted Part.id (receive cfg part parts) ∧ capped cfg part ∈ receive cfg part parts := by
  rcases Binary.search_cases h part.id with
    ⟨before, old, after, rfl, hid, hresult⟩ | ⟨before, after, rfl, hlt, hgt, hresult⟩
  · have hsplit := Binary.sorted_split.mp h
    rw [receive_of_split h hid]
    refine ⟨Binary.sorted_split.mpr ⟨hsplit.1, ?_⟩, List.mem_append_right _ List.mem_cons_self⟩
    rw [capped_id, ← hid]
    exact hsplit.2
  · have hreceive : receive cfg part (before ++ after) =
        (semanticIndex part (before ++ after)).elim (before ++ capped cfg part :: after)
          fun index => (before ++ after).set index (capped cfg part) := by
      simp only [receive, capped_id, hresult, Bool.false_eq_true, if_false, semanticIndex_capped,
        Binary.insertIdx_split]
      cases semanticIndex part (before ++ after) <;> rfl
    rw [hreceive]
    cases hindex : semanticIndex part (before ++ after) with
    | none =>
      refine ⟨Binary.sorted_split.mpr ⟨h, ?_⟩, List.mem_append_right _ List.mem_cons_self⟩
      rw [capped_id]
      exact ⟨hlt, hgt⟩
    | some index =>
      have hplace := hfits index (by rw [hresult]) hindex
      rw [hresult] at hplace
      have hlength := lt_of_semanticIndex hindex
      refine ⟨Binary.sorted_set_gap h ?_ ?_ hlength hplace, List.mem_set hlength _⟩
      · rw [capped_id]
        exact hlt
      · rw [capped_id]
        exact hgt

end Find

/-! ### What an update does -/

section Update

variable [LinearOrder ι] {w : Client ι V} {props : PartUpdate ι V}
  {parts before after : List (Part ι V)} {partText : JsString}

@[simp] theorem setParts_part_self {messageID : ι} :
    (w.setParts messageID parts).store.part messageID = some parts :=
  Function.update_self ..

@[simp] theorem setParts_appliedTextLength {messageID : ι} :
    (w.setParts messageID parts).appliedTextLength = w.appliedTextLength := rfl

theorem setParts_self {messageID : ι} (h : w.store.part messageID = some parts) :
    w.setParts messageID parts = w := by
  rw [Client.setParts, ← h, Function.update_eq_self]

theorem partRemoved_store_eq (messageID partID : ι) (store : State ι V) :
    ∃ parts, partRemoved messageID partID store = { store with part := parts } := by
  rw [partRemoved]
  split
  next => exact ⟨store.part, rfl⟩
  next =>
    dsimp only
    split
    next => exact ⟨_, rfl⟩
    next => exact ⟨store.part, rfl⟩

theorem partUpdated_store_eq (cfg : Tweaks) (props : PartUpdate ι V) (w : Client ι V) :
    ∃ parts, (partUpdated cfg props w).store =
      { w.store with part := Function.update w.store.part props.part.messageID parts } := by
  have hself : w.store = { w.store with
      part := Function.update w.store.part props.part.messageID
        (w.store.part props.part.messageID) } := by
    rw [Function.update_eq_self]
  rw [partUpdated]
  split
  next => exact ⟨_, rfl⟩
  next =>
    split
    next =>
      split
      next =>
        split
        next =>
          split
          next => exact ⟨_, hself⟩
          next => exact ⟨_, rfl⟩
        next => exact ⟨_, rfl⟩
      next => exact ⟨_, rfl⟩
    next =>
      split
      next => split <;> exact ⟨_, rfl⟩
      next => exact ⟨_, rfl⟩

theorem partUpdated_of_none (h : w.store.part props.part.messageID = none) :
    partUpdated cfg props w = w.setParts props.part.messageID [capped cfg props.part] := by
  simp only [partUpdated, h]

theorem partUpdated_of_delta_none (hparts : w.store.part props.part.messageID = some parts)
    (hdelta : props.hasDelta ∧ props.part.isText)
    (hfind : findText parts props.part.id = none) :
    partUpdated cfg props w =
      w.setParts props.part.messageID (receive cfg props.reconstructed parts) := by
  simp only [partUpdated, hparts, if_pos hdelta, hfind]

theorem partUpdated_of_replace (hparts : w.store.part props.part.messageID = some parts)
    (hdelta : ¬(props.hasDelta ∧ props.part.isText))
    (hreplace : ∀ partText index existing text, props.part.text = some partText →
      findText parts props.part.id = some (index, existing, text) →
        classifyNonDeltaUpdate text partText = .replace) :
    partUpdated cfg props w = w.setParts props.part.messageID (receive cfg props.part parts) := by
  simp only [partUpdated, hparts, if_neg hdelta]
  cases htext : props.part.text with
  | none => rfl
  | some partText =>
    cases hfind : findText parts props.part.id with
    | none => rfl
    | some found =>
      obtain ⟨index, existing, text⟩ := found
      simp only [hreplace partText index existing text htext hfind]

section Stored

variable (hparts : w.store.part props.part.messageID = some (before ++ existing :: after))
  (hsorted : Binary.Sorted Part.id (before ++ existing :: after))
  (hid : existing.id = props.part.id)

include hparts hsorted hid

theorem partUpdated_of_applied (hdelta : props.hasDelta ∧ props.part.isText)
    (htext : existing.text = some text) {textLength : ℕ}
    (hlength : props.textLength = some textLength)
    (hle : textLength ≤ w.applied props.part text) : partUpdated cfg props w = w := by
  simp only [partUpdated, hparts, if_pos hdelta, ← hid, findText_of_split hsorted, htext,
    Option.map_some, hlength, if_pos hle]

theorem partUpdated_of_delta (hdelta : props.hasDelta ∧ props.part.isText)
    (htext : existing.text = some text)
    (hnew : ∀ textLength, props.textLength = some textLength →
      ¬textLength ≤ w.applied props.part text) :
    partUpdated cfg props w =
      { w.setParts props.part.messageID
          (before ++ appendDelta cfg existing props.part text (props.delta.getD []) :: after) with
        appliedTextLength :=
          if props.textLength.isSome then
            Function.update w.appliedTextLength (props.part.messageID, props.part.id)
              props.textLength
          else w.appliedTextLength } := by
  cases hlength : props.textLength with
  | none =>
    simp only [partUpdated, hparts, if_pos hdelta, ← hid, findText_of_split hsorted, htext,
      Option.map_some, hlength, Binary.set_split]
    rfl
  | some textLength =>
    simp only [partUpdated, hparts, if_pos hdelta, ← hid, findText_of_split hsorted, htext,
      Option.map_some, hlength, if_neg (hnew textLength hlength), Binary.set_split]
    rfl

theorem partUpdated_of_append (hdelta : ¬(props.hasDelta ∧ props.part.isText))
    (htext : existing.text = some text) (hpartText : props.part.text = some partText)
    (happend : classifyNonDeltaUpdate text partText = .append) :
    partUpdated cfg props w =
      w.setParts props.part.messageID
        (before ++ appendRebuild cfg existing props.part partText :: after) := by
  simp only [partUpdated, hparts, if_neg hdelta, ← hid, findText_of_split hsorted, htext,
    Option.map_some, hpartText, happend, Binary.set_split]

theorem partUpdated_of_split (hdelta : ¬(props.hasDelta ∧ props.part.isText))
    (hreplace : ∀ partText text, props.part.text = some partText → existing.text = some text →
        classifyNonDeltaUpdate text partText = .replace) :
    partUpdated cfg props w =
      w.setParts props.part.messageID (before ++ capped cfg props.part :: after) := by
  rw [partUpdated_of_replace hparts hdelta fun partText index found text hpartText hfind => ?_]
  · rw [receive_of_split hsorted hid]
  · rw [← hid, findText_of_split hsorted] at hfind
    obtain ⟨text', htext', heq⟩ := Option.map_eq_some_iff.mp hfind
    obtain rfl : text' = text := congrArg (fun entry => entry.2.2) heq
    exact hreplace partText text' hpartText htext'

theorem partUpdated_of_mem (hdelta : ¬(props.hasDelta ∧ props.part.isText))
    (hexisting : capped cfg props.part = existing)
    (hreplace : ∀ partText text, props.part.text = some partText → existing.text = some text →
        classifyNonDeltaUpdate text partText = .replace) :
    partUpdated cfg props w = w := by
  rw [partUpdated_of_split hparts hsorted hid hdelta hreplace, hexisting, setParts_self hparts]

end Stored

end Update

/-! ### An update that comes again -/

section Settled

variable {w : Client ι V} {props : PartUpdate ι V} {partText : JsString}

/-- The part is stored in a way in which the update leaves it. -/
def Settled (cfg : Tweaks) (w : Client ι V) (props : PartUpdate ι V) (existing : Part ι V) : Prop :=
  if props.hasDelta ∧ props.part.isText then
    ∃ text, existing.text = some text ∧
      ((∃ textLength, props.textLength = some textLength ∧
          textLength ≤ w.applied props.part text) ∨
        appendDelta cfg existing props.part text (props.delta.getD []) = existing)
  else
    (∃ partText text, props.part.text = some partText ∧ existing.text = some text ∧
        classifyNonDeltaUpdate text partText = .append ∧
        appendRebuild cfg existing props.part partText = existing) ∨
      (∀ partText text, props.part.text = some partText → existing.text = some text →
          classifyNonDeltaUpdate text partText = .replace) ∧
        capped cfg props.part = existing

theorem reconstructed_id (props : PartUpdate ι V) : props.reconstructed.id = props.part.id := by
  rw [PartUpdate.reconstructed]
  split
  · rfl
  · exact Part.setText_id

theorem reconstructed_text (hdelta : props.hasDelta ∧ props.part.isText) :
    ∃ text, props.reconstructed.text = some text := by
  rw [PartUpdate.reconstructed]
  split
  next h => exact Option.isSome_iff_exists.mp h
  next => exact ⟨_, Part.setText_text hdelta.2⟩

theorem settled_capped (hdelta : ¬(props.hasDelta ∧ props.part.isText)) :
    Settled cfg w props (capped cfg props.part) := by
  rw [Settled, if_neg hdelta]
  cases hpartText : props.part.text with
  | none => exact Or.inr ⟨fun _ _ h => absurd h (by rintro ⟨⟩), rfl⟩
  | some partText =>
    have htext : (capped cfg props.part).text = some (applyStreamingOomCap partText cfg).text :=
      capped_text hpartText
    cases hdecision : classifyNonDeltaUpdate (applyStreamingOomCap partText cfg).text partText with
    | append =>
      refine Or.inl ⟨partText, _, rfl, htext, hdecision,
        appendRebuild_self htext (fun hcut => ?_) ?_⟩
      · rw [capped_truncatedPrefix hpartText, if_pos hcut]
      · rw [capped_metadata, mergeMetadata_self]
    | replace =>
      refine Or.inr ⟨fun t s ht hs => ?_, rfl⟩
      obtain rfl := Option.some.inj ht
      obtain rfl := Option.some.inj (htext.symm.trans hs)
      exact hdecision

def Whole (cfg : Tweaks) (part : Part ι V) : Prop :=
  ∃ text, part.text = some text ∧ (applyStreamingOomCap text cfg).truncatedPrefix = 0

/-- An event with a piece of a text shows by itself that it has come before: it tells a length that
is covered by what has been applied, or it has the whole text. -/
def Repeatable (cfg : Tweaks) (w : Client ι V) (props : PartUpdate ι V) (stored : JsString) :
    Prop :=
  (∃ textLength, props.textLength = some textLength ∧ textLength ≤ w.applied props.part stored) ∨
    Whole cfg props.part

theorem settled_reconstructed (hdelta : props.hasDelta ∧ props.part.isText)
    (htext : (capped cfg props.reconstructed).text = some text)
    (hrepeatable : Repeatable cfg w props text) :
    Settled cfg w props (capped cfg props.reconstructed) := by
  rw [Settled, if_pos hdelta]
  refine ⟨text, htext, hrepeatable.imp_right fun hwhole => ?_⟩
  obtain ⟨partText, hpartText, hzero⟩ := hwhole
  have hreconstructed : props.reconstructed = props.part := by
    rw [PartUpdate.reconstructed, hpartText, if_pos Option.isSome_some]
  rw [hreconstructed, capped_of_zero hpartText hzero]
  exact appendDelta_self hpartText hzero hpartText (mergeMetadata_self _)

theorem settled_appendDelta (hdelta : props.hasDelta ∧ props.part.isText)
    (htext : existing.text = some text)
    (hrepeatable : ∀ stored, Repeatable cfg w props stored) :
    Settled cfg w props
      (appendDelta cfg existing props.part text (props.delta.getD [])) := by
  have hisText := Part.isText_of_text htext
  rw [Settled, if_pos hdelta]
  refine ⟨_, appendDelta_text hisText, (hrepeatable _).imp_right fun hwhole => ?_⟩
  obtain ⟨partText, hpartText, hzero⟩ := hwhole
  refine appendDelta_self hpartText hzero ?_ (mergeMetadata_merge _ _)
  rw [appendDelta_text hisText, hpartText, Option.getD_some, applyStreamingOomCap_of_zero hzero]

/-- What the snapshot says besides the text is stored already. -/
def Covers (cfg : Tweaks) (existing part : Part ι V) (partText : JsString) : Prop :=
  existing.id = part.id ∧ existing.messageID = part.messageID ∧ existing.rest = part.rest ∧
    (existing.setText partText).body = part.body ∧
    mergeMetadata existing.metadata part.metadata = part.metadata ∧
    ((applyStreamingOomCap partText cfg).truncatedPrefix = 0 →
      existing.truncatedPrefix = part.truncatedPrefix)

theorem appendRebuild_of_covers (hpartText : props.part.text = some partText)
    (hcovers : Covers cfg existing props.part partText) :
    appendRebuild cfg existing props.part partText = capped cfg props.part := by
  obtain ⟨hid, hmessageID, hrest, hbody, hmetadata, htruncated⟩ := hcovers
  rw [capped_of_some hpartText, appendRebuild, hmetadata]
  -- the two have the same text, since a snapshot has one
  obtain ⟨part, delta, textLength⟩ := props
  obtain ⟨id, messageID, body, truncatedPrefix, metadata, rest⟩ := existing
  obtain ⟨id', messageID', body', truncatedPrefix', metadata', rest'⟩ := part
  obtain rfl : id = id' := hid
  obtain rfl : messageID = messageID' := hmessageID
  obtain rfl : rest = rest' := hrest
  cases body with
  | text reasoning old =>
    obtain rfl : PartBody.text reasoning (some partText) = body' := hbody
    rcases Nat.eq_zero_or_pos (applyStreamingOomCap partText cfg).truncatedPrefix with hzero | hcut
    · obtain rfl : truncatedPrefix = truncatedPrefix' := htruncated hzero
      rfl
    · simp only [Part.setText, if_pos hcut]
  | file url mime =>
    obtain rfl : PartBody.file url mime = body' := hbody
    cases hpartText
  | other =>
    obtain rfl : PartBody.other = body' := hbody
    cases hpartText

theorem settled_appendRebuild (hdelta : ¬(props.hasDelta ∧ props.part.isText))
    (htext : existing.text = some text) (hpartText : props.part.text = some partText)
    (hagain : classifyNonDeltaUpdate (applyStreamingOomCap partText cfg).text partText = .append ∨
      Covers cfg existing props.part partText) :
    Settled cfg w props (appendRebuild cfg existing props.part partText) := by
  rcases hagain with happend | hcovers
  · have hisText := Part.isText_of_text htext
    rw [Settled, if_neg hdelta]
    refine Or.inl ⟨partText, _, hpartText, appendRebuild_text hisText, happend, ?_⟩
    refine appendRebuild_self (appendRebuild_text hisText) (fun hcut => if_pos hcut) ?_
    exact mergeMetadata_merge _ _
  · rw [appendRebuild_of_covers hpartText hcovers]
    exact settled_capped hdelta

end Settled

section Again

variable [LinearOrder ι] {w : Client ι V} {props : PartUpdate ι V}
  {parts before after : List (Part ι V)}

theorem store_partUpdated_of_settled
    (hparts : w.store.part props.part.messageID = some (before ++ existing :: after))
    (hsorted : Binary.Sorted Part.id (before ++ existing :: after))
    (hid : existing.id = props.part.id) (hsettled : Settled cfg w props existing) :
    (partUpdated cfg props w).store = w.store := by
  rw [Settled] at hsettled
  split at hsettled
  next hdelta =>
    obtain ⟨text, htext, hagain⟩ := hsettled
    by_cases happlied : ∃ textLength, props.textLength = some textLength ∧
        textLength ≤ w.applied props.part text
    · obtain ⟨textLength, hlength, hle⟩ := happlied
      rw [partUpdated_of_applied hparts hsorted hid hdelta htext hlength hle]
    · rw [partUpdated_of_delta hparts hsorted hid hdelta htext
        fun textLength hlength hle => happlied ⟨textLength, hlength, hle⟩,
        hagain.resolve_left happlied, setParts_self hparts]
  next hdelta =>
    rcases hsettled with ⟨partText, text, hpartText, htext, happend, hagain⟩ | ⟨hreplace, hcapped⟩
    · rw [partUpdated_of_append hparts hsorted hid hdelta htext hpartText happend, hagain,
        setParts_self hparts]
    · rw [partUpdated_of_mem hparts hsorted hid hdelta hcapped hreplace]

/-- **When an event about a part can come twice**: in each branch, what has to be the case so that
the list stays sorted and the same event changes nothing any more. -/
def PartRepeats (cfg : Tweaks) (w : Client ι V) (props : PartUpdate ι V) : Prop :=
  match w.store.part props.part.messageID with
  | none =>
    props.hasDelta ∧ props.part.isText →
      ∃ text, props.part.text = some text ∧
        Repeatable cfg w props (applyStreamingOomCap text cfg).text
  | some parts =>
    if props.hasDelta ∧ props.part.isText then
      match findText parts props.part.id with
      | some _ => props.textLength = none → Whole cfg props.part
      | none =>
        ∀ text, props.reconstructed.text = some text →
          Repeatable cfg w props (applyStreamingOomCap text cfg).text
    else
      Fits props.part parts ∧
        ∀ partText index existing text, props.part.text = some partText →
          findText parts props.part.id = some (index, existing, text) →
            classifyNonDeltaUpdate text partText = .append →
              classifyNonDeltaUpdate (applyStreamingOomCap partText cfg).text partText = .append ∨
                Covers cfg existing props.part partText

/-- The part is in the list of its message, which is sorted, and the event changes nothing any
more. -/
def Arrived (cfg : Tweaks) (w : Client ι V) (props : PartUpdate ι V) : Prop :=
  ∃ before existing after,
    w.store.part props.part.messageID = some (before ++ existing :: after) ∧
      Binary.Sorted Part.id (before ++ existing :: after) ∧ existing.id = props.part.id ∧
      Settled cfg w props existing

theorem arrived_receive {part : Part ι V} (hparts : Binary.Sorted Part.id parts)
    (hid : part.id = props.part.id) (hfits : Fits part parts)
    (hsettled : Settled cfg (w.setParts props.part.messageID (receive cfg part parts)) props
      (capped cfg part)) :
    Arrived cfg (w.setParts props.part.messageID (receive cfg part parts)) props := by
  have hreceive : Binary.Sorted Part.id (receive cfg part parts) ∧
      capped cfg part ∈ receive cfg part parts := sorted_receive hparts hfits
  obtain ⟨hsorted, hmem⟩ := hreceive
  obtain ⟨before, after, hsplit⟩ := List.append_of_mem hmem
  refine ⟨before, capped cfg part, after, ?_, hsplit ▸ hsorted, ?_, hsettled⟩
  · rw [setParts_part_self, hsplit]
  · rw [capped_id, hid]

theorem sorted_replace {new : Part ι V} (h : Binary.Sorted Part.id (before ++ existing :: after))
    (hid : new.id = existing.id) : Binary.Sorted Part.id (before ++ new :: after) := by
  rw [Binary.sorted_split] at h ⊢
  rw [hid]
  exact h

theorem arrived_delta {index : ℕ} (hparts : w.store.part props.part.messageID = some parts)
    (hsorted : Binary.Sorted Part.id parts) (hdelta : props.hasDelta ∧ props.part.isText)
    (hfind : findText parts props.part.id = some (index, existing, text))
    (hwhole : props.textLength = none → Whole cfg props.part) :
    Arrived cfg (partUpdated cfg props w) props := by
  obtain ⟨before, after, rfl, -, hid, htext⟩ := findText_eq_some hsorted hfind
  by_cases happlied : ∃ textLength, props.textLength = some textLength ∧
      textLength ≤ w.applied props.part text
  · obtain ⟨textLength, hlength, hle⟩ := happlied
    rw [partUpdated_of_applied hparts hsorted hid hdelta htext hlength hle]
    refine ⟨before, existing, after, hparts, hsorted, hid, ?_⟩
    rw [Settled, if_pos hdelta]
    exact ⟨text, htext, Or.inl ⟨textLength, hlength, hle⟩⟩
  · rw [partUpdated_of_delta hparts hsorted hid hdelta htext
      fun textLength hlength hle => happlied ⟨textLength, hlength, hle⟩]
    refine ⟨before, _, after, setParts_part_self, sorted_replace hsorted appendDelta_id, ?_,
      settled_appendDelta hdelta htext fun stored => ?_⟩
    · rw [appendDelta_id, hid]
    · cases hlength : props.textLength with
      | none => exact Or.inr (hwhole hlength)
      | some textLength =>
        refine Or.inl ⟨textLength, hlength, ?_⟩
        rw [Client.applied]
        simp

/-- **A part that has come is there, and its event changes nothing any more.** -/
theorem arrived_partUpdated
    (hsorted : ∀ parts, w.store.part props.part.messageID = some parts →
      Binary.Sorted Part.id parts)
    (hrepeats : PartRepeats cfg w props) : Arrived cfg (partUpdated cfg props w) props := by
  rw [PartRepeats] at hrepeats
  cases hparts : w.store.part props.part.messageID with
  | none =>
    rw [hparts] at hrepeats
    rw [partUpdated_of_none hparts]
    refine ⟨[], capped cfg props.part, [], setParts_part_self, List.pairwise_singleton _ _,
      capped_id, ?_⟩
    by_cases hdelta : props.hasDelta ∧ props.part.isText
    · obtain ⟨text, htext, hrepeatable⟩ := hrepeats hdelta
      have hreconstructed : props.reconstructed = props.part := by
        rw [PartUpdate.reconstructed, htext, if_pos Option.isSome_some]
      rw [← hreconstructed]
      refine settled_reconstructed hdelta ?_ hrepeatable
      rw [hreconstructed, capped_text htext]
    · exact settled_capped hdelta
  | some parts =>
    rw [hparts] at hrepeats
    replace hsorted := hsorted parts hparts
    by_cases hdelta : props.hasDelta ∧ props.part.isText
    · simp only [if_pos hdelta] at hrepeats
      cases hfind : findText parts props.part.id with
      | some found =>
        rw [hfind] at hrepeats
        exact arrived_delta hparts hsorted hdelta hfind hrepeats
      | none =>
        rw [hfind] at hrepeats
        obtain ⟨text, htext⟩ := reconstructed_text hdelta
        rw [partUpdated_of_delta_none hparts hdelta hfind]
        exact arrived_receive hsorted (reconstructed_id props) (fits_of_text htext)
          (settled_reconstructed hdelta (capped_text htext) (hrepeats text htext))
    · simp only [if_neg hdelta] at hrepeats
      obtain ⟨hfits, hagain⟩ := hrepeats
      by_cases happend : ∃ partText index existing text, props.part.text = some partText ∧
          findText parts props.part.id = some (index, existing, text) ∧
            classifyNonDeltaUpdate text partText = .append
      · obtain ⟨partText, index, existing, text, hpartText, hfind, happend⟩ := happend
        obtain ⟨before, after, rfl, -, hid, htext⟩ := findText_eq_some hsorted hfind
        rw [partUpdated_of_append hparts hsorted hid hdelta htext hpartText happend]
        refine ⟨before, _, after, setParts_part_self, sorted_replace hsorted appendRebuild_id, ?_,
          settled_appendRebuild hdelta htext hpartText ?_⟩
        · rw [appendRebuild_id, hid]
        · exact hagain partText index existing text hpartText hfind happend
      · rw [partUpdated_of_replace hparts hdelta fun partText index existing text hpartText hfind =>
          ?_]
        · exact arrived_receive hsorted rfl hfits (settled_capped hdelta)
        · cases hdecision : classifyNonDeltaUpdate text partText with
          | append =>
            exact absurd ⟨partText, index, existing, text, hpartText, hfind, hdecision⟩ happend
          | replace => rfl

theorem Arrived.store_eq (h : Arrived cfg w props) : (partUpdated cfg props w).store = w.store := by
  obtain ⟨before, existing, after, hparts, hsorted, hid, hsettled⟩ := h
  exact store_partUpdated_of_settled hparts hsorted hid hsettled

end Again

end OpenCms.GlobalSync
