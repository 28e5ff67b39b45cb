import OpenCms.Tool.ApplyPatch

/-!
# The tool and the hunks one after another

`apply_patch` plans every update beside the file as it is and writes afterwards;
`applyHunksToFiles` reads back what the hunk before it wrote. For updates without a move
both are a matter of each file by itself: its content and the chunks of the hunks that
name it, in their order (`OpenCms.Tool.edits`).

One after another the edits are put together (`OpenCms.Tool.applyHunks_node`). The tool keeps
those that change the content as it was, and the last of them is what is left
(`OpenCms.Tool.applyChanges_node`). So the two agree, without one edit written over
another, exactly if at most one of the edits of each file has something to do
(`OpenCms.Tool.AtMostOne`, `OpenCms.Tool.agrees_iff`).
-/

namespace OpenCms.Tool

open Patch

/-! ### The edits of one file -/

def edits (directory p : Path) (hunks : List Hunk) : List (List Chunk) :=
  hunks.filterMap fun
    | .update path _ chunks => if resolve directory path = p then some chunks else none
    | _ => none

def deriveAll (content : Text) (es : List (List Chunk)) : Except DeriveError Text :=
  es.foldlM deriveNewContentsFromChunks content

/-- What the tool plans to write for an edit, if it changes the content. -/
def written (content : Text) (chunks : List Chunk) : Option Text :=
  match deriveOrSkip content chunks with
  | .ok newContent => newContent.filter (content ≠ ·)
  | .error _ => none

/-- At most one of the edits has something to do with the content, and those behind it leave
what it makes of the content as it is. -/
def AtMostOne (content : Text) (es : List (List Chunk)) : Prop :=
  (∀ e ∈ es, NoOp content e) ∨
    ∃ before e after newContent, es = before ++ e :: after ∧
      (∀ a ∈ before ++ after, NoOp content a) ∧
      deriveNewContentsFromChunks content e = .ok newContent ∧
      deriveAll newContent after = .ok newContent

variable {c c' c₁ : Text} {e : List Chunk} {es rest : List (List Chunk)}

theorem deriveOrSkip_of_derive (h : deriveNewContentsFromChunks c e = .ok c₁) :
    deriveOrSkip c e = .ok (some c₁) := by
  rw [deriveOrSkip, h]

theorem written_eq_none (h : ∃ w, deriveOrSkip c e = .ok w) : written c e = none ↔ NoOp c e := by
  obtain ⟨w, hw⟩ := h
  have hnoOp : NoOp c e ↔ ∀ x ∈ w, x = c := by
    unfold NoOp
    rw [hw]
    exact ⟨fun ⟨w', hw', h⟩ => Except.ok.inj hw' ▸ h, fun h => ⟨w, rfl, h⟩⟩
  rw [hnoOp, written, hw]
  cases w with
  | none => simp
  | some x => simp [Option.filter_some, @eq_comm _ c]

theorem written_eq_some :
    written c e = some c₁ ↔ deriveNewContentsFromChunks c e = .ok c₁ ∧ c ≠ c₁ := by
  unfold written deriveOrSkip
  cases deriveNewContentsFromChunks c e with
  | ok x => simp [Option.filter_eq_some_iff]
  | error e' => by_cases h : isChunksAlreadyApplied c e = true <;> simp [h]

theorem deriveAll_of_noOp (hes : ∀ e ∈ es, NoOp c e) (h : deriveAll c (es ++ rest) = .ok c') :
    deriveAll c rest = .ok c' := by
  induction es with
  | nil => exact h
  | cons e es ih =>
    obtain ⟨c₁, hderive, hrest⟩ := bind_eq_ok.mp h
    obtain ⟨w, hw, hsame⟩ := hes e List.mem_cons_self
    obtain rfl := Except.ok.inj (hw.symm.trans (deriveOrSkip_of_derive hderive))
    rw [hsame c₁ rfl] at hrest
    exact ih (fun a ha => hes a (List.mem_cons_of_mem _ ha)) hrest

/-- **One file**: the tool writes it at most once, and writes what the edits come to one after
another, exactly if at most one of them has something to do. -/
theorem atMostOne_iff (hall : deriveAll c es = .ok c')
    (hplan : ∀ e ∈ es, ∃ w, deriveOrSkip c e = .ok w) :
    (es.filterMap (written c)).length ≤ 1 ∧ (es.filterMap (written c)).getLast?.getD c = c' ↔
      AtMostOne c es := by
  have hnone : ∀ e ∈ es, (written c e = none ↔ NoOp c e) := fun e he => written_eq_none (hplan e he)
  constructor
  · rintro ⟨hlength, hlast⟩
    cases hwritten : es.filterMap (written c) with
    | nil =>
      rw [List.filterMap_eq_nil_iff] at hwritten
      exact Or.inl fun e he => (hnone e he).mp (hwritten e he)
    | cons c₁ others =>
      rw [hwritten] at hlength hlast
      obtain rfl : others = [] := by simpa using hlength
      obtain rfl : c₁ = c' := hlast
      obtain ⟨before, e, after, rfl, hbefore, he, hafter⟩ :=
        List.filterMap_eq_cons_iff.mp hwritten
      rw [List.filterMap_eq_nil_iff] at hafter
      have hnoOp : ∀ a ∈ before ++ after, NoOp c a := by
        intro a ha
        rcases List.mem_append.mp ha with ha | ha
        · exact (hnone a (List.mem_append_left _ ha)).mp (hbefore a ha)
        · exact (hnone a (by simp [ha])).mp (hafter a ha)
      obtain ⟨hderive, -⟩ := written_eq_some.mp he
      have hrest := deriveAll_of_noOp (fun a ha => hnoOp a (List.mem_append_left _ ha)) hall
      rw [deriveAll, List.foldlM_cons, hderive] at hrest
      exact Or.inr ⟨before, e, after, c₁, rfl, hnoOp, hderive, hrest⟩
  · rintro (hnoOp | ⟨before, e, after, c₁, rfl, hnoOp, hderive, hrest⟩)
    · have hwritten : es.filterMap (written c) = [] :=
        List.filterMap_eq_nil_iff.mpr fun e he => (hnone e he).mpr (hnoOp e he)
      have hsame : deriveAll c [] = .ok c' := deriveAll_of_noOp hnoOp (by rwa [List.append_nil])
      rw [hwritten]
      exact ⟨Nat.zero_le 1, Except.ok.inj hsame⟩
    · have hbefore : before.filterMap (written c) = [] :=
        List.filterMap_eq_nil_iff.mpr fun a ha =>
          (hnone a (List.mem_append_left _ ha)).mpr (hnoOp a (List.mem_append_left _ ha))
      have hafter : after.filterMap (written c) = [] :=
        List.filterMap_eq_nil_iff.mpr fun a ha =>
          (hnone a (by simp [ha])).mpr (hnoOp a (List.mem_append_right _ ha))
      have hall' := deriveAll_of_noOp (fun a ha => hnoOp a (List.mem_append_left _ ha)) hall
      rw [deriveAll, List.foldlM_cons, hderive] at hall'
      obtain rfl : c₁ = c' := Except.ok.inj (hrest.symm.trans hall')
      rw [List.filterMap_append, List.filterMap_cons, hbefore, hafter]
      by_cases hsame : c = c₁
      · have hskip : written c e = none := by
          refine Option.eq_none_iff_forall_ne_some.mpr fun x hx => ?_
          obtain ⟨hderive', hne⟩ := written_eq_some.mp hx
          exact hne (hsame.trans (Except.ok.inj (hderive.symm.trans hderive')))
        rw [hskip]
        simp [hsame]
      · simp [written_eq_some.mpr ⟨hderive, hsame⟩]

/-! ### The hunks one after another -/

def IsUpdate (hunk : Hunk) : Prop :=
  ∃ path move_path chunks, hunk = .update path move_path chunks ∧ movePath move_path = none

variable {s : Session} {t t' : Files} {cwd p : Path} {affected affected' : AffectedPaths}
  {hunks : List Hunk} {path : Text} {move_path : Option Text} {chunks : List Chunk}

theorem edits_cons_self : edits cwd (resolve cwd path) (.update path move_path chunks :: hunks) =
    chunks :: edits cwd (resolve cwd path) hunks := by
  simp [edits]

theorem edits_cons_of_ne (h : resolve cwd path ≠ p) :
    edits cwd p (.update path move_path chunks :: hunks) = edits cwd p hunks := by
  simp [edits, h]

theorem mapError_eq_ok {ε ε' α : Type} {f : ε → ε'} {x : Except ε α} {a : α} :
    x.mapError f = .ok a ↔ x = .ok a := by
  cases x <;> simp [Except.mapError]

theorem applyHunk_update (hmove : movePath move_path = none)
    (h : applyHunk t cwd affected (.update path move_path chunks) = .ok (t', affected')) :
    (path ≠ [] ∧ '\x00' ∉ path) ∧ ∃ c c₁, t.node (resolve cwd path) = some (.file c) ∧
      deriveNewContentsFromChunks c chunks = .ok c₁ ∧
      t'.node = Function.update t.node (resolve cwd path) (some (.file c₁)) := by
  obtain ⟨c, hread, h⟩ := bind_eq_ok.mp h
  obtain ⟨c₁, hderive, h⟩ := bind_eq_ok.mp h
  simp only [hmove] at h
  obtain ⟨t₁, hwrite, h⟩ := bind_eq_ok.mp h
  obtain ⟨rfl, -⟩ := Prod.mk.inj (Except.ok.inj h)
  obtain ⟨q, hfollow, hread⟩ := Option.bind_eq_some_iff.mp (orFail_eq_ok.mp hread)
  obtain ⟨q', hfollow', hwrite⟩ := Option.bind_eq_some_iff.mp (orFail_eq_ok.mp hwrite)
  obtain rfl : q = q' := Option.some.inj (hfollow.symm.trans hfollow')
  have hpath : path ≠ [] ∧ '\x00' ∉ path := by
    unfold follow at hfollow
    split at hfollow
    · simp at hfollow
    next hpath => exact not_or.mp hpath
  rw [resolve_of_follow hfollow]
  exact ⟨hpath, c, c₁, FileTree.readFile_eq_some.mp hread, mapError_eq_ok.mp hderive,
    (FileTree.writeFile_eq_some.mp hwrite).2⟩

theorem mem_edits : chunks ∈ edits cwd p hunks ↔
    ∃ path move_path, .update path move_path chunks ∈ hunks ∧ resolve cwd path = p := by
  unfold edits
  rw [List.mem_filterMap]
  constructor
  · rintro ⟨hunk, hhunk, h⟩
    split at h
    next path move_path chunks' =>
      split at h
      next hp =>
        obtain rfl := Option.some.inj h
        exact ⟨path, move_path, hhunk, hp⟩
      · simp at h
    · simp at h
  · rintro ⟨path, move_path, hhunk, hp⟩
    exact ⟨_, hhunk, if_pos hp⟩

theorem applyHunks_path (hupdates : ∀ hunk ∈ hunks, IsUpdate hunk)
    (h : applyHunks cwd t affected hunks = .ok (t', affected'))
    (hmem : .update path move_path chunks ∈ hunks) : path ≠ [] ∧ '\x00' ∉ path := by
  induction hunks generalizing t affected with
  | nil => simp at hmem
  | cons hunk hunks ih =>
    obtain ⟨path', move_path', chunks', rfl, hmove⟩ := hupdates hunk List.mem_cons_self
    obtain ⟨⟨t₁, affected₁⟩, hfirst, hrest⟩ := bind_eq_ok.mp h
    rcases List.mem_cons.mp hmem with heq | hmem
    · obtain ⟨rfl, -, -⟩ := Hunk.update.inj heq
      exact (applyHunk_update hmove hfirst).1
    · exact ih (fun h' hh' => hupdates h' (List.mem_cons_of_mem _ hh')) hrest hmem

/-- **One after another**: the files that are named are there, and each has in the end what its
edits come to; everything else is as it was. -/
theorem applyHunks_node (hupdates : ∀ hunk ∈ hunks, IsUpdate hunk)
    (h : applyHunks cwd t affected hunks = .ok (t', affected')) (p : Path) :
    (∃ c c', t.node p = some (.file c) ∧ deriveAll c (edits cwd p hunks) = .ok c' ∧
        t'.node p = some (.file c')) ∨
      ¬t.IsFile p ∧ edits cwd p hunks = [] ∧ t'.node p = t.node p := by
  induction hunks generalizing t affected with
  | nil =>
    obtain ⟨rfl, -⟩ := Prod.mk.inj (Except.ok.inj h)
    by_cases hfile : t.IsFile p
    · obtain ⟨c, hc⟩ := hfile
      exact Or.inl ⟨c, c, hc, rfl, hc⟩
    · exact Or.inr ⟨hfile, rfl, rfl⟩
  | cons hunk hunks ih =>
    obtain ⟨path, move_path, chunks, rfl, hmove⟩ := hupdates hunk List.mem_cons_self
    obtain ⟨⟨t₁, affected₁⟩, hfirst, hrest⟩ := bind_eq_ok.mp h
    obtain ⟨-, c, c₁, hc, hderive, hnode⟩ := applyHunk_update hmove hfirst
    have hlater := ih (fun h' hh' => hupdates h' (List.mem_cons_of_mem _ hh')) hrest
    rcases eq_or_ne (resolve cwd path) p with rfl | hne
    · -- the file of this hunk: its content is the one the later edits start from
      rw [edits_cons_self]
      have hnow : t₁.node (resolve cwd path) = some (.file c₁) := by
        rw [hnode, Function.update_self]
      rcases hlater with ⟨c₂, c', hc₂, hall, hc'⟩ | ⟨hno, -, -⟩
      · obtain rfl : c₁ = c₂ := by simpa [hnow] using hc₂
        refine Or.inl ⟨c, c', hc, ?_, hc'⟩
        rw [deriveAll, List.foldlM_cons, hderive]
        exact hall
      · exact absurd ⟨c₁, hnow⟩ hno
    · rw [edits_cons_of_ne hne]
      have hsame : t₁.node p = t.node p := by rw [hnode, Function.update_of_ne hne.symm]
      rwa [FileTree.IsFile, hsame] at hlater

/-! ### The plan, and what it writes -/

/-- The tool lets the path of a hunk through: it is shown as a path, in scope, and may be
touched. -/
structure Admitted (s : Session) (path : Text) : Prop where
  shown : normalizedDisplayPath path (resolve s.directory path) ∉ [[], txt "."]
  inScope : s.inScope (resolve s.directory path) = true
  external : s.external (resolve s.directory path) = true

def FileChange.place : FileChange → Path
  | .add filePath _ _ | .update filePath _ _ | .move filePath _ _ _ | .delete filePath _ => filePath

def writes (p : Path) (changes : List FileChange) : List Text :=
  changes.filterMap fun
    | .update filePath _ newContent => if filePath = p then some newContent else none
    | _ => none

def Rewrites (t : Files) (change : FileChange) : Prop :=
  ∃ p old new, change = .update p old new ∧ t.IsFile p

variable {label : Text} {x : Option FileChange} {changes : List FileChange} {hunk : Hunk}

theorem resolvePatchPath_eq_ok :
    resolvePatchPath s path label = .ok p ↔
      (path ≠ [] ∧ '\x00' ∉ path) ∧
        normalizedDisplayPath path (resolve s.directory path) ∉ [[], txt "."] ∧
        s.inScope (resolve s.directory path) = true ∧ resolve s.directory path = p := by
  unfold resolvePatchPath
  by_cases hempty : path = []
  · simp [hempty]
  by_cases hnul : '\x00' ∈ path
  · simp [hempty, hnul]
  rw [if_neg hempty, if_neg hnul]
  by_cases hshown : normalizedDisplayPath path (resolve s.directory path) ∈ [[], txt "."]
  · have hor : normalizedDisplayPath path (resolve s.directory path) = [] ∨
        normalizedDisplayPath path (resolve s.directory path) = txt "." := by simpa using hshown
    simp only [hor, if_true, hshown]
    simp
  · have hor : ¬(normalizedDisplayPath path (resolve s.directory path) = [] ∨
        normalizedDisplayPath path (resolve s.directory path) = txt ".") := by simpa using hshown
    by_cases hscope : s.inScope (resolve s.directory path) = true
    · simp [hor, hscope, hempty, hnul]
    · simp [hor, hscope]

theorem assertExternalDirectory_eq_ok {u : Unit} :
    assertExternalDirectory s p = .ok u ↔ s.external p = true := by
  unfold assertExternalDirectory
  split <;> simp_all

theorem planHunk_update (hmove : movePath move_path = none) :
    planHunk s t (.update path move_path chunks) = .ok x ↔
      (path ≠ [] ∧ '\x00' ∉ path) ∧ Admitted s path ∧
        ∃ c w, t.node (resolve s.directory path) = some (.file c) ∧ deriveOrSkip c chunks = .ok w ∧
          x = (w.filter (c ≠ ·)).map (.update (resolve s.directory path) c) := by
  constructor
  · intro h
    obtain ⟨q, hresolve, h⟩ := bind_eq_ok.mp h
    obtain ⟨hpath, hshown, hscope, rfl⟩ := resolvePatchPath_eq_ok.mp hresolve
    obtain ⟨_, hexternal, h⟩ := bind_eq_ok.mp h
    obtain ⟨c, hread, h⟩ := bind_eq_ok.mp h
    obtain ⟨w, hw, h⟩ := bind_eq_ok.mp h
    refine ⟨hpath, ⟨hshown, hscope, assertExternalDirectory_eq_ok.mp hexternal⟩, c, w,
      FileTree.readFile_eq_some.mp (orFail_eq_ok.mp hread), mapError_eq_ok.mp hw, ?_⟩
    cases w with
    | none => exact (Except.ok.inj h).symm
    | some new =>
      simp only [hmove] at h
      split at h
      next heq =>
        rw [← Except.ok.inj h]
        simp [heq]
      next hne =>
        rw [← Except.ok.inj h]
        simp [hne]
  · rintro ⟨hpath, hadmitted, c, w, hnode, hw, rfl⟩
    have hresolve : resolvePatchPath s path (txt "file path") = .ok (resolve s.directory path) :=
      resolvePatchPath_eq_ok.mpr ⟨hpath, hadmitted.shown, hadmitted.inScope, rfl⟩
    refine bind_eq_ok.mpr ⟨_, hresolve, ?_⟩
    refine bind_eq_ok.mpr ⟨(), assertExternalDirectory_eq_ok.mpr hadmitted.external, ?_⟩
    refine bind_eq_ok.mpr ⟨c, orFail_eq_ok.mpr (FileTree.readFile_eq_some.mpr hnode), ?_⟩
    refine bind_eq_ok.mpr ⟨w, mapError_eq_ok.mpr hw, ?_⟩
    cases w with
    | none => rfl
    | some new =>
      simp only [hmove]
      by_cases heq : c = new
      · simp [heq, pure, Except.pure]
      · simp [heq, pure, Except.pure]

theorem exists_plan : (∃ changes, plan s t hunks = .ok changes) ↔
    ∀ hunk ∈ hunks, ∃ x, planHunk s t hunk = .ok x := by
  induction hunks with
  | nil => exact iff_of_true ⟨[], rfl⟩ (by simp)
  | cons hunk hunks ih =>
    rw [List.forall_mem_cons, ← ih]
    constructor
    · rintro ⟨changes, h⟩
      obtain ⟨x, hx, h⟩ := bind_eq_ok.mp h
      obtain ⟨rest, hrest, -⟩ := bind_eq_ok.mp h
      exact ⟨⟨x, hx⟩, rest, hrest⟩
    · rintro ⟨⟨x, hx⟩, rest, hrest⟩
      exact ⟨_, bind_eq_ok.mpr ⟨x, hx, bind_eq_ok.mpr ⟨rest, hrest, rfl⟩⟩⟩

theorem writes_cons {q : Path} {old new : Text} :
    writes p (.update q old new :: changes) =
      if q = p then new :: writes p changes else writes p changes := by
  by_cases h : q = p <;> simp [writes, h]

theorem plan_writes (hupdates : ∀ hunk ∈ hunks, IsUpdate hunk)
    (h : plan s t hunks = .ok changes) :
    (∀ change ∈ changes, Rewrites t change) ∧ ∀ p c, t.node p = some (.file c) →
      writes p changes = (edits s.directory p hunks).filterMap (written c) := by
  induction hunks generalizing changes with
  | nil =>
    obtain rfl := Except.ok.inj h
    exact ⟨by simp, fun _ _ _ => rfl⟩
  | cons hunk hunks ih =>
    obtain ⟨path, move_path, chunks, rfl, hmove⟩ := hupdates hunk List.mem_cons_self
    obtain ⟨x, hx, h⟩ := bind_eq_ok.mp h
    obtain ⟨rest, hrest, h⟩ := bind_eq_ok.mp h
    obtain rfl := Except.ok.inj h
    obtain ⟨hrewrites, hwrites⟩ := ih (fun h' hh' => hupdates h' (List.mem_cons_of_mem _ hh')) hrest
    obtain ⟨-, -, c, w, hc, hw, rfl⟩ := (planHunk_update hmove).mp hx
    have hwritten : written c chunks = w.filter (c ≠ ·) := by rw [written, hw]
    rw [← hwritten]
    constructor
    · intro change hchange
      rcases List.mem_append.mp hchange with hchange | hchange
      · obtain ⟨new, -, rfl⟩ := Option.map_eq_some_iff.mp (Option.mem_toList.mp hchange)
        exact ⟨_, c, new, rfl, c, hc⟩
      · exact hrewrites change hchange
    · intro p c' hc'
      rcases eq_or_ne (resolve s.directory path) p with rfl | hne
      · obtain rfl : c = c' := by simpa [hc] using hc'
        rw [edits_cons_self, List.filterMap_cons, ← hwrites _ c hc]
        cases hnew : written c chunks with
        | none => rfl
        | some new => exact writes_cons.trans (if_pos rfl)
      · rw [edits_cons_of_ne hne, ← hwrites p c' hc']
        cases hnew : written c chunks with
        | none => rfl
        | some new => exact writes_cons.trans (if_neg hne)

/-- **The last one counts**: a file has in the end what was written last. -/
theorem applyChanges_node (hrewrites : ∀ change ∈ changes, Rewrites t change) :
    ∃ t', applyChanges t changes = .ok t' ∧
      ∀ p, t'.node p = ((writes p changes).getLast?.map .file).or (t.node p) := by
  induction changes generalizing t with
  | nil => exact ⟨t, rfl, fun p => rfl⟩
  | cons change changes ih =>
    obtain ⟨q, old, new, rfl, hfile⟩ := hrewrites change List.mem_cons_self
    have hready : Ready t (.update q old new) := FileTree.replaceable_of_isFile hfile
    obtain ⟨t₁, hmade⟩ := applyChange_ready.mpr hready
    obtain ⟨-, hnode⟩ := update_eq_ok.mp hmade
    have hlater : ∀ change ∈ changes, Rewrites t₁ change := by
      intro change hchange
      obtain ⟨q', old', new', rfl, x, hx⟩ := hrewrites change (List.mem_cons_of_mem _ hchange)
      refine ⟨q', old', new', rfl, ?_⟩
      rcases eq_or_ne q' q with rfl | hne
      · exact ⟨new, by rw [hnode, Function.update_self]⟩
      · exact ⟨x, by rw [hnode, Function.update_of_ne hne, hx]⟩
    obtain ⟨t', happly, hnode'⟩ := ih hlater
    refine ⟨t', ?_, fun p => ?_⟩
    · exact bind_eq_ok.mpr ⟨t₁, hmade, happly⟩
    · rw [hnode', hnode, writes_cons]
      rcases eq_or_ne q p with rfl | hne
      · rw [if_pos rfl, Function.update_self, List.getLast?_cons]
        cases (writes q changes).getLast? <;> rfl
      · rw [if_neg hne, Function.update_of_ne hne.symm]

theorem isFile_of_writes (hrewrites : ∀ change ∈ changes, Rewrites t change)
    (h : writes p changes ≠ []) : t.IsFile p := by
  obtain ⟨new, hnew⟩ := List.exists_mem_of_ne_nil _ h
  obtain ⟨change, hchange, hwrite⟩ := List.mem_filterMap.mp hnew
  obtain ⟨q, old, new', rfl, hfile⟩ := hrewrites change hchange
  dsimp only at hwrite
  split at hwrite
  next hq => exact hq ▸ hfile
  · simp at hwrite

theorem nodup_places (hrewrites : ∀ change ∈ changes, Rewrites t change) :
    (changes.map FileChange.place).Nodup ↔ ∀ p, (writes p changes).length ≤ 1 := by
  have hcount : ∀ p, (changes.map FileChange.place).count p = (writes p changes).length := by
    intro p
    induction changes with
    | nil => rfl
    | cons change changes ih =>
      obtain ⟨q, old, new, rfl, -⟩ := hrewrites change List.mem_cons_self
      rw [List.map_cons, List.count_cons, ih fun c hc => hrewrites c (List.mem_cons_of_mem _ hc),
        writes_cons]
      by_cases hq : q = p <;> simp [FileChange.place, hq]
  rw [List.nodup_iff_count_le_one]
  exact forall_congr' fun p => by rw [hcount]

/-! ### The tool and the hunks one after another -/

/-- The tool succeeds as well, with no place written twice, and leaves the same disk. -/
def Agrees (s : Session) (t : Files) (hunks : List Hunk) (t' : Files) : Prop :=
  (∃ changes, plan s t hunks = .ok changes ∧ (changes.map FileChange.place).Nodup) ∧
    execute s t hunks = .ok t'

theorem execute_eq_ok (hne : hunks ≠ []) (hplan : plan s t hunks = .ok changes) :
    execute s t hunks = .ok t' ↔
      (s.approve = true ∨ changes = []) ∧ applyChanges t changes = .ok t' := by
  rw [execute, if_neg hne, hplan]
  cases changes with
  | nil => simp [applyChanges, pure, Except.pure]
  | cons change changes => by_cases happrove : s.approve = true <;> simp [happrove]

theorem plannable_of_atMostOne (h : AtMostOne c es) : ∀ e ∈ es, ∃ w, deriveOrSkip c e = .ok w := by
  intro e he
  rcases h with hnoOp | ⟨before, e', after, c₁, rfl, hnoOp, hderive, -⟩
  · obtain ⟨w, hw, -⟩ := hnoOp e he
    exact ⟨w, hw⟩
  · rcases List.mem_append.mp he with he | he
    · obtain ⟨w, hw, -⟩ := hnoOp e (List.mem_append_left _ he)
      exact ⟨w, hw⟩
    · rcases List.mem_cons.mp he with rfl | he
      · exact ⟨some c₁, deriveOrSkip_of_derive hderive⟩
      · obtain ⟨w, hw, -⟩ := hnoOp e (List.mem_append_right _ he)
        exact ⟨w, hw⟩

section Agreement

variable (hupdates : ∀ hunk ∈ hunks, IsUpdate hunk)
  (hrun : applyHunks s.directory t affected hunks = .ok (t', affected'))

include hupdates

theorem planned_file (hplan : plan s t hunks = .ok changes)
    (hmem : .update path move_path chunks ∈ hunks) :
    Admitted s path ∧ ∃ c w, t.node (resolve s.directory path) = some (.file c) ∧
      deriveOrSkip c chunks = .ok w := by
  obtain ⟨path', move_path', chunks', heq, hmove⟩ := hupdates _ hmem
  obtain ⟨rfl, rfl, rfl⟩ := Hunk.update.inj heq
  obtain ⟨x, hx⟩ := exists_plan.mp ⟨changes, hplan⟩ _ hmem
  obtain ⟨-, hadmitted, c, w, hc, hw, -⟩ := (planHunk_update hmove).mp hx
  exact ⟨hadmitted, c, w, hc, hw⟩

theorem deriveOrSkip_of_plan (hplan : plan s t hunks = .ok changes)
    (hc : t.node p = some (.file c)) : ∀ e ∈ edits s.directory p hunks,
      ∃ w, deriveOrSkip c e = .ok w := by
  intro e he
  obtain ⟨path, move_path, hmem, rfl⟩ := mem_edits.mp he
  obtain ⟨-, c₁, w, hc₁, hw⟩ := planned_file hupdates hplan hmem
  obtain rfl : c = c₁ := by simpa [hc] using hc₁
  exact ⟨w, hw⟩

include hrun

theorem deriveAll_of_applyHunks (hc : t.node p = some (.file c)) :
    ∃ c', deriveAll c (edits s.directory p hunks) = .ok c' ∧ t'.node p = some (.file c') := by
  rcases applyHunks_node hupdates hrun p with ⟨c₁, c', hc₁, hall, hc'⟩ | ⟨hno, -, -⟩
  · obtain rfl : c = c₁ := by simpa [hc] using hc₁
    exact ⟨c', hall, hc'⟩
  · exact absurd ⟨c, hc⟩ hno

theorem exists_plan_of_edits
    (hadmitted : ∀ path move_path chunks, .update path move_path chunks ∈ hunks → Admitted s path)
    (hedits : ∀ p c, t.node p = some (.file c) → ∀ e ∈ edits s.directory p hunks,
      ∃ w, deriveOrSkip c e = .ok w) : ∃ changes, plan s t hunks = .ok changes := by
  refine exists_plan.mpr fun hunk hmem => ?_
  obtain ⟨path, move_path, chunks, rfl, hmove⟩ := hupdates hunk hmem
  have hedit : chunks ∈ edits s.directory (resolve s.directory path) hunks :=
    mem_edits.mpr ⟨path, move_path, hmem, rfl⟩
  rcases applyHunks_node hupdates hrun (resolve s.directory path) with
    ⟨c, -, hc, -, -⟩ | ⟨-, hnil, -⟩
  · obtain ⟨w, hw⟩ := hedits _ c hc chunks hedit
    exact ⟨_, (planHunk_update hmove).mpr ⟨applyHunks_path hupdates hrun hmem,
      hadmitted path move_path chunks hmem, c, w, hc, hw, rfl⟩⟩
  · simp [hnil] at hedit

theorem applyChanges_agrees (hplan : plan s t hunks = .ok changes) :
    applyChanges t changes = .ok t' ↔ ∀ p c c', t.node p = some (.file c) →
      deriveAll c (edits s.directory p hunks) = .ok c' →
      ((edits s.directory p hunks).filterMap (written c)).getLast?.getD c = c' := by
  obtain ⟨hrewrites, hwrites⟩ := plan_writes hupdates hplan
  obtain ⟨t₁, happly, hnode⟩ := applyChanges_node hrewrites
  rw [happly]
  constructor
  · rintro heq p c c' hc hall
    obtain rfl := Except.ok.inj heq
    obtain ⟨c₁, hall₁, hc₁⟩ := deriveAll_of_applyHunks hupdates hrun hc
    obtain rfl := Except.ok.inj (hall.symm.trans hall₁)
    have hlast := (hnode p).symm.trans hc₁
    rw [hc] at hlast
    rw [← hwrites p c hc]
    cases hw : (writes p changes).getLast? <;> simpa [hw] using hlast
  · intro hlast
    refine congrArg _ (FileTree.ext ?_)
    funext p
    rcases applyHunks_node hupdates hrun p with ⟨c, c', hc, hall, hc'⟩ | ⟨hno, -, hsame⟩
    · have hlast' := hlast p c c' hc hall
      rw [← hwrites p c hc] at hlast'
      rw [hnode, hc, hc', ← hlast']
      cases (writes p changes).getLast? <;> rfl
    · have hnone : writes p changes = [] := by
        by_contra hw
        exact hno (isFile_of_writes hrewrites hw)
      rw [hnode, hnone, hsame]
      rfl

end Agreement

/-- **The tool agrees with the hunks one after another** exactly if it lets their paths
through, at most one edit of each file has something to do, and the edit is approved where
there is one. -/
theorem agrees_iff (s : Session) (t : Files) (hunks : List Hunk) (t' : Files)
    (affected : AffectedPaths) (hupdates : ∀ hunk ∈ hunks, IsUpdate hunk)
    (hsequential : applyHunksToFiles t s.directory hunks = .ok (t', affected)) :
    Agrees s t hunks t' ↔
      (∀ path move_path chunks, .update path move_path chunks ∈ hunks → Admitted s path) ∧
      (∀ p c, t.readFile p = some c → AtMostOne c (edits s.directory p hunks)) ∧
      (s.approve = true ∨
        ∀ p c, t.readFile p = some c → ∀ e ∈ edits s.directory p hunks, NoOp c e) := by
  obtain ⟨hne, hrun⟩ : hunks ≠ [] ∧
      applyHunks s.directory t ⟨[], [], []⟩ hunks = .ok (t', affected) := by
    unfold applyHunksToFiles at hsequential
    split at hsequential
    · simp at hsequential
    next hne => exact ⟨hne, hsequential⟩
  simp only [FileTree.readFile_eq_some]
  constructor
  · rintro ⟨⟨changes, hplan, hnodup⟩, hexecute⟩
    obtain ⟨hrewrites, hwrites⟩ := plan_writes hupdates hplan
    obtain ⟨happrove, happly⟩ := (execute_eq_ok hne hplan).mp hexecute
    refine ⟨fun path move_path chunks hmem => (planned_file hupdates hplan hmem).1, ?_, ?_⟩
    · intro p c hc
      obtain ⟨c', hall, -⟩ := deriveAll_of_applyHunks hupdates hrun hc
      refine (atMostOne_iff hall (deriveOrSkip_of_plan hupdates hplan hc)).mp ⟨?_, ?_⟩
      · rw [← hwrites p c hc]
        exact (nodup_places hrewrites).mp hnodup p
      · exact (applyChanges_agrees hupdates hrun hplan).mp happly p c c' hc hall
    · refine happrove.imp_right fun hnil p c hc e he => ?_
      have hnone := hwrites p c hc
      rw [hnil] at hnone
      have hplanned := deriveOrSkip_of_plan hupdates hplan hc e he
      exact (written_eq_none hplanned).mp (List.filterMap_eq_nil_iff.mp hnone.symm e he)
  · rintro ⟨hadmitted, hone, happrove⟩
    have hskip : ∀ p c, t.node p = some (.file c) → ∀ e ∈ edits s.directory p hunks,
        ∃ w, deriveOrSkip c e = .ok w := fun p c hc => plannable_of_atMostOne (hone p c hc)
    obtain ⟨changes, hplan⟩ := exists_plan_of_edits hupdates hrun hadmitted hskip
    obtain ⟨hrewrites, hwrites⟩ := plan_writes hupdates hplan
    refine ⟨⟨changes, hplan, (nodup_places hrewrites).mpr fun p => ?_⟩,
      (execute_eq_ok hne hplan).mpr ⟨?_, (applyChanges_agrees hupdates hrun hplan).mpr ?_⟩⟩
    · by_cases hw : writes p changes = []
      · simp [hw]
      · obtain ⟨c, hc⟩ := isFile_of_writes hrewrites hw
        obtain ⟨c', hall, -⟩ := deriveAll_of_applyHunks hupdates hrun hc
        rw [hwrites p c hc]
        exact ((atMostOne_iff hall (hskip p c hc)).mpr (hone p c hc)).1
    · refine happrove.imp_right fun hnoOp => ?_
      cases changes with
      | nil => rfl
      | cons change changes =>
        obtain ⟨q, old, new, rfl, c, hc⟩ := hrewrites _ List.mem_cons_self
        have hnone : (edits s.directory q hunks).filterMap (written c) = [] :=
          List.filterMap_eq_nil_iff.mpr fun e he =>
            (written_eq_none (hskip q c hc e he)).mpr (hnoOp q c hc e he)
        have hwrite := hwrites q c hc
        rw [writes_cons, if_pos rfl, hnone] at hwrite
        simp at hwrite
    · intro p c c' hc hall
      exact ((atMostOne_iff hall (hskip p c hc)).mpr (hone p c hc)).2

/-- A hunk that puts one line in place of another in a file at the top. -/
def replaceLine (name : Text) (old new : Line) : Hunk :=
  .update name none [⟨[old], [new], none, false⟩]

theorem isUpdate_replaceLine (name : Text) (old new : Line) :
    IsUpdate (replaceLine name old new) :=
  ⟨_, _, _, rfl, rfl⟩

/-- The files `a` and `b`. -/
def twoFiles (a b : Text) : Files :=
  (oneFile a).put (txt "b") [] (.file b) rfl (.inr (by simp [oneFile, FileTree.put, FileTree.empty, txt]))

/-- A line of each of two files is replaced. -/
theorem agrees_iff_sample :
    ∃ t' affected, applyHunksToFiles (twoFiles (txt "x\n") (txt "z\n")) []
          [replaceLine (txt "a") (txt "x") (txt "y"), replaceLine (txt "b") (txt "z") (txt "w")] =
        .ok (t', affected) ∧ t'.readFile [txt "a"] = some (txt "y\n") ∧
      t'.readFile [txt "b"] = some (txt "w\n") ∧
      ∀ p c, (twoFiles (txt "x\n") (txt "z\n")).readFile p = some c →
        AtMostOne c (edits [] p [replaceLine (txt "a") (txt "x") (txt "y"),
          replaceLine (txt "b") (txt "z") (txt "w")]) := by
  have hupdates : ∀ hunk ∈ [replaceLine (txt "a") (txt "x") (txt "y"),
      replaceLine (txt "b") (txt "z") (txt "w")], IsUpdate hunk := by
    simp [isUpdate_replaceLine]
  refine ⟨_, _, rfl, rfl, rfl, ?_⟩
  refine ((agrees_iff openSession _ _ _ _ hupdates rfl).mp ⟨⟨_, rfl, ?_⟩, rfl⟩).2.1
  decide

/-- **An edit is overwritten**: of two lines replaced by two hunks only the second is, while
one after another the hunks replace both. -/
theorem edit_overwritten :
    ¬∀ (t : Files) (hunks : List Hunk) (t' : Files) (affected : AffectedPaths),
      (∀ hunk ∈ hunks, IsUpdate hunk) →
      applyHunksToFiles t openSession.directory hunks = .ok (t', affected) →
      Agrees openSession t hunks t' := by
  intro h
  obtain ⟨t', affected, hsequential, hboth⟩ : ∃ t' affected,
      applyHunksToFiles (oneFile (txt "x\ny\n")) openSession.directory
          [replaceLine (txt "a") (txt "x") (txt "X"), replaceLine (txt "a") (txt "y") (txt "Y")] =
        .ok (t', affected) ∧ t'.readFile [txt "a"] = some (txt "X\nY\n") := ⟨_, _, rfl, rfl⟩
  obtain ⟨t'', hexecute, hone⟩ : ∃ t'',
      execute openSession (oneFile (txt "x\ny\n"))
          [replaceLine (txt "a") (txt "x") (txt "X"), replaceLine (txt "a") (txt "y") (txt "Y")] =
        .ok t'' ∧ t''.readFile [txt "a"] = some (txt "x\nY\n") := ⟨_, rfl, rfl⟩
  have hupdates : ∀ hunk ∈ [replaceLine (txt "a") (txt "x") (txt "X"), replaceLine (txt "a") (txt "y") (txt "Y")],
      IsUpdate hunk := by simp [isUpdate_replaceLine]
  have hagrees := (h _ _ t' affected hupdates hsequential).2
  obtain rfl := Except.ok.inj (hexecute.symm.trans hagrees)
  rw [hboth] at hone
  exact absurd hone (by decide)

end OpenCms.Tool
