import OpenCms.Tool.Replace

/-!
# What is put in the place of a text

When only one occurrence is replaced, the new text is put in as it is. When all are replaced, the
new text is handed to `replaceAll`, for which a dollar sign before another one, before `&`, before a
backquote or before a quote is not what it looks like. So a new text with such a pair comes out as
something else, and the two ways of replacing differ even if there is one occurrence only
(`OpenCms.Edit.inserted_literally_iff`).
-/

namespace OpenCms

namespace JsString

/-! ### Replacing with the text itself -/

/-- What is between the occurrences, from where the one before ends. -/
def between (s : JsString) (width : ℕ) : ℕ → List ℕ → List JsString
  | endOfLast, [] => [s.drop endOfLast]
  | endOfLast, position :: positions =>
    substring s endOfLast position :: between s width (position + width) positions

/-- **The string with another one put in the place of every occurrence.** -/
def replaceLiterally (s search new : JsString) : JsString :=
  new.intercalate (between s search.length 0 (occurrences search 0 0 s))

def Special (template : JsString) : Prop :=
  ∃ before c after, template = before ++ 36 :: c :: after ∧ c ∈ [36, 38, 96, 39]

section Literal

variable {s search new template matched : JsString} {position index endOfLast : ℕ}
  {positions : List ℕ} {c : UInt16}

theorem Special.cons (h : Special template) (c : UInt16) : Special (c :: template) := by
  obtain ⟨before, d, after, rfl, hd⟩ := h
  exact ⟨c :: before, d, after, rfl, hd⟩

theorem getSubstitution_of_not_special (h : ¬Special template) :
    getSubstitution matched s position template = template := by
  fun_induction getSubstitution matched s position template with
  | case1 template => exact absurd ⟨[], 36, template, rfl, by decide⟩ h
  | case2 template => exact absurd ⟨[], 38, template, rfl, by decide⟩ h
  | case3 template => exact absurd ⟨[], 96, template, rfl, by decide⟩ h
  | case4 template => exact absurd ⟨[], 39, template, rfl, by decide⟩ h
  | case5 c template _ _ _ _ ih => rw [ih fun hspecial => h (hspecial.cons c)]
  | case6 => rfl

theorem length_getSubstitution_le (c : UInt16) (template : JsString) :
    (getSubstitution [c] [c] 0 template).length ≤ template.length := by
  fun_induction getSubstitution [c] [c] 0 template with
  | case1 template ih => simpa using Nat.le_succ_of_le ih
  | case2 template ih => simpa using Nat.le_succ_of_le ih
  | case3 template ih => simpa using Nat.le_succ_of_le (Nat.le_succ_of_le ih)
  | case4 template ih => simpa using Nat.le_succ_of_le (Nat.le_succ_of_le ih)
  | case5 d template _ _ _ _ ih => simpa using ih
  | case6 => exact le_rfl

theorem length_getSubstitution_lt (h : Special template) (c : UInt16) :
    (getSubstitution [c] [c] 0 template).length < template.length := by
  fun_induction getSubstitution [c] [c] 0 template with
  | case1 template => simpa using Nat.lt_succ_of_le (length_getSubstitution_le c template)
  | case2 template => simpa using Nat.lt_succ_of_le (length_getSubstitution_le c template)
  | case3 template | case4 template =>
    simpa using Nat.lt_succ_of_le (Nat.le_succ_of_le (length_getSubstitution_le c template))
  | case5 d template h36 h38 h96 h39 ih =>
    -- the pair is behind the first unit
    have hrest : Special template := by
      obtain ⟨before, e, after, heq, he⟩ := h
      cases before with
      | nil =>
        obtain ⟨rfl, rfl⟩ := List.cons.inj heq
        simp only [List.mem_cons, List.not_mem_nil, or_false] at he
        rcases he with rfl | rfl | rfl | rfl
        · exact absurd rfl (h36 after rfl)
        · exact absurd rfl (h38 after rfl)
        · exact absurd rfl (h96 after rfl)
        · exact absurd rfl (h39 after rfl)
      | cons b before =>
        obtain ⟨rfl, rfl⟩ := List.cons.inj heq
        exact ⟨before, e, after, rfl, he⟩
    simpa using ih hrest
  | case6 =>
    obtain ⟨before, e, after, heq, -⟩ := h
    simp at heq

theorem replaceAt_eq (h : ∀ position, getSubstitution search s position template = template) :
    replaceAt search s template endOfLast positions =
      template.intercalate (between s search.length endOfLast positions) := by
  induction positions generalizing endOfLast with
  | nil => simp [replaceAt, between]
  | cons position positions ih =>
    have hne : between s search.length (position + search.length) positions ≠ [] := by
      cases positions <;> exact List.cons_ne_nil _ _
    rw [replaceAt, ih, h, between, List.intercalate_cons_of_ne_nil hne]

/-- **Without a pair that has a meaning the text is put in as it is.** -/
theorem replaceAll_eq_replaceLiterally (h : ¬Special new) :
    replaceAll s search new = replaceLiterally s search new :=
  replaceAt_eq fun _ => getSubstitution_of_not_special h

/-! ### One occurrence -/

theorem occurrences_eq_nil (h : ∀ j ≤ s.length, ¬search <+: s.drop j) (skip position : ℕ) :
    occurrences search skip position s = [] := by
  induction s generalizing skip position with
  | nil =>
    rw [occurrences, if_neg]
    rintro ⟨-, rfl⟩
    exact h 0 le_rfl (List.prefix_refl _)
  | cons c s ih =>
    have hrest : ∀ j ≤ s.length, ¬search <+: s.drop j := fun j hj => h (j + 1) (by simpa using hj)
    cases skip with
    | zero =>
      have hfirst : ¬search <+: c :: s := h 0 (Nat.zero_le _)
      rw [occurrences, if_neg hfirst]
      exact ih hrest 0 (position + 1)
    | succ skip =>
      exact ih hrest skip (position + 1)

theorem occurrences_eq_singleton (hle : index ≤ s.length) (hhere : search <+: s.drop index)
    (honly : ∀ j ≤ s.length, search <+: s.drop j → j = index) (position : ℕ) :
    occurrences search 0 position s = [position + index] := by
  induction s generalizing index position with
  | nil =>
    obtain rfl := Nat.le_zero.mp hle
    rw [occurrences, if_pos ⟨rfl, List.prefix_nil.mp hhere⟩, Nat.add_zero]
  | cons c s ih =>
    rw [occurrences]
    cases index with
    | zero =>
      rw [if_pos (by simpa using hhere), occurrences_eq_nil, Nat.add_zero]
      intro j hj hjs
      exact absurd (honly (j + 1) (by simpa using hj) hjs) (Nat.succ_ne_zero j)
    | succ index =>
      have hfirst : ¬search <+: c :: s := fun hpre =>
        absurd (honly 0 (Nat.zero_le _) hpre) (Nat.succ_ne_zero index).symm
      rw [if_neg hfirst, ih (by simpa using hle) hhere]
      · rw [Nat.add_right_comm, Nat.add_assoc]
      · intro j hj hjs
        exact Nat.succ_inj.mp (honly (j + 1) (by simpa using hj) hjs)

end Literal

end JsString

namespace Edit

open JsString

/-! ### What an edit puts in -/

/-- The text that is replaced: the first proposal that occurs. -/
def matchedText (content oldString : JsString) : Option JsString :=
  (searches content oldString).find? fun search => includes content search

/-- **The new text is put in as it is**: all occurrences are exchanged for it, and it makes no
difference whether all are to be replaced when there is only one. -/
def InsertsLiterally (newString : JsString) : Prop :=
  ∀ content oldString s : JsString, oldString ≠ newString →
    matchedText content oldString = some s →
      replace content oldString newString true = .ok (replaceLiterally content s newString) ∧
        ∀ index, OccursOnce s content index →
          replace content oldString newString false = replace content oldString newString true

section Insert

variable {content oldString newString s : JsString} {notFound : Bool} {index : ℕ}
  {proposals : List JsString}

theorem replaceFirst_all
    (h : proposals.find? (fun search => includes content search) = some s) :
    replaceFirst content newString true notFound proposals =
      .ok (replaceAll content s newString) := by
  induction proposals with
  | nil => cases h
  | cons first rest ih =>
    rw [replaceFirst]
    rw [List.find?_cons] at h
    cases hindex : indexOf first content with
    | none =>
      rw [includes, hindex] at h
      exact ih h
    | some found =>
      rw [includes, hindex] at h
      obtain rfl := Option.some.inj h
      rfl

theorem replaceFirst_once
    (h : proposals.find? (fun search => includes content search) = some s)
    (honce : OccursOnce s content index) :
    replaceFirst content newString false notFound proposals =
      .ok (content.take index ++ newString ++ content.drop (index + s.length)) := by
  induction proposals with
  | nil => cases h
  | cons first rest ih =>
    rw [replaceFirst]
    rw [List.find?_cons] at h
    cases hindex : indexOf first content with
    | none =>
      rw [includes, hindex] at h
      exact ih h
    | some found =>
      rw [includes, hindex] at h
      obtain rfl := Option.some.inj h
      obtain ⟨hfirst, hlast⟩ := indexOf_eq_lastIndexOf_iff.mpr honce
      rw [hindex] at hfirst
      obtain rfl := Option.some.inj hfirst
      dsimp only
      rw [if_neg Bool.false_ne_true, if_pos hlast]

theorem replaceLiterally_of_occursOnce (honce : OccursOnce s content index) :
    replaceLiterally content s newString =
      content.take index ++ newString ++ content.drop (index + s.length) := by
  obtain ⟨hle, hhere, honly⟩ := honce
  rw [replaceLiterally, occurrences_eq_singleton hle hhere honly, Nat.zero_add]
  simp [between, substring, List.intercalate_cons_cons]

/-- **A new text is always put in as it is exactly if there is no pair with a meaning in it.** -/
theorem inserted_literally_iff (newString : JsString) :
    InsertsLiterally newString ↔ ¬Special newString := by
  constructor
  · intro h hspecial
    -- a single unit that is replaced by the text
    have hlt := length_getSubstitution_lt hspecial 120
    have hlong : [120] ≠ newString := by
      rintro rfl
      obtain ⟨before, c, after, heq, -⟩ := hspecial
      have hlen := congrArg List.length heq
      simp only [List.length_append, List.length_cons, List.length_nil] at hlen
      omega
    have hall := (h [120] [120] [120] hlong (by rfl)).1
    have hreplace : replace [120] [120] newString true =
        .ok (getSubstitution [120] [120] 0 newString) := by
      rw [replace, if_neg hlong, replaceFirst_all (s := [120]) (by rfl)]
      simp [replaceAll, occurrences, replaceAt, substring]
    have honce : OccursOnce [120] [120] 0 :=
      indexOf_eq_lastIndexOf_iff.mp ⟨by decide, by decide⟩
    rw [hreplace, replaceLiterally_of_occursOnce honce] at hall
    have hlen := congrArg List.length (Except.ok.inj hall)
    simp at hlen
    omega
  · intro hnone content oldString s hdiff hmatched
    have hall : replace content oldString newString true =
        .ok (replaceLiterally content s newString) := by
      rw [replace, if_neg hdiff, replaceFirst_all hmatched, replaceAll_eq_replaceLiterally hnone]
    refine ⟨hall, fun index honce => ?_⟩
    rw [hall, replace, if_neg hdiff, replaceFirst_once hmatched honce,
      replaceLiterally_of_occursOnce honce]

end Insert

/-- **A pair of dollar signs comes out as one.** -/
theorem not_inserted_literally : ¬∀ newString, InsertsLiterally newString := by
  intro h
  have hdiff := ((h (js "$$")) (js "x") (js "x") (js "x") (by decide) (by rfl)).1
  have hreplace : replace (js "x") (js "x") (js "$$") true = .ok (js "$") := by rfl
  exact absurd (Except.ok.inj hdiff) (by decide)

end Edit

end OpenCms
