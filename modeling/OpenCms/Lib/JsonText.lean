import OpenCms.Lib.JsString
import OpenCms.Lib.Schema
import Mathlib.Algebra.BigOperators.Group.List.Basic
import Mathlib.Algebra.GroupWithZero.Nat

/-!
# How long the text of a value is

The length of the text that `JSON.stringify` writes for a value, in code units. How long the text of
a number is, is a parameter.

The text of an array is as long as those of its items together, with a comma between two of them and
the brackets (`OpenCms.Json.textLength_arr`).
-/

namespace OpenCms

open JsString

namespace Json

/-- How long a code unit is in quotes, if it is no half of a pair. -/
def unitLength (c : UInt16) : ℕ :=
  let n := c.toNat
  -- The quote, the backslash, and the control characters that have a letter.
  if n = 0x22 ∨ n = 0x5C ∨ n = 8 ∨ n = 9 ∨ n = 10 ∨ n = 12 ∨ n = 13 then 2
  else if n < 0x20 ∨ 0xD800 ≤ n ∧ n ≤ 0xDFFF then 6
  else 1

def quotedLength : JsString → ℕ
  | [] => 0
  | [c] => unitLength c
  | c :: d :: s =>
    -- The two halves of a character stay as they are.
    if 0xD800 ≤ c.toNat ∧ c.toNat ≤ 0xDBFF ∧ 0xDC00 ≤ d.toNat ∧ d.toNat ≤ 0xDFFF then
      2 + quotedLength s
    else unitLength c + quotedLength (d :: s)

variable (numLength : ℚ → ℕ)

mutual

def textLength : Json JsString JsString → ℕ
  | .null => 4
  | .bool b => if b then 4 else 5
  | .num q => numLength q
  | .str s => 2 + quotedLength s
  | .arr items => 2 + itemsLength items
  | .obj members => 2 + membersLength members

/-- The items of an array, with commas between them. -/
def itemsLength : List (Json JsString JsString) → ℕ
  | [] => 0
  | j :: items => textLength j + (if items.isEmpty then 0 else 1) + itemsLength items

/-- The members of an object, with commas between them. -/
def membersLength : List (JsString × Json JsString JsString) → ℕ
  | [] => 0
  | (k, j) :: members =>
    (2 + quotedLength k + 1 + textLength j) + (if members.isEmpty then 0 else 1) +
      membersLength members

end

theorem itemsLength_cons (j : Json JsString JsString) (items : List (Json JsString JsString)) :
    itemsLength numLength (j :: items) + 1 =
      (textLength numLength j + 1) +
        (if items.isEmpty then 0 else itemsLength numLength items + 1) := by
  rcases items with - | ⟨j', items⟩
  · simp [itemsLength]
  · rw [itemsLength]
    simp only [List.isEmpty_cons, if_neg Bool.false_ne_true]
    omega

theorem textLength_arr {items : List (Json JsString JsString)} (hne : items ≠ []) :
    textLength numLength (.arr items) + 1 =
      2 + (items.map fun j => textLength numLength j + 1).sum := by
  rw [textLength]
  induction items with
  | nil => exact absurd rfl hne
  | cons j items ih =>
    have hcons := itemsLength_cons numLength j items
    rw [List.map_cons, List.sum_cons]
    rcases eq_or_ne items [] with rfl | hne'
    · simp only [List.isEmpty_nil, if_true, List.map_nil, List.sum_nil] at hcons ⊢
      omega
    · have hitems : items.isEmpty = false := by simpa using hne'
      have ih := ih hne'
      rw [hitems, if_neg Bool.false_ne_true] at hcons
      omega

end Json

/-! ### Members that are set -/

section Members

variable {κ σ : Type} [DecidableEq κ]

def Members.set (l : Members κ σ) (key : κ) (value : Json κ σ) : Members κ σ :=
  match l with
  | [] => [(key, value)]
  | kv :: l => if kv.1 = key then (key, value) :: l else kv :: Members.set l key value

theorem Members.get_cons (kv : κ × Json κ σ) (l : Members κ σ) (key : κ) :
    Members.get (kv :: l) key = if kv.1 = key then some kv.2 else l.get key := by
  unfold Members.get
  by_cases h : kv.1 = key
  · rw [List.find?_cons_of_pos (by simpa using h), if_pos h]
    rfl
  · rw [List.find?_cons_of_neg (by simpa using h), if_neg h]

theorem Members.get_set (l : Members κ σ) (key other : κ) (value : Json κ σ) :
    (l.set key value).get other = if other = key then some value else l.get other := by
  induction l with
  | nil =>
    rw [Members.set, Members.get_cons]
    by_cases h : other = key
    · rw [if_pos h, if_pos h.symm]
    · rw [if_neg h, if_neg (Ne.symm h)]
  | cons kv l ih =>
    rw [Members.set]
    by_cases hkv : kv.1 = key
    · rw [if_pos hkv, Members.get_cons]
      by_cases h : other = key
      · rw [if_pos h, if_pos h.symm]
      · rw [if_neg h, if_neg (Ne.symm h), Members.get_cons, if_neg fun heq => h (heq.symm.trans hkv)]
    · rw [if_neg hkv, Members.get_cons, Members.get_cons, ih]
      by_cases h : kv.1 = other
      · rw [if_pos h, if_pos h, if_neg fun heq => hkv (h.trans heq)]
      · rw [if_neg h, if_neg h]

end Members

end OpenCms
