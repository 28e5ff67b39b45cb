import Mathlib.Data.List.Basic
import Mathlib.Data.List.DropRight
import Mathlib.Data.List.Infix

/-!
# Strings of the scripting side

A string is the list of its UTF-16 code units. This module has what the language does with
strings: looking for one string in another, which is the same for lists of anything
(`OpenCms.indexOf_eq_some_iff`, `OpenCms.lastIndexOf_eq_some_iff`), cutting, trimming, and
replacing, where the replacement is a template with a meaning for the dollar sign.
-/

namespace OpenCms

/-- A string of the scripting side: its UTF-16 code units. -/
abbrev JsString : Type := List UInt16

instance JsString.instLawfulBEq : LawfulBEq JsString := inferInstance

/-- The code units of a character. -/
def utf16 (c : Char) : JsString :=
  if c.toNat < 0x10000 then [c.toNat.toUInt16]
  else [(0xD800 + (c.toNat - 0x10000) / 0x400).toUInt16, (0xDC00 + c.toNat % 0x400).toUInt16]

/-- A string literal of the source. -/
def js (s : String) : JsString := s.toList.flatMap utf16

theorem js_ofList (l : List Char) : js (String.ofList l) = l.flatMap utf16 := by
  rw [js, String.toList_ofList]

/-! ### Looking for a string -/

section Search

variable {α : Type*} [DecidableEq α]

/-- `indexOf`: where the first occurrence is. -/
def indexOf (search : List α) : List α → Option ℕ
  | [] => if search = [] then some 0 else none
  | c :: s => if search <+: c :: s then some 0 else (indexOf search s).map (· + 1)

def lastIndexOf (search : List α) : List α → Option ℕ
  | [] => if search = [] then some 0 else none
  | c :: s =>
    match lastIndexOf search s with
    | some i => some (i + 1)
    | none => if search <+: c :: s then some 0 else none

def includes (s search : List α) : Bool := (indexOf search s).isSome

def substring (s : List α) (start stop : ℕ) : List α := (s.drop start).take (stop - start)

/-- Where the occurrences are that do not overlap, from the left. So many units are still those of
the one before. -/
def occurrences (search : List α) : ℕ → ℕ → List α → List ℕ
  | skip, position, [] => if skip = 0 ∧ search = [] then [position] else []
  | 0, position, c :: s =>
    if search <+: c :: s then
      -- after an empty string one unit is passed over
      position :: occurrences search (search.length - 1) (position + 1) s
    else occurrences search 0 (position + 1) s
  | skip + 1, position, _ :: s => occurrences search skip (position + 1) s

variable {search s : List α} {i : ℕ}

/-- **The first occurrence is one, and there is none before it.** -/
theorem indexOf_eq_some_iff :
    indexOf search s = some i ↔
      i ≤ s.length ∧ search <+: s.drop i ∧ ∀ j < i, ¬search <+: s.drop j := by
  induction s generalizing i with
  | nil =>
    unfold indexOf
    constructor
    · split
      next h =>
        rintro ⟨⟩
        exact ⟨le_rfl, h ▸ List.nil_prefix, fun j hj => absurd hj (Nat.not_lt_zero j)⟩
      next => nofun
    · rintro ⟨hle, hprefix, _⟩
      obtain rfl := Nat.le_zero.mp hle
      exact if_pos (List.prefix_nil.mp hprefix)
  | cons c s ih =>
    unfold indexOf
    split
    next h =>
      constructor
      · rintro ⟨⟩
        exact ⟨Nat.zero_le _, h, fun j hj => absurd hj (Nat.not_lt_zero j)⟩
      · rintro ⟨_, _, hfirst⟩
        rcases Nat.eq_zero_or_pos i with rfl | hpos
        · rfl
        · exact absurd h (hfirst 0 hpos)
    next h =>
      cases i with
      | zero => simp [h]
      | succ i =>
        rw [Option.map_eq_some_iff]
        simp only [Nat.succ.injEq, exists_eq_right, ih, List.length_cons, List.drop_succ_cons,
          Nat.add_le_add_iff_right]
        refine and_congr_right fun _ => and_congr_right fun _ => ⟨fun hfirst j hj => ?_,
          fun hfirst j hj => hfirst (j + 1) (by omega)⟩
        cases j with
        | zero => exact h
        | succ j => exact hfirst j (by omega)

theorem lastIndexOf_eq_none_iff :
    lastIndexOf search s = none ↔ ∀ j ≤ s.length, ¬search <+: s.drop j := by
  induction s with
  | nil => simp [lastIndexOf]
  | cons c s ih =>
    have hall : (∀ j ≤ (c :: s).length, ¬search <+: (c :: s).drop j) ↔
        ¬search <+: c :: s ∧ ∀ j ≤ s.length, ¬search <+: s.drop j := by
      constructor
      · exact fun h => ⟨h 0 (Nat.zero_le _), fun j hj => h (j + 1) (Nat.succ_le_succ hj)⟩
      · rintro ⟨hhead, htail⟩ (_ | j) hj
        · exact hhead
        · exact htail j (Nat.le_of_succ_le_succ hj)
    rw [hall, ← ih, lastIndexOf]
    cases lastIndexOf search s <;> simp

/-- **The last occurrence is one, and there is none after it.** -/
theorem lastIndexOf_eq_some_iff :
    lastIndexOf search s = some i ↔
      i ≤ s.length ∧ search <+: s.drop i ∧ ∀ j ≤ s.length, i < j → ¬search <+: s.drop j := by
  induction s generalizing i with
  | nil =>
    cases i with
    | zero => simp [lastIndexOf]
    | succ i => simp [lastIndexOf]
  | cons c s ih =>
    have hafter : ∀ i, (∀ j ≤ (c :: s).length, i + 1 < j → ¬search <+: (c :: s).drop j) ↔
        ∀ j ≤ s.length, i < j → ¬search <+: s.drop j := by
      intro i
      constructor
      · exact fun h j hj hlt => h (j + 1) (Nat.succ_le_succ hj) (Nat.succ_lt_succ hlt)
      · rintro h (_ | j) hj hlt
        · exact absurd hlt (Nat.not_lt_zero _)
        · exact h j (Nat.le_of_succ_le_succ hj) (Nat.lt_of_succ_lt_succ hlt)
    rw [lastIndexOf]
    cases hlast : lastIndexOf search s with
    | some k =>
      obtain ⟨hk, hprefix, hmax⟩ := (ih (i := k)).mp hlast
      cases i with
      | zero =>
        refine iff_of_false nofun fun h => ?_
        exact h.2.2 (k + 1) (Nat.succ_le_succ hk) (Nat.succ_pos k) hprefix
      | succ i =>
        rw [hafter, List.drop_succ_cons, List.length_cons, Nat.succ_le_succ_iff, ← ih, hlast]
        simp
    | none =>
      have hnone := lastIndexOf_eq_none_iff.mp hlast
      dsimp only
      cases i with
      | zero =>
        constructor
        · intro h
          refine ⟨Nat.zero_le _, by simpa using h, ?_⟩
          rintro (_ | j) hj hlt
          · exact absurd hlt (Nat.lt_irrefl 0)
          · exact hnone j (Nat.le_of_succ_le_succ hj)
        · exact fun h => if_pos h.2.1
      | succ i =>
        refine iff_of_false (by split <;> simp) fun h => ?_
        exact hnone i (Nat.le_of_succ_le_succ h.1) h.2.1

theorem indexOf_eq_lastIndexOf_iff :
    indexOf search s = some i ∧ lastIndexOf search s = some i ↔
      i ≤ s.length ∧ search <+: s.drop i ∧ ∀ j ≤ s.length, search <+: s.drop j → j = i := by
  rw [indexOf_eq_some_iff, lastIndexOf_eq_some_iff]
  constructor
  · rintro ⟨⟨hle, hprefix, hfirst⟩, _, _, hlast⟩
    refine ⟨hle, hprefix, fun j hj hjs => ?_⟩
    rcases Nat.lt_trichotomy j i with hlt | heq | hgt
    · exact absurd hjs (hfirst j hlt)
    · exact heq
    · exact absurd hjs (hlast j hj hgt)
  · rintro ⟨hle, hprefix, honly⟩
    refine ⟨⟨hle, hprefix, fun j hj hjs => ?_⟩, hle, hprefix, fun j hj hlt hjs => ?_⟩
    · exact absurd (honly j (hj.le.trans hle) hjs) hj.ne
    · exact absurd (honly j hj hjs) hlt.ne'

end Search

/-! ### Cutting -/

section Split

variable {α : Type*} [BEq α] {a : α} {s t piece : List α}

/-- A string with another behind it is cut where they are cut, but not between them. -/
theorem splitOn_append (s t : List α) : ∃ before last first rest,
    s.splitOn a = before ++ [last] ∧ t.splitOn a = first :: rest ∧
      (s ++ t).splitOn a = before ++ (last ++ first) :: rest := by
  obtain ⟨first, rest, ht⟩ := List.exists_cons_of_ne_nil (List.splitOn_ne_nil a t)
  induction s with
  | nil => exact ⟨[], [], first, rest, rfl, ht, ht⟩
  | cons b s ih =>
    obtain ⟨before, last, first', rest', hs, ht', hst⟩ := ih
    rw [List.cons_append, List.splitOn_cons_eq_if_modifyHead, List.splitOn_cons_eq_if_modifyHead,
      hs, hst]
    split_ifs
    · exact ⟨[] :: before, last, first', rest', rfl, ht', rfl⟩
    · cases before with
      | nil => exact ⟨[], b :: last, first', rest', rfl, ht', rfl⟩
      | cons x before => exact ⟨(b :: x) :: before, last, first', rest', rfl, ht', rfl⟩

theorem notMem_of_mem_splitOn [LawfulBEq α] (h : piece ∈ s.splitOn a) : a ∉ piece := by
  induction s generalizing piece with
  | nil =>
    rw [List.mem_singleton.mp h]
    exact List.not_mem_nil
  | cons b s ih =>
    rw [List.splitOn_cons_eq_if_modifyHead] at h
    obtain ⟨first, rest, hs⟩ := List.exists_cons_of_ne_nil (List.splitOn_ne_nil a s)
    rw [hs] at h ih
    split_ifs at h with hb
    · rcases List.mem_cons.mp h with rfl | h
      · exact List.not_mem_nil
      · exact ih h
    · rcases List.mem_cons.mp h with rfl | h
      · rw [List.mem_cons, not_or]
        exact ⟨fun heq => hb (beq_iff_eq.mpr heq.symm), ih List.mem_cons_self⟩
      · exact ih (List.mem_cons_of_mem _ h)

end Split

namespace JsString

def newline : UInt16 := 10

def lines (s : JsString) : List JsString := s.splitOn newline

/-- `join("\n")`. -/
def unlines (ls : List JsString) : JsString := [newline].intercalate ls

/-- The units that `trim` takes away, and that `\s` matches: white space and line ends. -/
def isWhiteSpace (c : UInt16) : Bool :=
  let n := c.toNat
  (0x9 ≤ n && n ≤ 0xD) || n = 0x20 || n = 0xA0 || n = 0x1680 || (0x2000 ≤ n && n ≤ 0x200A) ||
    n = 0x2028 || n = 0x2029 || n = 0x202F || n = 0x205F || n = 0x3000 || n = 0xFEFF

def trim (s : JsString) : JsString := (s.dropWhile isWhiteSpace).rdropWhile isWhiteSpace

section Lines

variable {s t : JsString} {ls : List JsString}

theorem lines_append (s t : JsString) : lines (s ++ newline :: t) = lines s ++ lines t :=
  List.splitOn_append_cons_self s t

theorem lines_of_notMem (h : newline ∉ s) : lines s = [s] := List.splitOn_eq_singleton h

theorem unlines_cons (hls : ls ≠ []) : unlines (s :: ls) = s ++ newline :: unlines ls := by
  obtain ⟨l, ls, rfl⟩ := List.exists_cons_of_ne_nil hls
  rfl

theorem lines_unlines (hls : ls ≠ []) : lines (unlines ls) = ls.flatMap lines := by
  induction ls with
  | nil => exact absurd rfl hls
  | cons s ls ih =>
    rcases eq_or_ne ls [] with rfl | hne
    · rw [List.flatMap_singleton]
      exact congrArg lines (List.append_nil s)
    · rw [unlines_cons hne, lines_append, ih hne, List.flatMap_cons]

end Lines

section Trim

variable {s t : JsString} {c : UInt16}

theorem trim_cons (hc : isWhiteSpace c) (s : JsString) : trim (c :: s) = trim s := by
  rw [trim, List.dropWhile_cons_of_pos hc, trim]

theorem trim_concat (hc : isWhiteSpace c) (s : JsString) : trim (s ++ [c]) = trim s := by
  rw [trim, List.dropWhile_append, trim]
  split_ifs with h
  · rw [List.dropWhile_cons_of_pos hc, List.isEmpty_iff.mp h, List.dropWhile_nil]
  · exact List.rdropWhile_concat_pos _ _ _ hc

theorem mem_of_mem_trim (h : c ∈ trim s) : c ∈ s :=
  (List.dropWhile_sublist _).mem ((List.rdropWhile_prefix _ _).sublist.mem h)

theorem count_trim (hc : isWhiteSpace c = false) (s : JsString) :
    (trim s).count c = s.count c := by
  have hdrop : ∀ l : JsString, (l.dropWhile isWhiteSpace).count c = l.count c := by
    intro l
    conv_rhs => rw [← List.takeWhile_append_dropWhile (p := isWhiteSpace) (l := l)]
    rw [List.count_append, eq_comm, Nat.add_eq_right, List.count_eq_zero]
    intro h
    have hws := List.mem_takeWhile_imp h
    rw [hc] at hws
    cases hws
  rw [trim, List.rdropWhile, List.count_reverse, hdrop, List.count_reverse, hdrop]

theorem mem_trim (hc : isWhiteSpace c = false) : c ∈ trim s ↔ c ∈ s := by
  rw [← List.count_pos_iff, count_trim hc, List.count_pos_iff]

theorem trim_eq_self (hhead : ∀ c ∈ s.head?, isWhiteSpace c = false)
    (hlast : ∀ c ∈ s.getLast?, isWhiteSpace c = false) : trim s = s := by
  have hdrop : s.dropWhile isWhiteSpace = s := by
    cases s with
    | nil => rfl
    | cons c s => exact List.dropWhile_cons_of_neg (by rw [hhead c rfl]; exact Bool.false_ne_true)
  rw [trim, hdrop, List.rdropWhile_eq_self_iff]
  intro hne hws
  rw [hlast _ (List.getLast?_eq_some_getLast hne)] at hws
  cases hws

theorem trim_of_forall (h : ∀ c ∈ s, isWhiteSpace c = false) : trim s = s :=
  trim_eq_self (fun c hc => h c (List.mem_of_mem_head? hc)) fun c hc =>
    h c (List.mem_of_mem_getLast? hc)

theorem head?_trim (s : JsString) : (trim s).head? = (s.dropWhile isWhiteSpace).head? := by
  rw [trim]
  obtain ⟨t, ht⟩ := List.rdropWhile_prefix isWhiteSpace (s.dropWhile isWhiteSpace)
  cases hs : (s.dropWhile isWhiteSpace).rdropWhile isWhiteSpace with
  | cons c l => rw [← ht, hs]; rfl
  | nil =>
    have hall := (List.rdropWhile_eq_nil_iff (p := isWhiteSpace)).mp hs
    cases hdrop : s.dropWhile isWhiteSpace with
    | nil => rfl
    | cons c l =>
      have hc := hall c (hdrop ▸ List.mem_cons_self)
      have hne : s.dropWhile isWhiteSpace ≠ [] := by rw [hdrop]; exact List.cons_ne_nil c l
      have hhead := List.head_dropWhile_not isWhiteSpace hne
      simp only [hdrop, List.head_cons] at hhead
      rw [hc] at hhead
      cases hhead

theorem head?_trim_not (s : JsString) : ∀ c ∈ (trim s).head?, isWhiteSpace c = false := by
  intro c hc
  rw [head?_trim] at hc
  obtain ⟨l, hl⟩ := List.head?_eq_some_iff.mp hc
  have hne : s.dropWhile isWhiteSpace ≠ [] := by rw [hl]; exact List.cons_ne_nil c l
  have hhead := List.head_dropWhile_not isWhiteSpace hne
  simpa only [hl, List.head_cons] using hhead

theorem getLast?_trim_not (s : JsString) : ∀ c ∈ (trim s).getLast?, isWhiteSpace c = false := by
  intro c hc
  obtain ⟨hne, rfl⟩ := List.mem_getLast?_eq_getLast hc
  exact Bool.eq_false_iff.mpr (List.rdropWhile_last_not _ _ hne)

@[simp] theorem trim_trim (s : JsString) : trim (trim s) = trim s :=
  trim_eq_self (head?_trim_not s) (getLast?_trim_not s)

end Trim

/-- `Buffer.byteLength(s, "utf8")`: four bytes for a pair of units, three for half of one. -/
def byteLength : JsString → ℕ
  | [] => 0
  | c :: rest =>
    (if c.toNat < 0x80 then 1
      else if c.toNat < 0x800 then 2
      else if 0xD800 ≤ c.toNat ∧ c.toNat < 0xDC00 ∧
          rest.head?.any (fun d => 0xDC00 ≤ d.toNat && d.toNat < 0xE000) then 1
      else 3) + byteLength rest

/-! ### Numbers -/

def isDigit (c : UInt16) : Bool := 48 ≤ c.toNat && c.toNat ≤ 57

def decimal (n : ℕ) : JsString := (Nat.toDigits 10 n).map fun c => c.toNat.toUInt16

/-- The number that decimal digits make. -/
def number (ds : JsString) : ℕ := ds.foldl (fun n c => 10 * n + (c.toNat - 48)) 0

section Decimal

variable {c : UInt16} {n d : ℕ}

theorem digitChar_unit (h : d < 10) : d.digitChar.toNat.toUInt16 = (48 + d).toUInt16 := by
  have hall : ∀ d < 10, d.digitChar.toNat.toUInt16 = (48 + d).toUInt16 := by decide
  exact hall d h

theorem toNat_digit (h : d < 10) : (48 + d).toUInt16.toNat = 48 + d := by
  have hall : ∀ d < 10, (48 + d).toUInt16.toNat = 48 + d := by decide
  exact hall d h

theorem decimal_eq (n : ℕ) :
    decimal n = (if n < 10 then [] else decimal (n / 10)) ++ [(48 + n % 10).toUInt16] := by
  unfold decimal
  rw [Nat.toDigits_eq_if (by omega)]
  split_ifs with h
  · rw [Nat.mod_eq_of_lt h, List.map_singleton, digitChar_unit h, List.nil_append]
  · rw [List.map_append, List.map_singleton, digitChar_unit (Nat.mod_lt n (by omega))]

theorem isDigit_of_mem_decimal (h : c ∈ decimal n) : isDigit c := by
  induction n using Nat.strong_induction_on with
  | _ n ih =>
    rw [decimal_eq, List.mem_append, List.mem_singleton] at h
    rcases h with h | rfl
    · split_ifs at h
      · cases h
      · exact ih (n / 10) (by omega) h
    · have hlt : n % 10 < 10 := Nat.mod_lt n (by omega)
      rw [isDigit, toNat_digit hlt]
      simp only [Bool.and_eq_true, decide_eq_true_eq]
      omega

theorem decimal_ne_nil (n : ℕ) : decimal n ≠ [] := by
  rw [decimal_eq]
  exact List.append_ne_nil_of_right_ne_nil _ (List.cons_ne_nil _ _)

theorem number_decimal (n : ℕ) : number (decimal n) = n := by
  induction n using Nat.strong_induction_on with
  | _ n ih =>
    have hlt : n % 10 < 10 := Nat.mod_lt n (by omega)
    rw [decimal_eq, number, List.foldl_append, List.foldl_cons, List.foldl_nil, toNat_digit hlt]
    split_ifs with h
    · rw [List.foldl_nil]
      omega
    · have hrest := ih (n / 10) (by omega)
      rw [number] at hrest
      omega

theorem isWhiteSpace_of_isDigit (h : isDigit c) : isWhiteSpace c = false := by
  rw [isDigit, Bool.and_eq_true, decide_eq_true_eq, decide_eq_true_eq] at h
  unfold isWhiteSpace
  simp only [Bool.or_eq_false_iff, Bool.and_eq_false_iff, decide_eq_false_iff_not]
  omega

end Decimal

/-! ### Replacing -/

/-- A template for what is put in the place of an occurrence: `$$` is a dollar sign, `$&` what
occurs there, and the other two are what stands before and behind it. -/
def getSubstitution (matched s : JsString) (position : ℕ) : JsString → JsString
  | 36 :: 36 :: template => 36 :: getSubstitution matched s position template
  | 36 :: 38 :: template => matched ++ getSubstitution matched s position template
  | 36 :: 96 :: template => s.take position ++ getSubstitution matched s position template
  | 36 :: 39 :: template =>
    s.drop (position + matched.length) ++ getSubstitution matched s position template
  | c :: template => c :: getSubstitution matched s position template
  | [] => []

/-- The string, with something else at these positions, from where the one before ends. -/
def replaceAt (search s template : JsString) : ℕ → List ℕ → JsString
  | endOfLast, [] => s.drop endOfLast
  | endOfLast, position :: positions =>
    substring s endOfLast position ++ getSubstitution search s position template ++
      replaceAt search s template (position + search.length) positions

def replaceAll (s search template : JsString) : JsString :=
  replaceAt search s template 0 (occurrences search 0 0 s)

end JsString

end OpenCms
