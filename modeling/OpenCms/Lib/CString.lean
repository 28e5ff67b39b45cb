import Mathlib.Data.List.Basic
import Mathlib.Data.List.Infix
import Mathlib.Data.List.TakeWhile

/-!
# C strings as byte lists

A `char *` of a C program is read here as the list of the bytes before its
terminator, so that the usual scanning functions become recursions on a list:
`OpenCms.strchr` and `OpenCms.strstr` return the *suffix* their C namesakes
point to, and a pointer difference is a difference of lengths.

A buffer that was filled by `recv` or `fread` may hold a zero byte before its
end; `OpenCms.cstr` is the string a C function sees in it.

The two facts a proof about a hand-written parser needs are the ones of the last
section: a search is blind to bytes that cannot start its pattern
(`OpenCms.strstr_append_of_notMem`), and a match found in a prefix is the match
of the whole (`OpenCms.strstr_append`).
-/

namespace OpenCms

abbrev Byte := UInt8

/-- A buffer, or the C string it holds: the bytes before the terminator. -/
abbrev Bytes := List Byte

def lit (s : String) : Bytes := s.toList.flatMap String.utf8EncodeChar

theorem lit_ofList (l : List Char) : lit (String.ofList l) = l.flatMap String.utf8EncodeChar := by
  rw [lit, String.toList_ofList]

/-- The C string a buffer holds: what stands before its first zero byte. -/
def cstr (b : Bytes) : Bytes := b.takeWhile (· != 0)

def strchr (c : Byte) : Bytes → Option Bytes
  | [] => none
  | d :: s => if d = c then some (d :: s) else strchr c s

/-- `strstr`: the suffix that begins at the first occurrence of `pat`. -/
def strstr : Bytes → Bytes → Option Bytes
  | [], pat => if pat = [] then some [] else none
  | c :: s, pat => if pat.isPrefixOf (c :: s) then some (c :: s) else strstr s pat

def fit (size : ℕ) (s : Bytes) : Bytes := s.take (size - 1)

/-! ### Buffers without a zero byte -/

theorem cstr_of_notMem {b : Bytes} (h : (0 : Byte) ∉ b) : cstr b = b := by
  rw [cstr, List.takeWhile_eq_self_iff]
  intro x hx
  simpa using fun hc : x = 0 => h (hc ▸ hx)

theorem zero_notMem_cstr (b : Bytes) : (0 : Byte) ∉ cstr b := by
  intro h
  simpa using List.mem_takeWhile_imp h

theorem cstr_isPrefix (b : Bytes) : cstr b <+: b := List.takeWhile_prefix _

theorem cstr_append {b : Bytes} (h : (0 : Byte) ∉ b) (s : Bytes) : cstr (b ++ s) = b ++ cstr s := by
  refine List.takeWhile_append_of_pos fun x hx => ?_
  simpa using fun hc : x = 0 => h (hc ▸ hx)

theorem fit_of_lt {size : ℕ} {s : Bytes} (h : s.length < size) : fit size s = s :=
  List.take_of_length_le (by omega)

theorem mem_of_mem_fit {size : ℕ} {s : Bytes} {c : Byte} (h : c ∈ fit size s) : c ∈ s :=
  List.mem_of_mem_take h

/-- **The first occurrence of a character cuts a string in one way**, and what is
behind the cut is compared on its own. -/
theorem prefix_cut {c : Byte} {x v a b : Bytes} (hx : c ∉ x) (hv : c ∉ v)
    (h : x ++ c :: a <+: v ++ c :: b) : x = v ∧ a <+: b := by
  induction x generalizing v with
  | nil =>
    cases v with
    | nil => exact ⟨rfl, (List.cons_prefix_cons.mp h).2⟩
    | cons d v =>
      obtain ⟨rfl, -⟩ := List.cons_prefix_cons.mp h
      exact absurd List.mem_cons_self hv
  | cons d x ih =>
    cases v with
    | nil =>
      obtain ⟨rfl, -⟩ := List.cons_prefix_cons.mp h
      exact absurd List.mem_cons_self hx
    | cons e v =>
      obtain ⟨rfl, h'⟩ := List.cons_prefix_cons.mp h
      obtain ⟨rfl, hab⟩ := ih (fun hc => hx (List.mem_cons_of_mem _ hc))
        (fun hc => hv (List.mem_cons_of_mem _ hc)) h'
      exact ⟨rfl, hab⟩

theorem append_cut {c : Byte} {x v a b : Bytes} (hx : c ∉ x) (hv : c ∉ v)
    (h : x ++ c :: a = v ++ c :: b) : x = v ∧ a = b := by
  have hp : x ++ c :: a <+: v ++ c :: b := by rw [h]
  obtain ⟨rfl, -⟩ := prefix_cut hx hv hp
  exact ⟨rfl, by simpa using h⟩

theorem takeWhile_append_sep (c : Byte) (v b : Bytes) :
    (v ++ c :: b).takeWhile (· != c) = v.takeWhile (· != c) := by
  induction v with
  | nil => simp
  | cons d v ih =>
    by_cases hd : (d != c) = true
    · simp [hd, ih]
    · simp [hd]

theorem takeWhile_of_isPrefix {c : Byte} {x a s : Bytes} (hx : c ∉ x) (h : x ++ c :: a <+: s) :
    s.takeWhile (· != c) = x := by
  obtain ⟨t, rfl⟩ := h
  rw [List.append_assoc, List.cons_append, takeWhile_append_sep, List.takeWhile_eq_self_iff]
  intro d hd
  simpa using fun hc : d = c => hx (hc ▸ hd)

/-! ### `strchr` -/

theorem strchr_append {c : Byte} {pre : Bytes} (h : c ∉ pre) (t : Bytes) :
    strchr c (pre ++ c :: t) = some (c :: t) := by
  induction pre with
  | nil => simp [strchr]
  | cons d pre ih =>
    obtain ⟨hd, hpre⟩ : ¬c = d ∧ c ∉ pre := by simpa using h
    rw [List.cons_append, strchr, if_neg (Ne.symm hd), ih hpre]

/-- **What `strchr` finds** is the first occurrence: nothing before it is the
character looked for. -/
theorem strchr_eq_some {c : Byte} {s t : Bytes} (h : strchr c s = some t) :
    ∃ pre rest, s = pre ++ c :: rest ∧ c ∉ pre ∧ t = c :: rest := by
  induction s with
  | nil => simp [strchr] at h
  | cons d s ih =>
    rw [strchr] at h
    split at h
    · next hd =>
      obtain rfl : d :: s = t := by simpa using h
      exact ⟨[], s, by simp [hd], by simp, by rw [hd]⟩
    · next hd =>
      obtain ⟨pre, rest, rfl, hpre, rfl⟩ := ih h
      exact ⟨d :: pre, rest, by simp, by simpa using ⟨Ne.symm hd, hpre⟩, rfl⟩

/-! ### `strstr` -/

theorem strstr_of_isPrefix {s pat : Bytes} (h : pat <+: s) : strstr s pat = some s := by
  cases s with
  | nil => simp [strstr, List.prefix_nil.mp h]
  | cons c s => rw [strstr, if_pos (List.isPrefixOf_iff_prefix.mpr h)]

theorem strstr_cons {c : Byte} {s pat : Bytes} (h : ¬pat <+: c :: s) :
    strstr (c :: s) pat = strstr s pat := by
  rw [strstr, if_neg (by rwa [List.isPrefixOf_iff_prefix])]

theorem strstr_eq_some {s pat t : Bytes} (h : strstr s pat = some t) :
    ∃ pre rest, s = pre ++ t ∧ t = pat ++ rest := by
  induction s with
  | nil =>
    rw [strstr] at h
    split at h
    · next hp =>
      obtain rfl : [] = t := by simpa using h
      exact ⟨[], [], rfl, by simp [hp]⟩
    · simp at h
  | cons c s ih =>
    by_cases hp : pat <+: c :: s
    · rw [strstr_of_isPrefix hp] at h
      obtain rfl : c :: s = t := by simpa using h
      obtain ⟨rest, hrest⟩ := hp
      exact ⟨[], rest, rfl, hrest.symm⟩
    · rw [strstr_cons hp] at h
      obtain ⟨pre, rest, rfl, ht⟩ := ih h
      exact ⟨c :: pre, rest, rfl, ht⟩

/-- **`strstr` fails exactly when the pattern does not occur.** -/
theorem strstr_eq_none_iff {s pat : Bytes} : strstr s pat = none ↔ ¬pat <:+: s := by
  induction s with
  | nil =>
    rw [strstr, List.infix_nil]
    split <;> simp_all
  | cons c s ih =>
    by_cases hp : pat <+: c :: s
    · rw [strstr_of_isPrefix hp]
      simpa using hp.isInfix
    · rw [strstr_cons hp, ih, List.infix_cons_iff]
      simp [hp]

theorem strstr_isSome_iff {s pat : Bytes} : (strstr s pat).isSome ↔ pat <:+: s := by
  rw [← not_iff_not, Bool.not_eq_true, Option.isSome_eq_false_iff, Option.isNone_iff_eq_none]
  exact strstr_eq_none_iff

theorem strstr_append_of_notMem {c : Byte} {pat pre : Bytes} (h : c ∉ pre) (s : Bytes) :
    strstr (pre ++ s) (c :: pat) = strstr s (c :: pat) := by
  induction pre with
  | nil => rfl
  | cons d pre ih =>
    obtain ⟨hd, hpre⟩ : ¬c = d ∧ c ∉ pre := by simpa using h
    rw [List.cons_append, strstr_cons, ih hpre]
    simp [List.cons_prefix_cons, hd]

/-- **A match in a prefix is the match of the whole.** Bytes that arrive later
cannot move a first occurrence that has been seen. -/
theorem strstr_append {s pat t : Bytes} (h : strstr s pat = some t) (q : Bytes) :
    strstr (s ++ q) pat = some (t ++ q) := by
  induction s with
  | nil =>
    rw [strstr] at h
    split at h
    · next hp =>
      obtain rfl : [] = t := by simpa using h
      rw [hp]
      exact strstr_of_isPrefix List.nil_prefix
    · simp at h
  | cons c s ih =>
    by_cases hp : pat <+: c :: s
    · rw [strstr_of_isPrefix hp] at h
      obtain rfl : c :: s = t := by simpa using h
      exact strstr_of_isPrefix (hp.trans (List.prefix_append _ _))
    · rw [strstr_cons hp] at h
      obtain ⟨pre, rest, hs, ht⟩ := strstr_eq_some h
      have hlen : pat.length ≤ s.length := by
        rw [hs, ht]
        simp
        omega
      have hq : ¬pat <+: c :: (s ++ q) := by
        intro hc
        have hw : c :: s <+: c :: (s ++ q) := ⟨q, by simp⟩
        refine hp (List.prefix_of_prefix_length_le hc hw ?_)
        simp
        omega
      rw [List.cons_append, strstr_cons hq, ih h]

theorem strstr_append_border {c : Byte} {g pre : Bytes} (hg : c ∉ g) (h : ¬c :: g <:+: pre)
    (s : Bytes) : strstr (pre ++ c :: s) (c :: g) = strstr (c :: s) (c :: g) := by
  induction pre with
  | nil => rfl
  | cons d pre ih =>
    rw [List.infix_cons_iff, not_or] at h
    have hhere : ¬c :: g <+: d :: (pre ++ c :: s) := by
      rintro hp
      obtain ⟨rfl, hg'⟩ := List.cons_prefix_cons.mp hp
      rcases Nat.lt_or_ge pre.length g.length with hlt | hge
      · -- the pattern would reach over the border, and hold its first byte again
        have hborder : pre ++ [c] <+: pre ++ c :: s := ⟨s, by simp⟩
        have hlen : (pre ++ [c]).length ≤ g.length := by
          rw [List.length_append, List.length_singleton]
          omega
        have hin : pre ++ [c] <+: g := List.prefix_of_prefix_length_le hborder hg' hlen
        exact hg (hin.subset List.mem_concat_self)
      · have hin : g <+: pre :=
          List.prefix_of_prefix_length_le hg' (List.prefix_append _ _) hge
        exact h.1 (List.cons_prefix_cons.mpr ⟨rfl, hin⟩)
    rw [List.cons_append, strstr_cons hhere, ih h.2]

theorem strstr_of_first {pat pre : Bytes} (h : ¬pat <:+: pre ++ pat.dropLast) (s : Bytes) :
    strstr (pre ++ (pat ++ s)) pat = some (pat ++ s) := by
  induction pre with
  | nil => exact strstr_of_isPrefix (List.prefix_append _ _)
  | cons d pre ih =>
    rw [List.cons_append, List.infix_cons_iff, not_or] at h
    have hhere : ¬pat <+: d :: (pre ++ (pat ++ s)) := by
      intro hp
      have hcut : d :: (pre ++ pat.dropLast) <+: d :: (pre ++ (pat ++ s)) := by
        rw [List.cons_prefix_cons]
        exact ⟨rfl, (List.prefix_append_right_inj pre).mpr
          ((List.dropLast_prefix pat).trans (List.prefix_append _ _))⟩
      refine h.1 (List.prefix_of_prefix_length_le hp hcut ?_)
      simp only [List.length_cons, List.length_append, List.length_dropLast]
      omega
    rw [List.cons_append, strstr_cons hhere, ih h.2]

/-- The text before the first occurrence of a pattern, or the whole. -/
def before (pat s : Bytes) : Bytes :=
  match strstr s pat with
  | some t => s.take (s.length - t.length)
  | none => s

theorem before_append {pat s : Bytes} (h : pat <:+: s) (q : Bytes) :
    before pat (s ++ q) = before pat s := by
  obtain ⟨t, ht⟩ := Option.isSome_iff_exists.mp (strstr_isSome_iff.mpr h)
  simp only [before, ht, strstr_append ht q, List.length_append]
  rw [Nat.add_sub_add_right, List.take_append_of_le_length (Nat.sub_le _ _)]

/-- A first occurrence that is complete in a beginning is the first of the beginning. -/
theorem strstr_of_append {pat u t q : Bytes} (h : strstr (u ++ q) pat = some (t ++ q))
    (hin : pat <:+: u) : strstr u pat = some t := by
  obtain ⟨t', ht'⟩ := Option.isSome_iff_exists.mp (strstr_isSome_iff.mpr hin)
  have happ := (strstr_append ht' q).symm.trans h
  rw [ht', List.append_cancel_right (Option.some.inj happ)]

end OpenCms
