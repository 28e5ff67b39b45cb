import OpenCms.Lib.JsString

/-!
# Wildcard patterns

A permission rule names tools and arguments by patterns in which `*` stands for any
text and `?` for any character. `OpenCms.Wildcard.match'` turns a pattern into the
pieces of a regular expression and runs it over the whole string; a pattern that ends
in a blank and a star matches its first part alone as well, so that `ls *` covers `ls`.

What the pieces match is said without the search by
`OpenCms.Wildcard.matchPieces_append_iff`: the string falls into parts that they match in
turn. That the text of the expression is read as these pieces is
`OpenCms.Wildcard.read_expression`, and that a pattern is a glob is
`OpenCms.Wildcard.match_iff_glob`.
-/

namespace OpenCms.Wildcard

/-! ### The expression of a pattern -/

/-- A piece of the regular expression built for a pattern. -/
inductive Piece
  /-- One code unit, with a backslash before it where it would mean something else. -/
  | unit (c : UInt16)
  /-- `.`, with the flag that lets it stand for a line end. -/
  | any
  /-- `.*`. -/
  | anyStar
  /-- `( .*)?`. -/
  | args
  deriving DecidableEq

/-- The code unit of a blank. -/
def blank : UInt16 := 32

def escape (c : UInt16) : Piece :=
  if c = 42 then .anyStar else if c = 63 then .any else .unit c

/-- `replaceAll("\\", "/")`. -/
def slashes (s : JsString) : JsString := s.map fun c => if c = 92 then 47 else c

/-- The pieces of a pattern, its trailing ` *` made optional. -/
def pieces (pattern : JsString) : List Piece :=
  let escaped := (slashes pattern).map escape
  if [.unit blank, .anyStar] <:+ escaped then escaped.dropLast.dropLast ++ [.args] else escaped

section Match

-- What the expression engine compares code units by: themselves, or with the flag set on
-- Windows their case folding.
variable (canon : UInt16 → UInt16)

/-- What is left of a string once a piece has taken some of its front, for each way to
take it. -/
def Piece.rests : Piece → JsString → List JsString
  | .unit _, [] => []
  | .unit c, d :: s => if canon c = canon d then [s] else []
  | .any, [] => []
  | .any, _ :: s => [s]
  | .anyStar, s => s.tails
  | .args, [] => [[]]
  | .args, d :: s => (d :: s) :: if canon blank = canon d then s.tails else []

def matchPieces : List Piece → JsString → Bool
  | [], s => s.isEmpty
  | p :: ps, s => (p.rests canon s).any (matchPieces ps)

def match' (str pattern : JsString) : Bool := matchPieces canon (pieces pattern) (slashes str)

/-! ### What a pattern matches -/

def Piece.Accepts : Piece → JsString → Prop
  | .unit c, w => ∃ d, w = [d] ∧ canon c = canon d
  | .any, w => ∃ d, w = [d]
  | .anyStar, _ => True
  | .args, w => w = [] ∨ ∃ d v, w = d :: v ∧ canon blank = canon d

variable {canon}

theorem mem_tails_iff {r s : JsString} : r ∈ s.tails ↔ ∃ w, s = w ++ r := by
  rw [List.mem_tails]
  exact ⟨fun ⟨w, h⟩ => ⟨w, h.symm⟩, fun ⟨w, h⟩ => ⟨w, h.symm⟩⟩

theorem Piece.mem_rests_iff {p : Piece} {r s : JsString} :
    r ∈ p.rests canon s ↔ ∃ w, s = w ++ r ∧ p.Accepts canon w := by
  cases p with
  | unit c =>
    cases s with
    | nil => simp [rests, Accepts]
    | cons d s =>
      constructor
      · intro h
        obtain ⟨hc, rfl⟩ : canon c = canon d ∧ r = s := by simpa [rests] using h
        exact ⟨[d], rfl, d, rfl, hc⟩
      · rintro ⟨w, hw, e, rfl, hc⟩
        obtain ⟨rfl, rfl⟩ : d = e ∧ s = r := by simpa using hw
        simp [rests, hc]
  | any =>
    cases s with
    | nil => simp [rests, Accepts]
    | cons d s =>
      constructor
      · intro h
        obtain rfl : r = s := by simpa [rests] using h
        exact ⟨[d], rfl, d, rfl⟩
      · rintro ⟨w, hw, e, rfl⟩
        obtain ⟨-, rfl⟩ : d = e ∧ s = r := by simpa using hw
        simp [rests]
  | anyStar =>
    rw [rests, mem_tails_iff]
    exact exists_congr fun w => (and_iff_left trivial).symm
  | args =>
    cases s with
    | nil => simp [rests, Accepts]
    | cons d s =>
      have hrests : r ∈ Piece.args.rests canon (d :: s) ↔
          r = d :: s ∨ canon blank = canon d ∧ r ∈ s.tails := by
        by_cases hd : canon blank = canon d <;> simp [rests, hd]
      rw [hrests]
      constructor
      · rintro (rfl | ⟨hd, hr⟩)
        · exact ⟨[], rfl, Or.inl rfl⟩
        · obtain ⟨w, rfl⟩ := mem_tails_iff.mp hr
          exact ⟨d :: w, rfl, Or.inr ⟨d, w, rfl, hd⟩⟩
      · rintro ⟨w, hw, rfl | ⟨e, v, rfl, he⟩⟩
        · exact Or.inl hw.symm
        · obtain ⟨rfl, rfl⟩ : d = e ∧ s = v ++ r := by simpa using hw
          exact Or.inr ⟨he, mem_tails_iff.mpr ⟨v, rfl⟩⟩

theorem matchPieces_cons_iff {p : Piece} {ps : List Piece} {s : JsString} :
    matchPieces canon (p :: ps) s = true ↔
      ∃ w r, s = w ++ r ∧ p.Accepts canon w ∧ matchPieces canon ps r = true := by
  rw [matchPieces, List.any_eq_true]
  constructor
  · rintro ⟨r, hr, hm⟩
    obtain ⟨w, hs, hw⟩ := Piece.mem_rests_iff.mp hr
    exact ⟨w, r, hs, hw, hm⟩
  · rintro ⟨w, r, hs, hw, hm⟩
    exact ⟨r, Piece.mem_rests_iff.mpr ⟨w, hs, hw⟩, hm⟩

/-- **A string matches pieces in turn when it falls into two parts that they match.** -/
theorem matchPieces_append_iff {ps qs : List Piece} {s : JsString} :
    matchPieces canon (ps ++ qs) s = true ↔
      ∃ w r, s = w ++ r ∧ matchPieces canon ps w = true ∧ matchPieces canon qs r = true := by
  induction ps generalizing s with
  | nil =>
    constructor
    · intro h
      exact ⟨[], s, rfl, rfl, h⟩
    · rintro ⟨w, r, rfl, hw, hr⟩
      rw [List.isEmpty_iff.mp hw]
      exact hr
  | cons p ps ih =>
    rw [List.cons_append, matchPieces_cons_iff]
    constructor
    · rintro ⟨v, t, rfl, hv, ht⟩
      obtain ⟨w, r, rfl, hw, hr⟩ := ih.mp ht
      exact ⟨v ++ w, r, (List.append_assoc ..).symm,
        matchPieces_cons_iff.mpr ⟨v, w, rfl, hv, hw⟩, hr⟩
    · rintro ⟨u, r, rfl, hu, hr⟩
      obtain ⟨v, w, rfl, hv, hw⟩ := matchPieces_cons_iff.mp hu
      exact ⟨v, w ++ r, List.append_assoc .., hv, ih.mpr ⟨w, r, rfl, hw, hr⟩⟩

end Match

/-! ### The text of the expression

The expression is made as a text, by one rewriting after another, and the engine reads that
text again. What it reads are the pieces. -/

def special : JsString := js ".+^$\x7b\x7d()|[]\\"

def escapeSpecial (s : JsString) : JsString :=
  s.flatMap fun c => if c ∈ special then [92, c] else [c]

def expandStars (s : JsString) : JsString := s.flatMap fun c => if c = 42 then js ".*" else [c]

/-- Each question mark becomes `.`. -/
def expandMarks (s : JsString) : JsString := s.flatMap fun c => if c = 63 then js "." else [c]

/-- The text of the expression, between `^` and `$`. -/
def expression (pattern : JsString) : JsString :=
  let escaped := expandMarks (expandStars (escapeSpecial (slashes pattern)))
  if js " .*" <:+ escaped then escaped.take (escaped.length - 3) ++ js "( .*)?" else escaped

/-- What the engine reads in a text, of the expressions that are made here. -/
def read : JsString → Option (List Piece)
  | [] => some []
  | c :: s =>
    if c = 92 then
      match s with
      | [] => none
      | d :: s => if d ∈ special then (read s).map (.unit d :: ·) else none
    else if c = 46 then
      match s with
      | [] => some [.any]
      | d :: t => if d = 42 then (read t).map (.anyStar :: ·) else (read (d :: t)).map (.any :: ·)
    else if c = 40 then if s = js " .*)?" then some [.args] else none
    else if c ∈ special ∨ c = 42 ∨ c = 63 then none
    else (read s).map (.unit c :: ·)

def Piece.text : Piece → JsString
  | .unit c => if c ∈ special then [92, c] else [c]
  | .any => js "."
  | .anyStar => js ".*"
  | .args => js "( .*)?"

theorem text_escape (c : UInt16) :
    expandMarks (expandStars (escapeSpecial [c])) = (escape c).text := by
  have hstar : (42 : UInt16) ∉ special := by decide
  have hmark : (63 : UInt16) ∉ special := by decide
  by_cases h42 : c = 42
  · subst h42
    decide
  by_cases h63 : c = 63
  · subst h63
    decide
  by_cases hc : c ∈ special
  · simp [escapeSpecial, expandStars, expandMarks, escape, Piece.text, h42, h63, hc]
  · simp [escapeSpecial, expandStars, expandMarks, escape, Piece.text, h42, h63, hc]

theorem rewritten_eq (s : JsString) :
    expandMarks (expandStars (escapeSpecial s)) = (s.map escape).flatMap Piece.text := by
  induction s with
  | nil => rfl
  | cons c s ih =>
    have hcons : expandMarks (expandStars (escapeSpecial (c :: s))) =
        expandMarks (expandStars (escapeSpecial [c])) ++
          expandMarks (expandStars (escapeSpecial s)) := by
      simp [escapeSpecial, expandStars, expandMarks]
    rw [hcons, text_escape, ih, List.map_cons, List.flatMap_cons]

theorem getLast?_text_escape (u : JsString) (c : UInt16) :
    ((u ++ (escape c).text).getLast? = some 42 → c = 42) ∧
      ((u ++ (escape c).text).getLast? = some blank → c = blank) := by
  by_cases h42 : c = 42
  · subst h42
    simp [escape, Piece.text, js, utf16, blank]
  by_cases h63 : c = 63
  · subst h63
    simp [escape, Piece.text, js, utf16, blank]
  by_cases hc : c ∈ special
  · simp [escape, Piece.text, h42, h63, hc]
  · simp [escape, Piece.text, h42, h63, hc]

theorem exists_of_suffix_text {s : JsString}
    (h : js " .*" <:+ (s.map escape).flatMap Piece.text) : ∃ p, s = p ++ js " *" := by
  obtain ⟨u, hu⟩ := h
  rcases List.eq_nil_or_concat s with rfl | ⟨t, c, rfl⟩
  · simp [js, utf16] at hu
  rw [List.concat_eq_append, List.map_append, List.flatMap_append, List.map_singleton,
    List.flatMap_singleton] at hu
  obtain rfl : c = 42 := by
    refine (getLast?_text_escape ((t.map escape).flatMap Piece.text) c).1 ?_
    rw [← hu, List.getLast?_append]
    rfl
  have ht : u ++ [blank] = (t.map escape).flatMap Piece.text := by
    have hsplit : (u ++ [blank]) ++ js ".*" = (t.map escape).flatMap Piece.text ++ js ".*" := by
      rw [List.append_assoc]
      exact hu
    exact List.append_cancel_right hsplit
  rcases List.eq_nil_or_concat t with rfl | ⟨p, d, rfl⟩
  · simp at ht
  rw [List.concat_eq_append, List.map_append, List.flatMap_append, List.map_singleton,
    List.flatMap_singleton] at ht
  obtain rfl : d = blank := by
    refine (getLast?_text_escape ((p.map escape).flatMap Piece.text) d).2 ?_
    rw [← ht, List.getLast?_append]
    rfl
  exact ⟨p, by simp [js, utf16, blank]⟩

theorem exists_of_suffix_pieces {s : JsString}
    (h : [.unit blank, .anyStar] <:+ s.map escape) : ∃ p, s = p ++ js " *" := by
  obtain ⟨ps, hps⟩ := h
  refine exists_of_suffix_text ⟨ps.flatMap Piece.text, ?_⟩
  rw [← hps, List.flatMap_append]
  rfl

theorem expression_args {pattern p : JsString} (h : slashes pattern = p ++ js " *") :
    expression pattern = (p.map escape).flatMap Piece.text ++ js "( .*)?" ∧
      pieces pattern = p.map escape ++ [.args] := by
  have hmap : (slashes pattern).map escape = p.map escape ++ [.unit blank, .anyStar] := by
    rw [h, List.map_append]
    rfl
  have htext : ((slashes pattern).map escape).flatMap Piece.text =
      (p.map escape).flatMap Piece.text ++ js " .*" := by
    rw [hmap, List.flatMap_append]
    rfl
  constructor
  · rw [expression, rewritten_eq, htext, if_pos (List.suffix_append _ _)]
    congr 1
    exact List.take_left' (by simp [js, utf16])
  · rw [pieces, hmap, if_pos (List.suffix_append _ _)]
    simp

theorem expression_bare {pattern : JsString} (h : ¬∃ p, slashes pattern = p ++ js " *") :
    expression pattern = ((slashes pattern).map escape).flatMap Piece.text ∧
      pieces pattern = (slashes pattern).map escape := by
  rw [expression, pieces, rewritten_eq, if_neg (h ∘ exists_of_suffix_text),
    if_neg (h ∘ exists_of_suffix_pieces)]
  exact ⟨rfl, rfl⟩

/-- What one character is replaced by does not start with a star. -/
theorem head?_text_escape (c : UInt16) (u : JsString) : ((escape c).text ++ u).head? ≠ some 42 := by
  by_cases h42 : c = 42
  · subst h42
    simp [escape, Piece.text, js, utf16]
  by_cases h63 : c = 63
  · subst h63
    simp [escape, Piece.text, js, utf16]
  by_cases hc : c ∈ special
  · simp [escape, Piece.text, h42, h63, hc]
  · simp [escape, Piece.text, h42, h63, hc]

theorem read_text_escape (c : UInt16) {u : JsString} (hu : u.head? ≠ some 42) :
    read ((escape c).text ++ u) = (read u).map (escape c :: ·) := by
  by_cases h42 : c = 42
  · subst h42
    show read (46 :: 42 :: u) = _
    simp [read, escape]
  by_cases h63 : c = 63
  · subst h63
    show read (46 :: u) = _
    cases u with
    | nil => rfl
    | cons d t =>
      have hd : d ≠ 42 := by simpa using hu
      simp [read, escape, hd]
  have hunit : escape c = .unit c := by simp [escape, h42, h63]
  rw [hunit]
  by_cases hc : c ∈ special
  · have htext : (Piece.unit c).text ++ u = 92 :: c :: u := by simp [Piece.text, hc]
    rw [htext]
    simp [read, hc]
  · have htext : (Piece.unit c).text ++ u = c :: u := by simp [Piece.text, hc]
    have h92 : c ≠ 92 := fun h => hc (h ▸ by decide)
    have h46 : c ≠ 46 := fun h => hc (h ▸ by decide)
    have h40 : c ≠ 40 := fun h => hc (h ▸ by decide)
    rw [htext, read.eq_def]
    simp [hc, h42, h63, h92, h46, h40]

theorem read_text (s : JsString) {u : JsString} (hu : u.head? ≠ some 42) :
    read ((s.map escape).flatMap Piece.text ++ u) = (read u).map (s.map escape ++ ·) := by
  induction s with
  | nil => exact Option.map_id'.symm
  | cons c s ih =>
    have hrest : ((s.map escape).flatMap Piece.text ++ u).head? ≠ some 42 := by
      cases s with
      | nil => exact hu
      | cons d s =>
        rw [List.map_cons, List.flatMap_cons, List.append_assoc]
        exact head?_text_escape d _
    rw [List.map_cons, List.flatMap_cons, List.append_assoc, read_text_escape c hrest, ih,
      Option.map_map]
    rfl

/-- **The engine reads the text of the expression as the pieces of the pattern.** -/
theorem read_expression (pattern : JsString) :
    read (expression pattern) = some (pieces pattern) := by
  by_cases h : ∃ p, slashes pattern = p ++ js " *"
  · obtain ⟨p, hp⟩ := h
    obtain ⟨htext, hpieces⟩ := expression_args hp
    have hargs : read (js "( .*)?") = some [.args] := by
      rw [js_ofList]
      decide
    rw [htext, hpieces, read_text p (by decide), hargs, Option.map_some]
  · obtain ⟨htext, hpieces⟩ := expression_bare h
    rw [htext, hpieces]
    have hread := read_text (slashes pattern) (u := []) (by simp)
    rw [List.append_nil] at hread
    simpa [read] using hread

/-! ### Patterns are globs -/

/-- What a glob stands for: `*` for any sequence, `?` for one unit, any other unit for itself. -/
inductive Glob : JsString → JsString → Prop
  | nil : Glob [] []
  | star (w : JsString) {p s} : Glob p s → Glob (42 :: p) (w ++ s)
  | mark (d : UInt16) {p s} : Glob p s → Glob (63 :: p) (d :: s)
  | unit {c p s} : c ≠ 42 → c ≠ 63 → Glob p s → Glob (c :: p) (c :: s)

theorem matchPieces_map_escape {p s : JsString} :
    matchPieces id (p.map escape) s = true ↔ Glob p s := by
  constructor
  · intro h
    induction p generalizing s with
    | nil =>
      obtain rfl := List.isEmpty_iff.mp h
      exact Glob.nil
    | cons c p ih =>
      obtain ⟨w, r, rfl, hw, hr⟩ := matchPieces_cons_iff.mp h
      unfold escape at hw
      split_ifs at hw with h42 h63
      · exact h42 ▸ Glob.star w (ih hr)
      · obtain ⟨d, rfl⟩ := hw
        exact h63 ▸ Glob.mark d (ih hr)
      · obtain ⟨d, rfl, hd⟩ := hw
        obtain rfl : c = d := hd
        exact Glob.unit h42 h63 (ih hr)
  · intro h
    induction h with
    | nil => rfl
    | star w _ ih => exact matchPieces_cons_iff.mpr ⟨w, _, rfl, trivial, ih⟩
    | mark d _ ih => exact matchPieces_cons_iff.mpr ⟨[d], _, rfl, ⟨d, rfl⟩, ih⟩
    | @unit c _ _ h42 h63 _ ih =>
      refine matchPieces_cons_iff.mpr ⟨[c], _, rfl, ?_, ih⟩
      rw [escape, if_neg h42, if_neg h63]
      exact ⟨c, rfl, rfl⟩

theorem matchPieces_concat_args {ps : List Piece} {s : JsString} :
    matchPieces canon (ps ++ [.args]) s = true ↔
      matchPieces canon (ps ++ [.unit blank, .anyStar]) s = true ∨
        matchPieces canon ps s = true := by
  have hargs : ∀ r, matchPieces canon [.args] r = true ↔
      matchPieces canon [.unit blank, .anyStar] r = true ∨ r = [] := by
    intro r
    have hnil : ∀ {t}, matchPieces canon [] t = true ↔ t = [] := List.isEmpty_iff
    simp only [matchPieces_cons_iff, Piece.Accepts, hnil]
    constructor
    · rintro ⟨w, _, rfl, rfl | ⟨d, v, rfl, hd⟩, rfl⟩
      · exact Or.inr rfl
      · exact Or.inl ⟨[d], v, by simp, ⟨d, rfl, hd⟩, v, [], by simp, trivial, rfl⟩
    · rintro (⟨_, _, rfl, ⟨d, rfl, hd⟩, v, _, rfl, -, rfl⟩ | rfl)
      · exact ⟨d :: v, [], by simp, Or.inr ⟨d, v, rfl, hd⟩, rfl⟩
      · exact ⟨[], [], rfl, Or.inl rfl, rfl⟩
  simp only [matchPieces_append_iff, hargs]
  constructor
  · rintro ⟨w, r, rfl, hw, hr | rfl⟩
    · exact Or.inl ⟨w, r, rfl, hw, hr⟩
    · exact Or.inr (by simpa using hw)
  · rintro (⟨w, r, rfl, hw, hr⟩ | h)
    · exact ⟨w, r, rfl, hw, Or.inl hr⟩
    · exact ⟨s, [], (List.append_nil s).symm, h, Or.inr rfl⟩

/-- **A pattern is a glob.** The engine reads the text made for it as its pieces, and these
match the strings that the glob stands for, or those of the glob without a ` *` at its end. -/
theorem match_iff_glob (str pattern : JsString) :
    (read (expression pattern)).map (fun ps => matchPieces id ps (slashes str)) =
        some (match' id str pattern) ∧
      (match' id str pattern = true ↔
        Glob (slashes pattern) (slashes str) ∨
          ∃ p, slashes pattern = p ++ js " *" ∧ Glob p (slashes str)) := by
  refine ⟨by rw [read_expression]; rfl, ?_⟩
  by_cases h : ∃ p, slashes pattern = p ++ js " *"
  · obtain ⟨p, hp⟩ := h
    have hmap : (slashes pattern).map escape = p.map escape ++ [.unit blank, .anyStar] := by
      rw [hp, List.map_append]
      rfl
    rw [match', (expression_args hp).2, matchPieces_concat_args, ← hmap,
      matchPieces_map_escape, matchPieces_map_escape]
    refine or_congr_right ⟨fun hm => ⟨p, hp, hm⟩, ?_⟩
    rintro ⟨q, hq, hm⟩
    obtain rfl : p = q := List.append_cancel_right (hp.symm.trans hq)
    exact hm
  · rw [match', (expression_bare h).2, matchPieces_map_escape]
    constructor
    · exact Or.inl
    · rintro (hm | ⟨p, hp, -⟩)
      · exact hm
      · exact absurd ⟨p, hp⟩ h

end OpenCms.Wildcard
