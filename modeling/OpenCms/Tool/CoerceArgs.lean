import OpenCms.Lib.JsString
import OpenCms.Lib.Stringify
import Mathlib.Data.List.Forall2

/-!
# Arguments that were written as strings

A model that writes a call as text gives every argument as a string. `coerceArgsToSchema` reads such
a string where the schema wants something else, and changes nothing if there is a doubt.
`coerceToolCallInput` does so for the text of the arguments, which it leaves as it is if nothing is
to be changed. Otherwise it writes the arguments anew, and a number that is not finite, which
`JSON.parse` makes of one that is too great, is written as `null`. So the two agree if there is no
such number (`OpenCms.CoerceArgs.coerce_conservative`).
-/

namespace OpenCms.CoerceArgs

open JsString

abbrev Value : Type := JsValue JsString JsString

abbrev Args : Type := JsMembers JsString JsString

/-- `JSONSchema7["type"]`. -/
inductive TypeField
  | one (t : JsString)
  | many (ts : List JsString)

/-- The schema of a property, of which the type is read, if there is one. -/
inductive PropSchema
  | bool (b : Bool)
  | object (type : Option TypeField)

abbrev Properties : Type := Option (List (JsString × PropSchema))

/-- What is read for a value of another type than a string. -/
def coercibleTypes : List JsString :=
  [js "object", js "array", js "number", js "integer", js "boolean"]

def TypeField.types : TypeField → List JsString
  | .one t => [t]
  | .many ts => ts

def declaredNonStringTypes : Option TypeField → Option (List JsString)
  | none => none
  | some t =>
    let types := t.types
    if types.length = 0 then none
    else if js "string" ∈ types then none
    else
      let usable := types.filter (· ∈ coercibleTypes)
      if usable.length = 0 then none else some usable

def hasType (value : Value) (t : JsString) : Bool :=
  match value with
  | .obj _ => t = js "object"
  | .arr _ => t = js "array"
  | .num q => t = js "number" || (t = js "integer" && q.den = 1)
  | .bool _ => t = js "boolean"
  | _ => false

def runtimeTypeMatches (value : Value) (declared : List JsString) : Bool :=
  declared.any (hasType value)

section

-- `JSON.parse`, if it does not throw
variable (parse : JsString → Option Value)

def tryParseJson (value : JsString) : Option Value :=
  if trim value = [] then none else parse (trim value)

variable (props : Properties)

/-- The schema of a property: an object has none of its own under other keys. -/
def propSchema (key : JsString) : Option PropSchema :=
  props.bind fun members => members.lookup key

/-- What the loop puts in the place of a property, if it does not pass it over. -/
def exchange (key : JsString) (value : Value) : Option Value :=
  match value with
  | .str s =>
    match propSchema props key with
    | some (.object t) =>
      match declaredNonStringTypes t with
      | some declared =>
        match tryParseJson parse s with
        | some parsed => if runtimeTypeMatches parsed declared then some parsed else none
        | none => none
      | none => none
    | _ => none
  | _ => none

/-- The copy with the properties that were put in, or nothing if the loop has made none. -/
def changed (args : Args) : Option Args :=
  if args.all fun kv => (exchange parse props kv.1 kv.2).isNone then none
  else some (args.map fun kv => (kv.1, (exchange parse props kv.1 kv.2).getD kv.2))

def coerceArgsToSchema (args : Args) : Args := (changed parse props args).getD args

-- the text of a value, as `JSON.stringify` writes it
variable (print : Json JsString JsString → JsString)

def coerceToolCallInput (rawInput : JsString) : JsString :=
  if trim rawInput = [] then rawInput
  else match parse (trim rawInput) with
  | some (.obj args) =>
    match changed parse props args with
    | none => rawInput
    | some coerced => print (.obj (JsValue.stringifyMembers coerced))
  | _ => rawInput

/-! ### What is changed -/

/-- **What a change must be**: the value is a string, the schema names types of which none is
`string`, and the string is JSON of one of them. -/
def Coerces (key : JsString) (value parsed : Value) : Prop :=
  ∃ s t, value = .str s ∧ propSchema props key = some (.object (some t)) ∧
    js "string" ∉ t.types ∧ parse (trim s) = some parsed ∧ ∃ type ∈ t.types, hasType parsed type

variable {parse props print}

theorem mem_coercibleTypes {value : Value} {t : JsString} (h : hasType value t = true) :
    t ∈ coercibleTypes := by
  cases value with
  | obj | arr | bool =>
    have ht := of_decide_eq_true h
    simp [coercibleTypes, ht]
  | num q =>
    have ht : t = js "number" ∨ t = js "integer" ∧ q.den = 1 := by simpa [hasType] using h
    rcases ht with rfl | ⟨rfl, -⟩ <;> simp [coercibleTypes]
  | _ => cases h

theorem matches_iff {parsed : Value} {t : TypeField} :
    (∃ declared, declaredNonStringTypes (some t) = some declared ∧
      runtimeTypeMatches parsed declared = true) ↔
      js "string" ∉ t.types ∧ ∃ type ∈ t.types, hasType parsed type = true := by
  have hfilter : runtimeTypeMatches parsed (t.types.filter (· ∈ coercibleTypes)) = true ↔
      ∃ type ∈ t.types, hasType parsed type = true := by
    rw [runtimeTypeMatches, List.any_eq_true]
    constructor
    · rintro ⟨type, hmem, htype⟩
      exact ⟨type, (List.mem_filter.mp hmem).1, htype⟩
    · rintro ⟨type, hmem, htype⟩
      exact ⟨type, List.mem_filter.mpr ⟨hmem, by simpa using mem_coercibleTypes htype⟩, htype⟩
  simp only [declaredNonStringTypes, List.length_eq_zero_iff]
  constructor
  · rintro ⟨declared, hdeclared, hmatches⟩
    split_ifs at hdeclared with hnil hstring husable
    obtain rfl := Option.some.inj hdeclared
    exact ⟨hstring, hfilter.mp hmatches⟩
  · rintro ⟨hstring, hhas⟩
    have hmatches := hfilter.mpr hhas
    refine ⟨_, ?_, hmatches⟩
    have husable : t.types.filter (· ∈ coercibleTypes) ≠ [] := by
      intro hnil
      rw [hnil] at hmatches
      cases hmatches
    have hnil : t.types ≠ [] := by
      rintro hnil
      exact husable (by rw [hnil]; rfl)
    rw [if_neg hnil, if_neg hstring, if_neg husable]

/-- **The loop changes what is to be changed**, to what the string is read as. -/
theorem exchange_eq_some {key : JsString} {value parsed : Value} (hempty : parse [] = none) :
    exchange parse props key value = some parsed ↔ Coerces parse props key value parsed := by
  have hparse : ∀ s, tryParseJson parse s = parse (trim s) := by
    intro s
    rw [tryParseJson]
    split
    next hnil => rw [hnil, hempty]
    next => rfl
  constructor
  · intro h
    unfold exchange at h
    split at h
    next s =>
      split at h
      next t hschema =>
        split at h
        next declared hdeclared =>
          split at h
          next v hv =>
            split at h
            next hmatches =>
              obtain rfl := Option.some.inj h
              rcases t with _ | t
              · cases hdeclared
              · obtain ⟨hstring, htype⟩ := matches_iff.mp ⟨declared, hdeclared, hmatches⟩
                exact ⟨s, t, rfl, hschema, hstring, (hparse s).symm.trans hv, htype⟩
            next => cases h
          next => cases h
        next => cases h
      next => cases h
    next => cases h
  · rintro ⟨s, t, rfl, hschema, hstring, hread, htype⟩
    obtain ⟨declared, hdeclared, hmatches⟩ := matches_iff.mpr ⟨hstring, htype⟩
    simp only [exchange, hschema, hdeclared, hparse, hread, hmatches, if_true]

theorem coerce_eq (args : Args) : coerceArgsToSchema parse props args =
    args.map fun kv => (kv.1, (exchange parse props kv.1 kv.2).getD kv.2) := by
  rw [coerceArgsToSchema, changed]
  split
  next hall =>
    refine (List.map_congr_left fun kv hkv => ?_).trans (List.map_id args) |>.symm
    rw [Option.isNone_iff_eq_none.mp (List.all_eq_true.mp hall kv hkv)]
    rfl
  next => rfl

theorem exchange_parsed {key : JsString} {value parsed : Value} (hempty : parse [] = none)
    (h : exchange parse props key value = some parsed) : exchange parse props key parsed = none := by
  obtain ⟨s, t, -, -, hstring, -, type, hmem, htype⟩ := (exchange_eq_some hempty).mp h
  cases parsed with
  | str s => cases htype
  | _ => rfl

theorem changed_eq_none {args : Args} : changed parse props args = none ↔
    ∀ kv ∈ args, exchange parse props kv.1 kv.2 = none := by
  simp [changed]

end

/-! ### The text of the arguments -/

theorem length_keptMembers_le (members : Args) :
    (JsValue.keptMembers members).length ≤ members.length := by
  induction members with
  | nil => exact Nat.le_refl _
  | cons kv members ih =>
    rw [JsValue.keptMembers]
    split <;> simp only [List.length_cons] <;> omega

theorem keptMembers_eq_self_iff {members : Args} : JsValue.keptMembers members = members ↔
    ∀ kv ∈ members, kv.2.isUndefined = false ∧ kv.2.kept = kv.2 := by
  induction members with
  | nil => simp [JsValue.keptMembers]
  | cons kv members ih =>
    rw [JsValue.keptMembers, List.forall_mem_cons, ← ih]
    by_cases hv : kv.2.isUndefined = true
    · rw [if_pos hv]
      refine iff_of_false (fun h => ?_) (fun h => by simp [hv] at h)
      have hle := length_keptMembers_le members
      rw [h, List.length_cons] at hle
      omega
    · rw [if_neg hv, List.cons.injEq, Prod.ext_iff]
      simp [Bool.eq_false_iff.mpr hv]

theorem isPlainMembers_iff {members : Args} : JsValue.isPlainMembers members = true ↔
    ∀ kv ∈ members, kv.2.isPlain = true := by
  induction members with
  | nil => simp [JsValue.isPlainMembers]
  | cons kv members ih => rw [JsValue.isPlainMembers, Bool.and_eq_true, ih, List.forall_mem_cons]

section

variable (parse : JsString → Option Value) (print : Json JsString JsString → JsString)
  (props : Properties)

/-- What `JSON.parse` is known by: an empty text is no JSON, white space around a text does not
matter, and no value that is read is `undefined` or has `undefined` in it. -/
structure ReadsJson : Prop where
  empty : parse [] = none
  trim {raw v} : parse raw = some v → parse (JsString.trim raw) = some v
  defined {raw v} : parse raw = some v → v.isUndefined = false ∧ v.kept = v

variable {parse print props}

theorem parse_coerceToolCallInput (hjson : ReadsJson parse) {raw : JsString} {args : Args}
    (hraw : parse raw = some (.obj args))
    (hprint : ∀ j, JsValue.stringify (.obj (coerceArgsToSchema parse props args)) = some j →
      parse (print j) = some (.ofJson j)) :
    parse (coerceToolCallInput parse props print raw) =
        some (.obj (coerceArgsToSchema parse props args)) ↔
      changed parse props args = none ∨
        ∀ kv ∈ coerceArgsToSchema parse props args, kv.2.isPlain = true := by
  have htrim := hjson.trim hraw
  have hne : trim raw ≠ [] := by
    intro hnil
    rw [hnil, hjson.empty] at htrim
    cases htrim
  rw [coerceToolCallInput, if_neg hne, htrim]
  dsimp only
  cases hchanged : changed parse props args with
  | none =>
    refine iff_of_true ?_ (Or.inl rfl)
    rw [coerceArgsToSchema, hchanged]
    exact hraw
  | some coerced =>
    have hcoerced : coerceArgsToSchema parse props args = coerced := by
      rw [coerceArgsToSchema, hchanged, Option.getD_some]
    rw [hcoerced] at hprint ⊢
    have hread := hprint _ rfl
    -- no value of the copy is `undefined`: it was read with the arguments, or from a string
    have hkept : JsValue.keptMembers coerced = coerced := by
      have hargs := keptMembers_eq_self_iff.mp (JsValue.obj.inj (hjson.defined hraw).2)
      rw [keptMembers_eq_self_iff, ← hcoerced, coerce_eq, List.forall_mem_map]
      intro kv hkv
      cases hexchange : exchange parse props kv.1 kv.2 with
      | none => exact hargs kv hkv
      | some parsed =>
        obtain ⟨_, _, -, -, -, hparsed, -⟩ := (exchange_eq_some hjson.empty).mp hexchange
        exact hjson.defined hparsed
    have hback := JsValue.obj.inj (hjson.defined hread).2
    rw [← isPlainMembers_iff, ← JsValue.keptMembers_ofJsonMembers_iff, hback, hkept]
    simp only [reduceCtorEq, false_or]
    rw [hread]
    exact ⟨fun h => JsValue.obj.inj (Option.some.inj h), fun h => by rw [JsValue.ofJson, h]⟩

/-- **Coercion is conservative.** A property is changed only if it is to be changed, to what its
string is read as, and a second coercion changes nothing. The coercion of a text is read as the
coercion of what the text is read as, exactly if nothing is to be changed or every number is
finite. -/
theorem coerce_conservative (hjson : ReadsJson parse) {raw : JsString} {args : Args}
    (hraw : parse raw = some (.obj args))
    (hprint : ∀ j, JsValue.stringify (.obj (coerceArgsToSchema parse props args)) = some j →
      parse (print j) = some (.ofJson j)) :
    (List.Forall₂ (fun kv kv' => kv'.1 = kv.1 ∧
        (kv'.2 = kv.2 ∨ Coerces parse props kv.1 kv.2 kv'.2))
      args (coerceArgsToSchema parse props args) ∧
    coerceArgsToSchema parse props (coerceArgsToSchema parse props args) =
      coerceArgsToSchema parse props args) ∧
    (parse (coerceToolCallInput parse props print raw) =
        some (.obj (coerceArgsToSchema parse props args)) ↔
      (∀ kv ∈ args, ∀ parsed, ¬Coerces parse props kv.1 kv.2 parsed) ∨
        ∀ kv ∈ args, (∀ parsed, Coerces parse props kv.1 kv.2 parsed → parsed.isPlain = true) ∧
          ((∀ parsed, ¬Coerces parse props kv.1 kv.2 parsed) → kv.2.isPlain = true)) := by
  refine ⟨⟨?_, ?_⟩, ?_⟩
  · rw [coerce_eq, List.forall₂_map_right_iff, List.forall₂_same]
    intro kv _
    refine ⟨rfl, ?_⟩
    cases hexchange : exchange parse props kv.1 kv.2 with
    | none => exact Or.inl rfl
    | some parsed => exact Or.inr ((exchange_eq_some hjson.empty).mp hexchange)
  · have hnone : changed parse props (coerceArgsToSchema parse props args) = none := by
      rw [changed_eq_none, coerce_eq, List.forall_mem_map]
      intro kv _
      cases hexchange : exchange parse props kv.1 kv.2 with
      | none => exact hexchange
      | some parsed => exact exchange_parsed hjson.empty hexchange
    rw [coerceArgsToSchema, hnone, Option.getD_none]
  · rw [parse_coerceToolCallInput hjson hraw hprint, changed_eq_none, coerce_eq,
      List.forall_mem_map]
    have hnone : ∀ kv : JsString × Value, exchange parse props kv.1 kv.2 = none ↔
        ∀ parsed, ¬Coerces parse props kv.1 kv.2 parsed := by
      intro kv
      simp only [← exchange_eq_some hjson.empty, Option.eq_none_iff_forall_ne_some]
    refine or_congr (forall₂_congr fun kv _ => hnone kv) (forall₂_congr fun kv _ => ?_)
    rw [← hnone]
    simp only [← exchange_eq_some hjson.empty]
    cases exchange parse props kv.1 kv.2 with
    | none => simp
    | some parsed => simp

end

/-! ### A number that is too great -/

def parseSome (text : JsString) : Option Value :=
  if text = js "5" then some (.num 5)
  else if text = js "\x7b\"n\":\"5\"\x7d" then some (.obj [(js "n", .str (js "5"))])
  else if text = js "\x7b\"n\":5\x7d" then some (.obj [(js "n", .num 5)])
  else if text = js "\x7b\"n\":\"5\",\"m\":1e999\x7d" then
    some (.obj [(js "n", .str (js "5")), (js "m", .infinity false)])
  else if text = js "\x7b\"n\":5,\"m\":null\x7d" then some (.obj [(js "n", .num 5), (js "m", .null)])
  else none

theorem readsJson_parseSome : ReadsJson parseSome := by
  have htexts : ∀ {raw v}, parseSome raw = some v →
      parseSome (trim raw) = some v ∧ v.isUndefined = false ∧ v.kept = v := by
    intro raw v h
    unfold parseSome at h
    split_ifs at h <;> rename_i htext <;> obtain rfl := Option.some.inj h <;> subst htext <;>
      exact ⟨by rfl, rfl, rfl⟩
  exact ⟨by rfl, fun h => (htexts h).1, fun h => (htexts h).2⟩

def wantsNumber : Properties := some [(js "n", .object (some (.one (js "number"))))]

theorem coerce_five (args : Args) :
    coerceArgsToSchema parseSome wantsNumber ((js "n", .str (js "5")) :: args) =
      (js "n", .num 5) :: coerceArgsToSchema parseSome wantsNumber args := by
  have hfive : exchange parseSome wantsNumber (js "n") (.str (js "5")) = some (.num 5) := by rfl
  rw [coerce_eq, coerce_eq, List.map_cons, hfive]
  rfl

/-- A number that was written as a string. -/
theorem coerce_conservative_number :
    parseSome (coerceToolCallInput parseSome wantsNumber (fun _ => js "\x7b\"n\":5\x7d")
      (js "\x7b\"n\":\"5\"\x7d")) =
        some (.obj (coerceArgsToSchema parseSome wantsNumber [(js "n", .str (js "5"))])) := by
  refine (coerce_conservative readsJson_parseSome (by rfl) fun j hj => ?_).2.mpr (Or.inr ?_)
  · rw [coerce_five] at hj
    obtain rfl := Option.some.inj hj
    rfl
  · intro kv hkv
    obtain rfl := List.mem_singleton.mp hkv
    refine ⟨?_, fun _ => rfl⟩
    rintro parsed ⟨s, t, hs, -, -, hread, -⟩
    obtain rfl := JsValue.str.inj hs
    obtain rfl := Option.some.inj hread
    rfl

/-- Beside it a number that is too great is lost. -/
theorem not_coerce_conservative : ¬∀ (parse : JsString → Option Value)
    (print : Json JsString JsString → JsString) (props : Properties), ReadsJson parse →
    ∀ raw args, parse raw = some (.obj args) →
    (∀ j, JsValue.stringify (.obj (coerceArgsToSchema parse props args)) = some j →
      parse (print j) = some (.ofJson j)) →
    parse (coerceToolCallInput parse props print raw) =
      some (.obj (coerceArgsToSchema parse props args)) := by
  intro h
  have hcoerced : coerceArgsToSchema parseSome wantsNumber
      [(js "n", .str (js "5")), (js "m", .infinity false)] =
        [(js "n", .num 5), (js "m", .infinity false)] := by
    rw [coerce_five]
    rfl
  have hlost := h parseSome (fun _ => js "\x7b\"n\":5,\"m\":null\x7d") wantsNumber
    readsJson_parseSome (js "\x7b\"n\":\"5\",\"m\":1e999\x7d") _ (by rfl) (by
      intro j hj
      rw [hcoerced] at hj
      obtain rfl := Option.some.inj hj
      rfl)
  rw [hcoerced] at hlost
  have hread : parseSome (coerceToolCallInput parseSome wantsNumber
      (fun _ => js "\x7b\"n\":5,\"m\":null\x7d") (js "\x7b\"n\":\"5\",\"m\":1e999\x7d")) =
        some (.obj [(js "n", .num 5), (js "m", .null)]) := by rfl
  rw [hread] at hlost
  simp at hlost

end OpenCms.CoerceArgs
