import OpenCms.Lib.JsString
import OpenCms.Lib.Table
import Mathlib.Data.List.Basic
import Mathlib.Data.List.Sort
import Mathlib.Algebra.Group.Nat.Defs

/-!
# Calls that are written out as text

A model sometimes writes the call of a tool into its text instead of making it. `salvageAntmlInvokes`
finds the calls that are written out to their end, with the parameters that are.
-/

namespace OpenCms.Claude

/-! ### `JSON.stringify` -/

def quoteUnit (c : UInt16) : JsString :=
  if c = 34 then js "\\\""
  else if c = 92 then js "\\\\"
  else if c = 8 then js "\\b"
  else if c = 9 then js "\\t"
  else if c = 10 then js "\\n"
  else if c = 12 then js "\\f"
  else if c = 13 then js "\\r"
  else if c < 32 ∨ (0xD800 ≤ c ∧ c < 0xE000) then
    js "\\u" ++ js (String.ofList ((Nat.toDigits 16 (c.toNat + 0x10000)).drop 1))
  else [c]

/-- Units between quotes. Two surrogates that are a pair stand as they are. -/
def quoteUnits : JsString → JsString
  | [] => []
  | [c] => quoteUnit c
  | c :: d :: text =>
    if 0xD800 ≤ c ∧ c < 0xDC00 ∧ 0xDC00 ≤ d ∧ d < 0xE000 then c :: d :: quoteUnits text
    else quoteUnit c ++ quoteUnits (d :: text)

def quote (text : JsString) : JsString := 34 :: quoteUnits text ++ [34]

def arrayIndex (key : JsString) : Option ℕ :=
  some (JsString.number key) |>.filter fun n => n < 2 ^ 32 - 1 ∧ JsString.decimal n = key

def enumerate (entries : List (JsString × JsString)) : List (JsString × JsString) :=
  ((entries.filter fun entry => (arrayIndex entry.1).isSome).insertionSort fun a b =>
    JsString.number a.1 ≤ JsString.number b.1) ++
      entries.filter fun entry => !(arrayIndex entry.1).isSome

def stringify (entries : List (JsString × JsString)) : JsString :=
  123 :: [44].intercalate ((enumerate entries).map fun entry =>
    quote entry.1 ++ 58 :: quote entry.2) ++ [125]

/-! ### Elements -/

def tagName (tag text : JsString) : Option JsString :=
  ((text.dropPrefix? (js "antml:")).getD text).dropPrefix? tag

def openTag (tag text : JsString) : Option (JsString × JsString) := do
  let rest ← tagName tag (← text.dropPrefix? (js "<"))
  if (rest.head?.any JsString.isWhiteSpace) then
    let rest ← (rest.dropWhile JsString.isWhiteSpace).dropPrefix? (js "name=\"")
    let name := rest.takeWhile (· ≠ 34)
    if name = [] then none
    else
      let rest ← (rest.dropWhile (· ≠ 34)).dropPrefix? [34]
      let rest ← (rest.dropWhile JsString.isWhiteSpace).dropPrefix? (js ">")
      some (name, rest)
  else none

def closeTag (tag text : JsString) : Option JsString := do
  (← tagName tag (← text.dropPrefix? (js "</"))).dropPrefix? (js ">")

/-- `([\s\S]*?)` and a closing tag: what is before it, and what follows. -/
def untilClosed (tag : JsString) : JsString → Option (JsString × JsString)
  | [] => none
  | c :: text =>
    match closeTag tag (c :: text) with
    | some rest => some ([], rest)
    | none => (untilClosed tag text).map fun found => (c :: found.1, found.2)

def element (tag text : JsString) : Option (JsString × JsString × JsString) := do
  let (name, rest) ← openTag tag text
  let (body, rest) ← untilClosed tag rest
  return (name, body, rest)

/-- The elements that are found one after another, in so many steps. Each step takes something of
the text. -/
def elements (tag : JsString) : ℕ → JsString → List (JsString × JsString)
  | 0, _ => []
  | _ + 1, [] => []
  | n + 1, c :: text =>
    match element tag (c :: text) with
    | some (name, body, rest) => (name, body) :: elements tag n rest
    | none => elements tag n text

/-! ### Calls -/

structure SalvagedCall where
  name : JsString
  input : JsString
  deriving DecidableEq

def mayContainAntmlInvoke (text : JsString) : Bool :=
  includes text (js "<invoke") || includes text (js ":invoke")

/-- `.replace(/^\n/, "").replace(/\n$/, "")`. -/
def trimNewlines (text : JsString) : JsString :=
  let text := if text.head? = some JsString.newline then text.tail else text
  if text.getLast? = some JsString.newline then text.dropLast else text

/-- `params[name] = value`: a string does not become the prototype of an object. -/
def setParam (params : List (JsString × JsString)) (param : JsString × JsString) :
    List (JsString × JsString) :=
  if param.1 = js "__proto__" then params
  else Table.upsert Prod.fst (param.1, trimNewlines param.2) params

def params (body : JsString) : List (JsString × JsString) :=
  (elements (js "parameter") body.length body).foldl setParam []

def salvageAntmlInvokes (text : JsString) : List SalvagedCall :=
  if mayContainAntmlInvoke text then
    (elements (js "invoke") text.length text).map fun call => ⟨call.1, stringify (params call.2)⟩
  else []

example : salvageAntmlInvokes (js "Run <invoke name=\"mcp__bash\">\n" ++
    js "<parameter name=\"command\">\nls\n</parameter></invoke>.") =
      [⟨js "mcp__bash", 123 :: js "\"command\":\"ls\"" ++ [125]⟩] := by
  repeat rw [js_ofList]
  decide

end OpenCms.Claude
