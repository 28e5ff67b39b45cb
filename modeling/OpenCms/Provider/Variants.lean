import OpenCms.Lib.JsString

/-!
# Room for an answer beside the thinking

A model that reasons is offered in variants, and a variant may set a budget for its thinking.
`maxOutputTokens` takes that budget off what the model can put out. What is left for the answer is
`OpenCms.ThinkingBudget.leavesRoom_iff`: at least one token, exactly if the budget is below the
limit of the model. The packages of Anthropic keep it there; the fixed budgets for Claude under
`@ai-sdk/openai-compatible` do not ask for the limit.
-/

namespace OpenCms.ThinkingBudget

open JsString

/-- The packages for which `maxOutputTokens` looks at the thinking. -/
inductive Package
  | anthropic
  | vertexAnthropic
  | openaiCompatible
  deriving DecidableEq

/-- `Provider.Model`; `output` is `limit.output`. -/
structure Model where
  id : JsString
  apiId : JsString
  npm : Package
  reasoning : Bool
  release_date : JsString
  output : ℕ

inductive Effort
  | low
  | medium
  | high
  | xhigh
  | max
  deriving DecidableEq

/-- `options.thinking`; `enabled` if its type is `"enabled"`. -/
structure Thinking where
  enabled : Bool
  budgetTokens : Option ℤ
  budget_tokens : Option ℤ

structure Options where
  thinking : Option Thinking
  reasoningEffort : Option Effort

/-! ### The variants of a model -/

def Options.effort (effort : Effort) : Options := ⟨none, some effort⟩

/-- `{ thinking: { type: "enabled", budgetTokens } }`. -/
def Options.camelCase (budgetTokens : ℤ) : Options := ⟨some ⟨true, some budgetTokens, none⟩, none⟩

def Options.snakeCase (budget_tokens : ℤ) : Options := ⟨some ⟨true, none, some budget_tokens⟩, none⟩

def WIDELY_SUPPORTED_EFFORTS : List Effort := [.low, .medium, .high]

def opusVersion : JsString → Option ℕ
  | [] => none
  | c :: s =>
    let digits := ((c :: s).drop 14).takeWhile JsString.isDigit
    if js "claude-opus-4-" <+: c :: s ∧ digits ≠ [] then some (number digits) else opusVersion s

variable (toLowerCase : JsString → JsString) (model : Model)

def isOpus47Plus : Bool :=
  match opusVersion (toLowerCase model.id) with
  | some version => 7 ≤ version
  | none => js "2026-03-19" ≤ model.release_date

def withoutVariants : List JsString :=
  [js "deepseek", js "minimax", js "glm", js "mistral", js "kimi"]

def namesClaude : Bool :=
  includes model.apiId (js "anthropic") || includes model.apiId (js "claude") ||
    includes model.id (js "anthropic") || includes model.id (js "claude")

/-- `variants`, for the packages above. -/
def variants : List (Effort × Options) :=
  let id := toLowerCase model.id
  if !model.reasoning then []
  else if withoutVariants.any (includes id) then []
  else if includes id (js "grok") && includes id (js "grok-3-mini") then
    [(.low, .effort .low), (.high, .effort .high)]
  else if includes id (js "grok") then []
  else match model.npm with
  | .openaiCompatible =>
    if namesClaude model then [(.high, .snakeCase 16000), (.max, .snakeCase 31999)]
    else WIDELY_SUPPORTED_EFFORTS.map fun effort => (effort, .effort effort)
  | .anthropic | .vertexAnthropic =>
    [(.low, .camelCase (min 1024 (model.output - 1))),
      (.medium, .camelCase (min 8000 (model.output / 2 - 1))),
      (.high, .camelCase (min 16000 (model.output - 1)))] ++
      if isOpus47Plus toLowerCase model then
        [(.xhigh, .camelCase (min 32000 (model.output - 1)))]
      else []

/-! ### What is left for the answer -/

/-- `budgetTokens`, of either spelling. -/
def Options.budgetTokens (options : Options) : ℤ :=
  match options.thinking with
  | none => 0
  | some thinking => (thinking.budgetTokens <|> thinking.budget_tokens).getD 0

def Options.enabled (options : Options) : Bool := options.thinking.any Thinking.enabled

/-- `maxOutputTokens`, for the packages above. -/
def maxOutputTokens (options : Options) (modelLimit globalLimit : ℕ) : ℤ :=
  let modelCap : ℤ := if modelLimit = 0 then globalLimit else modelLimit
  let standardLimit := min modelCap globalLimit
  if options.enabled && 0 < options.budgetTokens then
    if options.budgetTokens + standardLimit ≤ modelCap then standardLimit
    else modelCap - options.budgetTokens
  else standardLimit

def Options.thinkingBudget (options : Options) : ℤ :=
  if options.enabled then options.budgetTokens else 0

def LeavesRoom (options : Options) (modelLimit : ℕ) : Prop :=
  ∀ globalLimit, 0 < globalLimit →
    1 ≤ maxOutputTokens options modelLimit globalLimit ∧
      maxOutputTokens options modelLimit globalLimit + options.thinkingBudget ≤ modelLimit

variable {toLowerCase model} {options : Options} {modelLimit : ℕ}

/-- **There is room exactly if the budget is below the limit.** -/
theorem leavesRoom_iff (hlimit : 0 < modelLimit) :
    LeavesRoom options modelLimit ↔ options.thinkingBudget < modelLimit := by
  unfold LeavesRoom maxOutputTokens Options.thinkingBudget
  simp only [hlimit.ne', if_false]
  cases options.enabled with
  | false =>
    simp only [Bool.false_and, Bool.false_eq_true, if_false]
    exact iff_of_true (fun globalLimit hglobal => by omega) (by omega)
  | true =>
    simp only [Bool.true_and, decide_eq_true_eq, if_true]
    generalize options.budgetTokens = budget
    constructor
    · -- one token that may be put out is enough to see it
      intro h
      have hone := h 1 Nat.one_pos
      split_ifs at hone <;> omega
    · intro hlt globalLimit hglobal
      split_ifs <;> omega

variable (toLowerCase model)

def HasFixedBudgets : Prop :=
  model.reasoning = true ∧ withoutVariants.any (includes (toLowerCase model.id)) = false ∧
    includes (toLowerCase model.id) (js "grok") = false ∧ model.npm = .openaiCompatible ∧
      namesClaude model = true

/-- **Every variant leaves room, if no budget is fixed or the limit is above the greatest one.** -/
theorem variants_leaveRoom_iff (hlimit : 2 ≤ model.output) :
    (∀ variant ∈ variants toLowerCase model, LeavesRoom variant.2 model.output) ↔
      (HasFixedBudgets toLowerCase model → 32000 ≤ model.output) := by
  have hiff : ∀ options : Options, LeavesRoom options model.output ↔
      options.thinkingBudget < model.output := fun _ => leavesRoom_iff (by omega)
  have heffort : ∀ effort, LeavesRoom (.effort effort) model.output := fun effort =>
    (hiff _).mpr (show (0 : ℤ) < model.output by omega)
  unfold variants HasFixedBudgets
  dsimp only
  by_cases hreasoning : model.reasoning = true
  case neg => simp [hreasoning]
  by_cases hwithout : withoutVariants.any (includes (toLowerCase model.id)) = true
  case pos => simp [hreasoning, hwithout]
  by_cases hgrok : includes (toLowerCase model.id) (js "grok") = true
  case pos =>
    by_cases hmini : includes (toLowerCase model.id) (js "grok-3-mini") = true
    · simp [hreasoning, hwithout, hgrok, hmini, heffort]
    · simp [hreasoning, hwithout, hgrok, hmini]
  rw [if_neg (by simpa using hreasoning), if_neg hwithout, if_neg (by simp [hgrok]), if_neg hgrok]
  rw [Bool.not_eq_true] at hwithout hgrok
  -- the budgets of Anthropic are below the limit of the model by their definition
  have hanthropic : ∀ variant ∈ [(Effort.low, Options.camelCase (min 1024 (model.output - 1))),
      (.medium, .camelCase (min 8000 (model.output / 2 - 1))),
      (.high, .camelCase (min 16000 (model.output - 1)))] ++
        if isOpus47Plus toLowerCase model then
          [(.xhigh, .camelCase (min 32000 (model.output - 1)))]
        else [], LeavesRoom variant.2 model.output := by
    have hcap : ∀ cap budget : ℤ, budget < model.output →
        LeavesRoom (.camelCase (min cap budget)) model.output := by
      intro cap budget hlt
      have hmin : min cap budget < model.output := by omega
      exact (hiff _).mpr hmin
    have hlow := hcap 1024 (model.output - 1) (by omega)
    have hmedium := hcap 8000 (model.output / 2 - 1) (by omega)
    have hhigh := hcap 16000 (model.output - 1) (by omega)
    have hxhigh := hcap 32000 (model.output - 1) (by omega)
    split <;> simp [hlow, hmedium, hhigh, hxhigh]
  cases hnpm : model.npm with
  | openaiCompatible =>
    by_cases hclaude : namesClaude model = true
    · rw [if_pos hclaude]
      have hfixed : ∀ budget : ℤ, LeavesRoom (.snakeCase budget) model.output ↔
          budget < model.output := fun _ => hiff _
      rw [List.forall_mem_cons, List.forall_mem_singleton, hfixed, hfixed]
      constructor
      · rintro ⟨-, hmax⟩ -
        omega
      · intro h
        have hlimit := h ⟨hreasoning, hwithout, hgrok, rfl, hclaude⟩
        omega
    · simp [hclaude, WIDELY_SUPPORTED_EFFORTS, heffort]
  | anthropic => exact iff_of_true hanthropic fun h => absurd h.2.2.2.1 nofun
  | vertexAnthropic => exact iff_of_true hanthropic fun h => absurd h.2.2.2.1 nofun

/-- Claude, under a package of this name, with a limit of this many tokens. -/
def sonnet (npm : Package) (output : ℕ) : Model where
  id := js "claude-sonnet-4-5"
  apiId := js "claude-sonnet-4-5"
  npm := npm
  reasoning := true
  release_date := js "2025-09-29"
  output := output

/-- With Anthropic's package the greatest budget is cut to a small limit. -/
theorem variants_leaveRoom_sonnet :
    (.high, .camelCase 4095) ∈ variants id (sonnet .anthropic 4096) ∧
      LeavesRoom (.camelCase 4095) 4096 := by
  have hvariants : variants id (sonnet .anthropic 4096) =
      [(.low, .camelCase 1024), (.medium, .camelCase 2047), (.high, .camelCase 4095)] := by rfl
  have hhigh : (.high, .camelCase 4095) ∈ variants id (sonnet .anthropic 4096) := by
    rw [hvariants]
    exact List.mem_cons_of_mem _ (List.mem_cons_of_mem _ List.mem_cons_self)
  exact ⟨hhigh, (variants_leaveRoom_iff id (sonnet .anthropic 4096) (by decide)).mpr
    (fun h => absurd h.2.2.2.1 nofun) (.high, .camelCase 4095) hhigh⟩

/-- A limit of 8192 tokens is used up by 16000 for the thinking. -/
theorem not_variants_leaveRoom : ¬∀ (toLowerCase : JsString → JsString) (model : Model),
    2 ≤ model.output → ∀ variant ∈ variants toLowerCase model,
      LeavesRoom variant.2 model.output := by
  intro h
  have hhigh : (Effort.high, Options.snakeCase 16000) ∈
      variants id (sonnet .openaiCompatible 8192) := by
    have hvariants : variants id (sonnet .openaiCompatible 8192) =
        [(.high, .snakeCase 16000), (.max, .snakeCase 31999)] := by rfl
    rw [hvariants]
    exact List.mem_cons_self
  have hroom := (h id (sonnet .openaiCompatible 8192) (by decide) _ hhigh 32000 (by decide)).1
  exact absurd hroom (by decide)

end OpenCms.ThinkingBudget
