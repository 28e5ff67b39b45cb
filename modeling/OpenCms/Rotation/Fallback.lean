import OpenCms.Lib.Double
import OpenCms.Rotation.State
import Mathlib.Data.List.Sort
import Mathlib.Tactic.Linarith

/-!
# Choosing a fallback

When a vector is rate limited, `selectBestFallback` takes one of the candidates that are there
for it. It leaves out those that have been tried, are limited themselves or not healthy enough,
scores the others and takes the best.

Another account of the same provider is worth 1000 points, which is meant to be more than all the
other bonuses of a candidate of another provider come to. They come to 600 more than those of the
account at most, and the health, which the tracker keeps between 0 and 100, to 100; so it is
(`OpenCms.Rotation.Rotation3D.score_lt_of_family`). Scores are added as doubles.
-/

namespace OpenCms.Rotation

/-- The `reason` of a candidate. -/
inductive FallbackReason
  | sameModelDiffAccount
  | diffModelSameAccount
  | diffProvider
  | fallback
  | capability
  | task
  deriving DecidableEq

/-- The `capabilities` of a candidate. -/
structure Capabilities where
  image : Option Bool
  audio : Option Bool
  video : Option Bool
  reasoning : Option Bool
  pdf : Option Bool
  coding : Option Bool
  longContext : Option Bool
  deriving DecidableEq

structure FallbackCandidate extends ModelVector where
  healthScore : ℚ
  isRateLimited : Bool
  waitTimeMs : ℚ
  priority : ℚ
  reason : FallbackReason
  «from» : Option ModelVector
  capabilities : Option Capabilities
  deriving DecidableEq

inductive RotationPurpose
  | coding
  | reasoning
  | image
  | docs
  | audio
  | video
  | longContext
  | generic
  deriving DecidableEq

inductive FallbackStrategy
  | accountFirst
  | modelFirst
  | providerFirst
  | anyAvailable
  deriving DecidableEq

structure RotationPriorityRule where
  providerId : String
  accountId : Option String
  modelID : Option String
  providerTokens : Option (List String)
  accountTokens : Option (List String)
  modelTokens : Option (List String)

structure Rotation3DConfig where
  strategy : FallbackStrategy
  allowSameProviderFallback : Bool
  maxCandidates : ℤ
  minHealthScore : ℚ
  providerPriority : List String
  providerPriorityWeight : ℚ
  priorityRules : Option (List RotationPriorityRule)

def defaultRotation3DConfig : Rotation3DConfig where
  strategy := .accountFirst
  allowSameProviderFallback := true
  maxCandidates := 50
  minHealthScore := 30
  providerPriority := []
  providerPriorityWeight := 120
  priorityRules := none

namespace Rotation3D

def makeKey (vector : ModelVector) : String :=
  vector.providerId ++ ":" ++ vector.accountId ++ ":" ++ vector.modelID

/-! ### The score -/

/-- `String.prototype.toLowerCase`, as far as it can make a letter or digit of a character. -/
def toLowerCase : Char → List Char
  | '\u212a' => ['k']
  | '\u0130' => ['i', '\u0307']
  | c => [c.toLower]

def normalizeTokens (value : String) : List String :=
  let tokens := (value.toList.flatMap toLowerCase).splitOnP fun c => !(c.isLower || c.isDigit)
  (tokens.filter (· ≠ [])).map String.ofList

def ruleTokens (tokens : Option (List String)) (id : Option String) :
    Option (List String) :=
  tokens.or ((id.filter (· ≠ "")).map normalizeTokens)

def ruleApplies (rule : RotationPriorityRule) (candidate : ModelVector) : Bool :=
  let within (tokens : List String) (id : String) := tokens.all (normalizeTokens id).contains
  within (rule.providerTokens.getD (normalizeTokens rule.providerId)) candidate.providerId &&
    (ruleTokens rule.accountTokens rule.accountId).all
      (within · candidate.accountId) &&
    (ruleTokens rule.modelTokens rule.modelID).all (within · candidate.modelID)

def ruleScore (rules : List RotationPriorityRule) (candidate : ModelVector) : ℚ :=
  match rules.zipIdx.find? fun rule => ruleApplies rule.1 candidate with
  | none => 0
  | some (rule, i) =>
    let specificity : ℚ :=
      (if (ruleTokens rule.accountTokens rule.accountId).isSome then 1 else 0) +
        if (ruleTokens rule.modelTokens rule.modelID).isSome then 1 else 0
    (rules.length - i : ℕ) * 1000 + specificity * 250

/-- What the place of its provider in the list adds to a candidate. -/
def providerPriorityScore (config : Rotation3DConfig) (providerId : String) : ℚ :=
  if providerId ∈ config.providerPriority ∧ 0 < config.providerPriorityWeight then
    let index := config.providerPriority.idxOf providerId
    roundDouble ((config.providerPriority.length - index : ℕ) * config.providerPriorityWeight)
  else 0

def IsFamily (candidate current : ModelVector) : Prop :=
  candidate.providerId = current.providerId ∧ candidate.accountId ≠ current.accountId

instance (candidate current : ModelVector) : Decidable (IsFamily candidate current) :=
  inferInstanceAs (Decidable (_ ∧ _))

def dimensionScore (strategy : FallbackStrategy) (candidate current : ModelVector) : ℚ :=
  let isSameProvider := candidate.providerId = current.providerId
  let isSameAccount := candidate.accountId = current.accountId
  let isSameModel := candidate.modelID = current.modelID
  match strategy with
  | .accountFirst =>
    if isSameModel ∧ ¬isSameAccount ∧ isSameProvider then 300
    else if isSameProvider ∧ ¬isSameModel then 200
    else if ¬isSameProvider then 100
    else 0
  | .modelFirst =>
    if ¬isSameModel ∧ isSameAccount ∧ isSameProvider then 300
    else if isSameProvider ∧ ¬isSameAccount then 200
    else if ¬isSameProvider then 100
    else 0
  | .providerFirst =>
    if ¬isSameProvider then 300
    else if isSameProvider ∧ ¬isSameAccount then 200
    else if isSameProvider ∧ ¬isSameModel then 100
    else 0
  | .anyAvailable => 0

def purposeMatch (purpose : RotationPurpose) (caps : Capabilities) : Bool :=
  match purpose with
  | .coding => caps.coding.getD false
  | .reasoning => caps.reasoning.getD false
  | .image => caps.image.getD false
  | .docs => caps.longContext.getD false || caps.pdf.getD false
  | .longContext => caps.longContext.getD false
  | .audio => caps.audio.getD false
  | .video => caps.video.getD false
  | .generic => false

def purposeScore (purpose : RotationPurpose) (capabilities : Option Capabilities) : ℚ :=
  if capabilities.any (purposeMatch purpose) then 500 else 0

def scoreCandidateByStrategy (candidate : FallbackCandidate) (current : ModelVector)
    (config : Rotation3DConfig) (purpose : RotationPurpose) : ℚ :=
  let family := if IsFamily candidate.toModelVector current then 1000 else 0
  let score := roundDouble (candidate.healthScore + family)
  let score := roundDouble (score + dimensionScore config.strategy candidate.toModelVector current)
  let score := roundDouble (score + purposeScore purpose candidate.capabilities)
  let score := roundDouble (score - roundDouble (candidate.waitTimeMs / 1000))
  let score := roundDouble (score + providerPriorityScore config candidate.providerId)
  roundDouble (score + ruleScore (config.priorityRules.getD []) candidate.toModelVector)

/-! ### The choice -/

/-- What `selectBestFallback` filters the candidates by. -/
def isAvailable (current : ModelVector) (config : Rotation3DConfig) (triedKeys : Finset String)
    (c : FallbackCandidate) : Bool :=
  if makeKey c.toModelVector ∈ triedKeys then false
  else
    let meetsHealth :=
      if c.providerId = current.providerId then decide (config.minHealthScore ≤ c.healthScore)
      else true
    let isExactCurrent := c.providerId = current.providerId ∧ c.accountId = current.accountId ∧
      c.modelID = current.modelID
    let isSameProviderRotateCandidate := c.providerId = current.providerId ∧ ¬isExactCurrent ∧
      (c.accountId ≠ current.accountId ∨ c.modelID ≠ current.modelID)
    if !config.allowSameProviderFallback ∧ isSameProviderRotateCandidate then false
    else !c.isRateLimited && meetsHealth && !decide isExactCurrent

/-- `Array.prototype.slice` from the start. -/
def sliceTo {α : Type} (xs : List α) (stop : ℤ) : List α :=
  xs.take (if stop < 0 then (xs.length + stop).toNat else stop.toNat)

/-- `selectBestFallback`. What the guard of the provider's rotations says is only logged. -/
def selectBestFallback (candidates : List FallbackCandidate) (current : ModelVector)
    (config : Rotation3DConfig) (triedKeys : Finset String) (purpose : RotationPurpose) :
    Option FallbackCandidate :=
  let available := candidates.filter (isAvailable current config triedKeys)
  if available = [] then none
  else
    let scored := available.map fun c =>
      { c with priority := scoreCandidateByStrategy c current config purpose }
    -- the sort is stable, like that of the source
    let sorted := scored.insertionSort fun a b => b.priority ≤ a.priority
    (sliceTo sorted config.maxCandidates).head?.map fun best => { best with «from» := some current }

def Selectable (current : ModelVector) (config : Rotation3DConfig) (triedKeys : Finset String)
    (c : FallbackCandidate) : Prop :=
  makeKey c.toModelVector ∉ triedKeys ∧ c.isRateLimited = false ∧ c.toModelVector ≠ current ∧
    (c.providerId = current.providerId →
      config.allowSameProviderFallback = true ∧ config.minHealthScore ≤ c.healthScore)

variable {candidates : List FallbackCandidate} {current : ModelVector} {config : Rotation3DConfig}
  {triedKeys : Finset String} {purpose : RotationPurpose} {c : FallbackCandidate}

theorem toModelVector_eq_iff :
    c.toModelVector = current ↔ c.providerId = current.providerId ∧
      c.accountId = current.accountId ∧ c.modelID = current.modelID := by
  obtain ⟨vector, _⟩ := c
  exact ModelVector.mk.injEq .. ▸ Iff.rfl

theorem isAvailable_iff :
    isAvailable current config triedKeys c = true ↔ Selectable current config triedKeys c := by
  unfold isAvailable Selectable
  simp only [ne_eq, toModelVector_eq_iff]
  grind

/-! ### The family comes first -/

/-- The least that the strategy adds to another account of the same provider. -/
def familyFloor : FallbackStrategy → ℚ
  | .anyAvailable => 0
  | _ => 200

theorem familyFloor_le (strategy : FallbackStrategy) {candidate : ModelVector}
    (h : IsFamily candidate current) :
    familyFloor strategy ≤ dimensionScore strategy candidate current := by
  obtain ⟨hprovider, haccount⟩ := h
  cases strategy <;> simp only [familyFloor, dimensionScore, hprovider, haccount] <;> norm_num
  split <;> norm_num

theorem dimensionScore_le (strategy : FallbackStrategy) (candidate current : ModelVector) :
    dimensionScore strategy candidate current ≤ familyFloor strategy + 100 := by
  cases strategy with
  | anyAvailable => norm_num [familyFloor, dimensionScore]
  | _ =>
    simp only [familyFloor, dimensionScore]
    split_ifs <;> norm_num

theorem purposeScore_bounds (purpose : RotationPurpose) (capabilities : Option Capabilities) :
    0 ≤ purposeScore purpose capabilities ∧ purposeScore purpose capabilities ≤ 500 := by
  unfold purposeScore
  split <;> constructor <;> norm_num

/-- What comes from the trackers: a health of 100 at most and a wait that is not negative. -/
def Tracked (c : FallbackCandidate) : Prop := c.healthScore ≤ 100 ∧ 0 ≤ c.waitTimeMs

theorem score_of_no_priority (hproviders : config.providerPriority = [])
    (hrules : config.priorityRules.getD [] = []) :
    scoreCandidateByStrategy c current config purpose =
      roundDouble (roundDouble (roundDouble (roundDouble (c.healthScore +
        (if IsFamily c.toModelVector current then 1000 else 0)) +
        dimensionScore config.strategy c.toModelVector current) +
        purposeScore purpose c.capabilities) - roundDouble (c.waitTimeMs / 1000)) := by
  have hproviderScore : providerPriorityScore config c.providerId = 0 :=
    if_neg fun h => by simp [hproviders] at h
  have hruleScore : ruleScore (config.priorityRules.getD []) c.toModelVector = 0 := by
    rw [hrules]
    rfl
  simp only [scoreCandidateByStrategy, hproviderScore, hruleScore, add_zero, roundDouble_roundDouble]

/-- **Another account of the provider is ahead of what is none.** -/
theorem score_lt_of_family (hproviders : config.providerPriority = [])
    (hrules : config.priorityRules.getD [] = []) {f : FallbackCandidate}
    (hf : IsFamily f.toModelVector current) (hhealth : 0 ≤ f.healthScore)
    (hwait : f.waitTimeMs = 0) (hc : ¬IsFamily c.toModelVector current) (htracked : Tracked c) :
    scoreCandidateByStrategy c current config purpose <
      scoreCandidateByStrategy f current config purpose := by
  rw [score_of_no_priority hproviders hrules, score_of_no_priority hproviders hrules, if_neg hc,
    if_pos hf, hwait, add_zero, zero_div, roundDouble_zero, sub_zero, roundDouble_roundDouble]
  obtain ⟨floor, hfloor, hsmall⟩ : ∃ n : ℕ, familyFloor config.strategy = n ∧ n ≤ 200 := by
    cases config.strategy with
    | anyAvailable => exact ⟨0, by norm_num [familyFloor], by norm_num⟩
    | _ => exact ⟨200, by norm_num [familyFloor], by norm_num⟩
  have hdimension := dimensionScore_le config.strategy c.toModelVector current
  have hdimension' := familyFloor_le config.strategy hf
  have hpurpose := (purposeScore_bounds purpose c.capabilities).2
  have hpurpose' := (purposeScore_bounds purpose f.capabilities).1
  rw [hfloor] at hdimension hdimension'
  obtain ⟨hcapped, hnonneg⟩ := htracked
  -- the one has 700 points more than the floor at most, the other one 1000 at least
  have hlow : roundDouble (roundDouble (roundDouble (roundDouble c.healthScore +
      dimensionScore config.strategy c.toModelVector current) +
      purposeScore purpose c.capabilities) - roundDouble (c.waitTimeMs / 1000)) ≤
        (floor + 700 : ℕ) := by
    have h1 := @roundDouble_le_natCast c.healthScore 100 (by norm_num) (by exact_mod_cast hcapped)
    have h2 := @roundDouble_le_natCast (roundDouble c.healthScore +
      dimensionScore config.strategy c.toModelVector current) (floor + 200) (by omega) (by
        push_cast at h1 ⊢
        linarith)
    have h3 := @roundDouble_le_natCast (roundDouble (roundDouble c.healthScore +
      dimensionScore config.strategy c.toModelVector current) +
      purposeScore purpose c.capabilities) (floor + 700) (by omega) (by
        push_cast at h2 ⊢
        linarith)
    have hwaited := roundDouble_mono (div_nonneg hnonneg (show (0 : ℚ) ≤ 1000 by norm_num))
    rw [roundDouble_zero] at hwaited
    exact roundDouble_le_natCast (by omega) ((sub_le_self _ hwaited).trans h3)
  have hhigh : ((floor + 1000 : ℕ) : ℚ) ≤ roundDouble (roundDouble (roundDouble (f.healthScore +
      1000) + dimensionScore config.strategy f.toModelVector current) +
      purposeScore purpose f.capabilities) := by
    have h1 := @natCast_le_roundDouble (f.healthScore + 1000) 1000 (by norm_num) (by
      push_cast
      linarith)
    have h2 := @natCast_le_roundDouble (roundDouble (f.healthScore + 1000) +
      dimensionScore config.strategy f.toModelVector current) (floor + 1000) (by omega) (by
        push_cast at h1 ⊢
        linarith)
    exact natCast_le_roundDouble (by omega) (h2.trans (le_add_of_nonneg_right hpurpose'))
  have hbetween : ((floor + 700 : ℕ) : ℚ) < (floor + 1000 : ℕ) := by
    exact_mod_cast (by omega : floor + 700 < floor + 1000)
  exact hlow.trans_lt (hbetween.trans_le hhigh)

/-! ### What is chosen -/

theorem head?_sliceTo {α : Type} {xs : List α} {stop : ℤ} (h : 1 ≤ stop) :
    (sliceTo xs stop).head? = xs.head? := by
  unfold sliceTo
  rw [if_neg (by omega), List.head?_take, if_neg (by omega)]

def ranking (candidates : List FallbackCandidate) (current : ModelVector)
    (config : Rotation3DConfig) (triedKeys : Finset String) (purpose : RotationPurpose) :
    List FallbackCandidate :=
  ((candidates.filter (isAvailable current config triedKeys)).map fun c =>
    { c with priority := scoreCandidateByStrategy c current config purpose }).insertionSort
      fun a b => b.priority ≤ a.priority

theorem mem_ranking {r : FallbackCandidate} :
    r ∈ ranking candidates current config triedKeys purpose ↔
      ∃ c ∈ candidates, Selectable current config triedKeys c ∧
        r = { c with priority := scoreCandidateByStrategy c current config purpose } := by
  unfold ranking
  rw [(List.perm_insertionSort _ _).mem_iff, List.mem_map]
  constructor
  · rintro ⟨c, hc, rfl⟩
    obtain ⟨hmem, havailable⟩ := List.mem_filter.mp hc
    exact ⟨c, hmem, isAvailable_iff.mp havailable, rfl⟩
  · rintro ⟨c, hmem, hselectable, rfl⟩
    exact ⟨c, List.mem_filter.mpr ⟨hmem, isAvailable_iff.mpr hselectable⟩, rfl⟩

theorem priority_le_head {r other : FallbackCandidate} {rest : List FallbackCandidate}
    (h : ranking candidates current config triedKeys purpose = r :: rest)
    (hother : other ∈ ranking candidates current config triedKeys purpose) :
    other.priority ≤ r.priority := by
  have hsorted : (ranking candidates current config triedKeys purpose).Pairwise
      fun a b => b.priority ≤ a.priority := by
    have : Std.Total fun a b : FallbackCandidate => b.priority ≤ a.priority :=
      ⟨fun a b => le_total b.priority a.priority⟩
    exact List.pairwise_insertionSort _ _
  rw [h] at hsorted hother
  rcases List.mem_cons.mp hother with rfl | hrest
  · exact le_rfl
  · exact (List.pairwise_cons.mp hsorted).1 other hrest

theorem selectBestFallback_eq (hmax : 1 ≤ config.maxCandidates) :
    selectBestFallback candidates current config triedKeys purpose =
      (ranking candidates current config triedKeys purpose).head?.map
        fun best => { best with «from» := some current } := by
  unfold selectBestFallback ranking
  dsimp only
  rw [head?_sliceTo hmax]
  split
  next h => rw [h]; rfl
  next => rfl

/-- **The choice is the best of what may be chosen.** -/
theorem selectBestFallback_eq_some (hmax : 1 ≤ config.maxCandidates) {best : FallbackCandidate}
    (h : selectBestFallback candidates current config triedKeys purpose = some best) :
    ∃ c ∈ candidates, Selectable current config triedKeys c ∧
      best.toModelVector = c.toModelVector ∧ best.isRateLimited = c.isRateLimited ∧
      ∀ other ∈ candidates, Selectable current config triedKeys other →
        scoreCandidateByStrategy other current config purpose ≤
          scoreCandidateByStrategy c current config purpose := by
  rw [selectBestFallback_eq hmax] at h
  cases hranking : ranking candidates current config triedKeys purpose with
  | nil =>
    rw [hranking] at h
    cases h
  | cons r rest =>
    rw [hranking] at h
    cases h
    obtain ⟨c, hc, hselectable, rfl⟩ := mem_ranking.mp (hranking ▸ List.mem_cons_self)
    refine ⟨c, hc, hselectable, rfl, rfl, fun other hother hsel => ?_⟩
    exact priority_le_head hranking (mem_ranking.mpr ⟨other, hother, hsel, rfl⟩)

/-- **Nothing is chosen exactly if nothing may be.** -/
theorem selectBestFallback_eq_none (hmax : 1 ≤ config.maxCandidates) :
    selectBestFallback candidates current config triedKeys purpose = none ↔
      ∀ c ∈ candidates, ¬Selectable current config triedKeys c := by
  rw [selectBestFallback_eq hmax, Option.map_eq_none_iff, List.head?_eq_none_iff,
    List.eq_nil_iff_forall_not_mem]
  constructor
  · intro h c hc hselectable
    exact h _ (mem_ranking.mpr ⟨c, hc, hselectable, rfl⟩)
  · intro h r hr
    obtain ⟨c, hc, hselectable, -⟩ := mem_ranking.mp hr
    exact h c hc hselectable

/-- **The selection is sound and stays in the family.** With room for one candidate it returns
none exactly if none may be chosen, what it returns may be chosen, and that is another account of
the provider whenever there is one that is healthy and need not wait. -/
theorem selectBestFallback_sound (hproviders : config.providerPriority = [])
    (hrules : config.priorityRules.getD [] = []) (hmax : 1 ≤ config.maxCandidates)
    (hmin : 0 ≤ config.minHealthScore) {candidates : List FallbackCandidate}
    (htracked : ∀ c ∈ candidates, Tracked c) (current : ModelVector) (triedKeys : Finset String)
    (purpose : RotationPurpose) :
    (selectBestFallback candidates current config triedKeys purpose = none ↔
      ∀ c ∈ candidates, ¬Selectable current config triedKeys c) ∧
    ∀ best, selectBestFallback candidates current config triedKeys purpose = some best →
      best.isRateLimited = false ∧ best.toModelVector ≠ current ∧
      makeKey best.toModelVector ∉ triedKeys ∧
      ((∃ f ∈ candidates, Selectable current config triedKeys f ∧
          IsFamily f.toModelVector current ∧ config.minHealthScore ≤ f.healthScore ∧
          f.waitTimeMs = 0) →
        IsFamily best.toModelVector current) := by
  refine ⟨selectBestFallback_eq_none hmax, fun best h => ?_⟩
  obtain ⟨c, hc, hselectable, hvector, hlimited, hbest⟩ := selectBestFallback_eq_some hmax h
  obtain ⟨htried, hfree, hcurrent, -⟩ := hselectable
  rw [hvector, hlimited]
  refine ⟨hfree, hcurrent, htried, ?_⟩
  rintro ⟨f, hf, hselectable, hfamily, hhealth, hwait⟩
  by_contra hother
  have hlt : scoreCandidateByStrategy c current config purpose <
      scoreCandidateByStrategy f current config purpose :=
    score_lt_of_family hproviders hrules hfamily (hmin.trans hhealth) hwait hother (htracked c hc)
  exact absurd (hbest f hf hselectable) (not_le.mpr hlt)

/-- The account of the provider against a model of another one that is made for the purpose. -/
theorem selectBestFallback_sound_openai :
    let current : ModelVector := ⟨"openai", "work", "gpt-5"⟩
    let account : FallbackCandidate :=
      ⟨⟨"openai", "home", "gpt-5"⟩, 30, false, 0, 0, .sameModelDiffAccount, none, none⟩
    let coder : FallbackCandidate :=
      ⟨⟨"anthropic", "home", "claude"⟩, 100, false, 0, 0, .diffProvider, none,
        some ⟨none, none, none, none, none, some true, none⟩⟩
    ∃ best, selectBestFallback [coder, account] current defaultRotation3DConfig ∅ .coding =
        some best ∧ IsFamily best.toModelVector current := by
  intro current account coder
  have htracked : ∀ c ∈ [coder, account], Tracked c := by
    intro c hc
    rcases List.mem_pair.mp hc with rfl | rfl <;> norm_num [Tracked, coder, account]
  have hsound := @selectBestFallback_sound defaultRotation3DConfig rfl rfl (by decide)
    (by norm_num [defaultRotation3DConfig]) _ htracked current ∅ .coding
  have hselectable : Selectable current defaultRotation3DConfig ∅ account :=
    ⟨Finset.notMem_empty _, rfl, by decide, fun _ => ⟨rfl, by
      norm_num [account, defaultRotation3DConfig]⟩⟩
  obtain ⟨best, hbest⟩ := Option.ne_none_iff_exists'.mp fun h =>
    hsound.1.mp h account (by simp) hselectable
  refine ⟨best, hbest, (hsound.2 best hbest).2.2.2 ⟨account, by simp, hselectable, by decide, ?_,
    rfl⟩⟩
  norm_num [account, defaultRotation3DConfig]

end Rotation3D

end OpenCms.Rotation
