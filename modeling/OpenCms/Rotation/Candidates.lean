import OpenCms.Account.Families
import OpenCms.Rotation.Fallback

/-!
# The candidates for a fallback

`buildFallbackCandidates` collects the vectors that a rate limited one may fall back to: other
accounts, favourites, models of other providers, and models that are free. What is hidden is left
out, and of several candidates with the same key only the first is kept.

Two strings stand between the candidates and what they were made from. The favourites of the
current provider are joined by a slash and split again, which cuts a model id that has a slash
itself; and the key is joined by colons, which makes vectors equal that are not if an account id
or a model id has a colon. `OpenCms.Rotation.Rotation3D.sound_iff` says that nothing else
goes wrong.
-/

namespace OpenCms.Rotation

/-! ### What is read -/

structure ModelInfo where
  id : String
  status : String
  costInput : ℚ
  costOutput : ℚ
  inputModalities : Option (List String)
  reasoning : Bool
  contextLimit : ℚ

/-- An entry of `favorite` in `model.json`. -/
structure Favorite where
  providerId : String
  modelID : String
  tags : Option (List String)

/-- An entry of `hidden`. -/
structure HiddenModel where
  providerId : String
  modelID : String

/-- A family of accounts, as far as candidates are made of it. -/
structure FamilyAccounts where
  accountIds : List String
  activeAccount : Option String

/-- What `buildFallbackCandidates` reads: the providers and their models, the quotas, the lists of
`model.json`, the accounts, and what the trackers say of a vector. -/
structure World where
  providers : List (String × List (String × ModelInfo))
  quotas : String → Option (ℚ × ℚ)
  favorite : List Favorite
  hidden : List HiddenModel
  hiddenProviders : List String
  knownFamilies : List String
  families : List (String × FamilyAccounts)
  healthScore : String → String → ℚ
  waitTimeMs : ModelVector → ℚ
  isRateLimited : ModelVector → Bool

namespace Rotation3D

variable (world : World) (current : ModelVector)

def resolveFamily (providerId : String) : Option String :=
  Account.resolveFamilyFromKnown providerId world.knownFamilies

def accountIds (family : String) : List String :=
  ((world.families.lookup family).map (·.accountIds)).getD []

def getActive (family : String) : Option String :=
  (world.families.lookup family).bind (·.activeAccount)

def joinModel (providerId modelID : String) : String := providerId ++ "/" ++ modelID

/-- `split("/")`, and the first two parts of it. -/
def splitModel (fav : String) : String × String :=
  match fav.toList.splitOn '/' with
  | providerId :: modelId :: _ => (String.ofList providerId, String.ofList modelId)
  | _ => (fav, "")

def isHidden (vector : ModelVector) : Bool :=
  world.hiddenProviders.contains vector.providerId ||
    (world.hidden.map fun h => joinModel h.providerId h.modelID).contains
      (joinModel vector.providerId vector.modelID)

def includes (id text : String) : Bool := decide (text.toList <:+: id.toList)

def extractCapabilities : Option ModelInfo → Capabilities
  | none => ⟨none, none, none, none, none, none, none⟩
  | some model =>
    let input := model.inputModalities.getD []
    let id := String.ofList (model.id.toList.flatMap toLowerCase)
    { image := some (input.contains "image")
      audio := some (input.contains "audio")
      video := some (input.contains "video")
      pdf := some (input.contains "pdf")
      reasoning :=
        some (model.reasoning || includes id "deepseek-r" || includes id "o1" || includes id "o3")
      coding := some (includes id "codex" || includes id "coder" || includes id "coding")
      longContext := some (decide (128000 ≤ model.contextLimit)) }

/-- `evaluateWhamUsageQuota`, as far as it says that the quota is exhausted. -/
def isQuotaExhausted (providerId accountId : String) : Bool :=
  if providerId = "openai" ∨ providerId = "codex" then
    (world.quotas accountId).any fun quota => decide (quota.1 ≤ 0 ∨ quota.2 ≤ 0)
  else false

def enrich (vector : ModelVector) (reason : FallbackReason) : FallbackCandidate :=
  let model := (world.providers.lookup vector.providerId).bind (·.lookup vector.modelID)
  { vector with
    healthScore := world.healthScore vector.accountId vector.providerId
    isRateLimited := world.isRateLimited vector ||
      isQuotaExhausted world vector.providerId vector.accountId
    waitTimeMs := world.waitTimeMs vector
    priority := 0
    reason := reason
    «from» := none
    capabilities := some (extractCapabilities model) }

def offer (vector : ModelVector) (reason : FallbackReason) : List FallbackCandidate :=
  if isHidden world vector then [] else [enrich world vector reason]

/-! ### The steps -/

def sameModelCandidates : List FallbackCandidate :=
  match resolveFamily world current.providerId with
  | none => []
  | some family => (accountIds world family).flatMap fun accountId =>
    if accountId = current.accountId then []
    else offer world ⟨current.providerId, accountId, current.modelID⟩ .sameModelDiffAccount

def sameAccountCandidates : List FallbackCandidate :=
  let allowedModels := (world.favorite.map fun f => joinModel f.providerId f.modelID).eraseDups
  allowedModels.flatMap fun fav =>
    let parts := splitModel fav
    -- an id that has a slash in it is cut off at the slash
    if parts.1 ≠ current.providerId then []
    else if parts.2 = current.modelID then []
    else offer world ⟨current.providerId, current.accountId, parts.2⟩ .diffModelSameAccount

def applyTag (caps : Capabilities) (tag : String) : Capabilities :=
  match tag with
  | "image" => { caps with image := caps.image.map fun _ => true }
  | "audio" => { caps with audio := caps.audio.map fun _ => true }
  | "video" => { caps with video := caps.video.map fun _ => true }
  | "reasoning" => { caps with reasoning := caps.reasoning.map fun _ => true }
  | "pdf" => { caps with pdf := caps.pdf.map fun _ => true }
  | "coding" => { caps with coding := caps.coding.map fun _ => true }
  | "longContext" => { caps with longContext := caps.longContext.map fun _ => true }
  | _ => caps

def applyTags (tags : Option (List String)) (c : FallbackCandidate) : FallbackCandidate :=
  { c with capabilities := c.capabilities.map fun caps => (tags.getD []).foldl applyTag caps }

def favoriteCandidates : List FallbackCandidate :=
  world.favorite.flatMap fun fav =>
    -- hidden vectors are left out here and again when they are offered
    if fav.providerId = "" then []
    else if world.hiddenProviders.contains fav.providerId then []
    else if (world.hidden.map fun h => joinModel h.providerId h.modelID).contains
        (joinModel fav.providerId fav.modelID) then []
    else if fav.providerId = current.providerId ∧ fav.modelID = current.modelID then []
    else
      match resolveFamily world fav.providerId with
      | none => []
      | some family => (accountIds world family).flatMap fun accountId =>
        let reason : FallbackReason :=
          if fav.providerId = current.providerId then .diffModelSameAccount else .diffProvider
        (offer world ⟨fav.providerId, accountId, fav.modelID⟩ reason).map (applyTags fav.tags)

def codeUnits (s : String) : List ℕ :=
  s.toList.flatMap fun c =>
    if c.toNat < 0x10000 then [c.toNat]
    else [0xd800 + (c.toNat - 0x10000) / 0x400, 0xdc00 + (c.toNat - 0x10000) % 0x400]

def sortModels (models : List ModelInfo) : List ModelInfo :=
  let priority := ["gpt-5", "claude-sonnet-4", "big-pickle", "gemini-3-pro"]
  let rank (model : ModelInfo) : ℤ :=
    match priority.findIdx? (includes model.id) with
    | some i => i
    | none => -1
  let latest (model : ModelInfo) : ℕ := if includes model.id "latest" then 0 else 1
  models.insertionSort fun a b =>
    rank b < rank a ∨ rank a = rank b ∧
      (latest a < latest b ∨ latest a = latest b ∧ codeUnits b.id ≤ codeUnits a.id)

/-- Step 3b: the first three models of every other provider, with every account of its family. -/
def rescueCandidates : List FallbackCandidate :=
  world.providers.flatMap fun (providerId, models) =>
    if providerId = "" ∨ providerId = current.providerId then []
    else if world.hiddenProviders.contains providerId then []
    else
      match resolveFamily world providerId with
      | none => []
      | some family =>
        let sorted := (sortModels (models.map (·.2))).filter (·.status ≠ "deprecated")
        (sorted.take 3).flatMap fun model => (accountIds world family).flatMap fun accountId =>
          offer world ⟨providerId, accountId, model.id⟩ .diffProvider

def freeAccount : String :=
  let active := (resolveFamily world "opencode").bind (getActive world)
  (active.filter (· ≠ "")).getD "public"

def freeCandidates : List FallbackCandidate :=
  ((world.providers.lookup "opencode").getD []).flatMap fun (modelId, model) =>
    -- free is what costs nothing either way
    if 0 < model.costInput ∨ 0 < model.costOutput then []
    else
      let vector : ModelVector := ⟨"opencode", freeAccount world, modelId⟩
      -- the active account may be the one in use, and then the model is another one
      if vector = current then [] else offer world vector .fallback

def generated : List FallbackCandidate :=
  sameModelCandidates world current ++ sameAccountCandidates world current ++
    favoriteCandidates world current ++ rescueCandidates world current ++
    freeCandidates world current

/-- What is left when only the first candidate of each key is kept. -/
def deduplicate {α κ : Type} [DecidableEq κ] (key : α → κ) (seen : List κ) : List α → List α
  | [] => []
  | c :: cs =>
    if key c ∈ seen then deduplicate key seen cs else c :: deduplicate key (key c :: seen) cs

def buildFallbackCandidates : List FallbackCandidate :=
  deduplicate (fun c => makeKey c.toModelVector) [] (generated world current)

/-! ### Keeping the first of each key -/

section Deduplicate

variable {α κ : Type} [DecidableEq κ] {key : α → κ} {seen : List κ} {cs : List α}

theorem mem_of_mem_deduplicate {c : α} (h : c ∈ deduplicate key seen cs) : c ∈ cs := by
  induction cs generalizing seen with
  | nil => exact h
  | cons d cs ih =>
    unfold deduplicate at h
    split at h
    · exact List.mem_cons_of_mem _ (ih h)
    · rcases List.mem_cons.mp h with rfl | h
      · exact List.mem_cons_self
      · exact List.mem_cons_of_mem _ (ih h)

theorem exists_mem_deduplicate {c : α} (hc : c ∈ cs) (hseen : key c ∉ seen) :
    ∃ r ∈ deduplicate key seen cs, key r = key c := by
  induction cs generalizing seen with
  | nil => cases hc
  | cons d cs ih =>
    unfold deduplicate
    split
    next hd =>
      rcases List.mem_cons.mp hc with rfl | hc
      · exact absurd hd hseen
      · exact ih hc hseen
    next =>
      rcases eq_or_ne (key c) (key d) with heq | hne
      · exact ⟨d, List.mem_cons_self, heq.symm⟩
      · rcases List.mem_cons.mp hc with rfl | hc
        · exact absurd rfl hne
        · have hnot : key c ∉ key d :: seen := by simp [hne, hseen]
          obtain ⟨r, hr, hkey⟩ := ih hc hnot
          exact ⟨r, List.mem_cons_of_mem _ hr, hkey⟩

theorem key_notMem_of_mem_deduplicate {c : α} (h : c ∈ deduplicate key seen cs) :
    key c ∉ seen := by
  induction cs generalizing seen with
  | nil => cases h
  | cons d cs ih =>
    unfold deduplicate at h
    split at h
    · exact ih h
    next hd =>
      rcases List.mem_cons.mp h with rfl | h
      · exact hd
      · exact fun hmem => ih h (List.mem_cons_of_mem _ hmem)

theorem eq_of_key_eq {c d : α} (hc : c ∈ deduplicate key seen cs)
    (hd : d ∈ deduplicate key seen cs) (hkey : key c = key d) : c = d := by
  induction cs generalizing seen with
  | nil => cases hc
  | cons e cs ih =>
    unfold deduplicate at hc hd
    split at hc
    next he =>
      rw [if_pos he] at hd
      exact ih hc hd
    next he =>
      rw [if_neg he] at hd
      rcases List.mem_cons.mp hc with rfl | hc <;> rcases List.mem_cons.mp hd with rfl | hd
      · rfl
      · exact absurd (hkey ▸ List.mem_cons_self) (key_notMem_of_mem_deduplicate hd)
      · exact absurd (hkey ▸ List.mem_cons_self) (key_notMem_of_mem_deduplicate hc)
      · exact ih hc hd

end Deduplicate

/-! ### What is on offer -/

variable {world current} {vector : ModelVector}

inductive Source (world : World) (current : ModelVector) : ModelVector → Prop
  | account {family accountId : String}
      (hfamily : resolveFamily world current.providerId = some family)
      (haccount : accountId ∈ accountIds world family) (hother : accountId ≠ current.accountId) :
      Source world current ⟨current.providerId, accountId, current.modelID⟩
  | model {fav : Favorite} (hfav : fav ∈ world.favorite)
      (hprovider : (splitModel (joinModel fav.providerId fav.modelID)).1 = current.providerId)
      (hother : (splitModel (joinModel fav.providerId fav.modelID)).2 ≠ current.modelID) :
      Source world current ⟨current.providerId, current.accountId,
        (splitModel (joinModel fav.providerId fav.modelID)).2⟩
  | favorite {fav : Favorite} {family accountId : String} (hfav : fav ∈ world.favorite)
      (hne : fav.providerId ≠ "")
      (hother : ¬(fav.providerId = current.providerId ∧ fav.modelID = current.modelID))
      (hfamily : resolveFamily world fav.providerId = some family)
      (haccount : accountId ∈ accountIds world family) :
      Source world current ⟨fav.providerId, accountId, fav.modelID⟩
  | rescue {providerId family accountId : String} {models : List (String × ModelInfo)}
      {model : ModelInfo} (hprovider : (providerId, models) ∈ world.providers)
      (hne : providerId ≠ "") (hother : providerId ≠ current.providerId)
      (hfamily : resolveFamily world providerId = some family)
      (hmodel : model ∈
        ((sortModels (models.map (·.2))).filter (·.status ≠ "deprecated")).take 3)
      (haccount : accountId ∈ accountIds world family) :
      Source world current ⟨providerId, accountId, model.id⟩
  | free {models : List (String × ModelInfo)} {modelId : String} {model : ModelInfo}
      (hprovider : world.providers.lookup "opencode" = some models)
      (hmodel : (modelId, model) ∈ models)
      (hfree : ¬(0 < model.costInput ∨ 0 < model.costOutput))
      (hother : (⟨"opencode", freeAccount world, modelId⟩ : ModelVector) ≠ current) :
      Source world current ⟨"opencode", freeAccount world, modelId⟩

/-- **A vector is on offer** when one of the steps is about it, and it is not hidden. -/
def Offered (world : World) (current vector : ModelVector) : Prop :=
  Source world current vector ∧ isHidden world vector = false

theorem vector_enrich {reason : FallbackReason} :
    (enrich world vector reason).toModelVector = vector :=
  rfl

theorem mem_offer {reason : FallbackReason} {c : FallbackCandidate} :
    c ∈ offer world vector reason ↔
      isHidden world vector = false ∧ c = enrich world vector reason := by
  unfold offer
  cases isHidden world vector <;> simp

theorem isHidden_eq_false :
    isHidden world vector = false ↔ vector.providerId ∉ world.hiddenProviders ∧
      joinModel vector.providerId vector.modelID ∉
        world.hidden.map fun h => joinModel h.providerId h.modelID := by
  unfold isHidden
  rw [Bool.or_eq_false_iff, List.contains_eq_mem, List.contains_eq_mem, decide_eq_false_iff_not,
    decide_eq_false_iff_not]

/-! ### What each step generates -/

section Steps

variable {c : FallbackCandidate}

theorem mem_sameModelCandidates : c ∈ sameModelCandidates world current ↔
    ∃ family, resolveFamily world current.providerId = some family ∧
      ∃ accountId ∈ accountIds world family, accountId ≠ current.accountId ∧
        c ∈ offer world ⟨current.providerId, accountId, current.modelID⟩
          .sameModelDiffAccount := by
  unfold sameModelCandidates
  cases resolveFamily world current.providerId with
  | none => simp
  | some family => simp only [List.mem_flatMap, List.mem_ite_nil_left, Option.some.injEq,
      exists_eq_left']

theorem mem_sameAccountCandidates : c ∈ sameAccountCandidates world current ↔
    ∃ fav ∈ world.favorite,
      (splitModel (joinModel fav.providerId fav.modelID)).1 = current.providerId ∧
      (splitModel (joinModel fav.providerId fav.modelID)).2 ≠ current.modelID ∧
      c ∈ offer world ⟨current.providerId, current.accountId,
        (splitModel (joinModel fav.providerId fav.modelID)).2⟩ .diffModelSameAccount := by
  unfold sameAccountCandidates
  simp only [List.mem_flatMap, List.mem_eraseDups, List.mem_map, List.mem_ite_nil_left, not_not]
  constructor
  · rintro ⟨_, ⟨fav, hfav, rfl⟩, h⟩
    exact ⟨fav, hfav, h⟩
  · rintro ⟨fav, hfav, h⟩
    exact ⟨_, ⟨fav, hfav, rfl⟩, h⟩

theorem mem_favoriteCandidates : c ∈ favoriteCandidates world current ↔
    ∃ fav ∈ world.favorite, fav.providerId ≠ "" ∧ fav.providerId ∉ world.hiddenProviders ∧
      joinModel fav.providerId fav.modelID ∉
        world.hidden.map (fun h => joinModel h.providerId h.modelID) ∧
      ¬(fav.providerId = current.providerId ∧ fav.modelID = current.modelID) ∧
      ∃ family, resolveFamily world fav.providerId = some family ∧
        ∃ accountId ∈ accountIds world family,
          ∃ d ∈ offer world ⟨fav.providerId, accountId, fav.modelID⟩
              (if fav.providerId = current.providerId then .diffModelSameAccount
                else .diffProvider),
            applyTags fav.tags d = c := by
  unfold favoriteCandidates
  rw [List.mem_flatMap]
  refine exists_congr fun fav => and_congr_right fun _ => ?_
  simp only [List.mem_ite_nil_left, List.contains_iff_mem]
  cases resolveFamily world fav.providerId with
  | none => simp
  | some family => simp only [List.mem_flatMap, List.mem_map, Option.some.injEq,
      exists_eq_left', ne_eq]

theorem mem_rescueCandidates : c ∈ rescueCandidates world current ↔
    ∃ providerId models, (providerId, models) ∈ world.providers ∧
      ¬(providerId = "" ∨ providerId = current.providerId) ∧
      providerId ∉ world.hiddenProviders ∧
      ∃ family, resolveFamily world providerId = some family ∧
        ∃ model ∈ ((sortModels (models.map (·.2))).filter (·.status ≠ "deprecated")).take 3,
          ∃ accountId ∈ accountIds world family,
            c ∈ offer world ⟨providerId, accountId, model.id⟩ .diffProvider := by
  unfold rescueCandidates
  rw [List.mem_flatMap, Prod.exists]
  refine exists_congr fun providerId => exists_congr fun models => and_congr_right fun _ => ?_
  simp only [List.mem_ite_nil_left, List.contains_iff_mem]
  cases resolveFamily world providerId with
  | none => simp
  | some family => simp only [List.mem_flatMap, Option.some.injEq, exists_eq_left']

theorem mem_freeCandidates : c ∈ freeCandidates world current ↔
    ∃ models, world.providers.lookup "opencode" = some models ∧
      ∃ modelId model, (modelId, model) ∈ models ∧
        ¬(0 < model.costInput ∨ 0 < model.costOutput) ∧
        (⟨"opencode", freeAccount world, modelId⟩ : ModelVector) ≠ current ∧
        c ∈ offer world ⟨"opencode", freeAccount world, modelId⟩ .fallback := by
  unfold freeCandidates
  cases world.providers.lookup "opencode" with
  | none => simp
  | some models => simp only [Option.getD_some, List.mem_flatMap, Prod.exists,
      List.mem_ite_nil_left, Option.some.injEq, exists_eq_left', ne_eq]

end Steps

/-- **Every candidate is of a vector on offer.** -/
theorem offered_of_mem_generated {c : FallbackCandidate} (h : c ∈ generated world current) :
    Offered world current c.toModelVector := by
  simp only [generated, List.mem_append] at h
  rcases h with (((h | h) | h) | h) | h
  · obtain ⟨family, hfamily, accountId, haccount, hother, h⟩ := mem_sameModelCandidates.mp h
    obtain ⟨hhidden, rfl⟩ := mem_offer.mp h
    exact ⟨.account hfamily haccount hother, hhidden⟩
  · obtain ⟨fav, hfav, hprovider, hother, h⟩ := mem_sameAccountCandidates.mp h
    obtain ⟨hhidden, rfl⟩ := mem_offer.mp h
    exact ⟨.model hfav hprovider hother, hhidden⟩
  · obtain ⟨fav, hfav, hne, _, _, hother, family, hfamily, accountId, haccount, d, hd, rfl⟩ :=
      mem_favoriteCandidates.mp h
    obtain ⟨hhidden, rfl⟩ := mem_offer.mp hd
    exact ⟨.favorite hfav hne hother hfamily haccount, hhidden⟩
  · obtain ⟨providerId, models, hprovider, hother, _, family, hfamily, model, hmodel, accountId,
      haccount, h⟩ := mem_rescueCandidates.mp h
    obtain ⟨hne, hother⟩ := not_or.mp hother
    obtain ⟨hhidden, rfl⟩ := mem_offer.mp h
    exact ⟨.rescue hprovider hne hother hfamily hmodel haccount, hhidden⟩
  · obtain ⟨models, hprovider, modelId, model, hmodel, hfree, hother, h⟩ :=
      mem_freeCandidates.mp h
    obtain ⟨hhidden, rfl⟩ := mem_offer.mp h
    exact ⟨.free hprovider hmodel hfree hother, hhidden⟩

/-- **Every vector on offer has a candidate.** -/
theorem exists_mem_generated (h : Offered world current vector) :
    ∃ c ∈ generated world current, c.toModelVector = vector := by
  obtain ⟨hsource, hhidden⟩ := h
  have hoffer : ∀ reason, enrich world vector reason ∈ offer world vector reason :=
    fun reason => mem_offer.mpr ⟨hhidden, rfl⟩
  obtain ⟨hprovider', hmodel'⟩ := isHidden_eq_false.mp hhidden
  simp only [generated, List.mem_append]
  cases hsource with
  | account hfamily haccount hother =>
    have h := mem_sameModelCandidates.mpr ⟨_, hfamily, _, haccount, hother, hoffer _⟩
    exact ⟨_, Or.inl (Or.inl (Or.inl (Or.inl h))), vector_enrich⟩
  | model hfav hprovider hother =>
    have h := mem_sameAccountCandidates.mpr ⟨_, hfav, hprovider, hother, hoffer _⟩
    exact ⟨_, Or.inl (Or.inl (Or.inl (Or.inr h))), vector_enrich⟩
  | favorite hfav hne hother hfamily haccount =>
    have h := mem_favoriteCandidates.mpr
      ⟨_, hfav, hne, hprovider', hmodel', hother, _, hfamily, _, haccount, _, hoffer _, rfl⟩
    exact ⟨_, Or.inl (Or.inl (Or.inr h)), rfl⟩
  | rescue hprovider hne hother hfamily hmodel haccount =>
    have h := mem_rescueCandidates.mpr ⟨_, _, hprovider, not_or.mpr ⟨hne, hother⟩, hprovider', _,
      hfamily, _, hmodel, _, haccount, hoffer _⟩
    exact ⟨_, Or.inl (Or.inr h), vector_enrich⟩
  | free hprovider hmodel hfree hother =>
    have h := mem_freeCandidates.mpr
      ⟨_, hprovider, _, _, hmodel, hfree, hother, hoffer _⟩
    exact ⟨_, Or.inr h, vector_enrich⟩

/-! ### The two strings -/

theorem splitModel_joinModel {providerId modelID : String} (hprovider : '/' ∉ providerId.toList)
    (hmodel : '/' ∉ modelID.toList) :
    splitModel (joinModel providerId modelID) = (providerId, modelID) := by
  have hchars : (joinModel providerId modelID).toList.splitOn '/' =
      [providerId.toList, modelID.toList] := by
    have hjoin : (joinModel providerId modelID).toList =
        providerId.toList ++ '/' :: modelID.toList := by
      simp [joinModel]
    rw [hjoin, List.splitOn_append_cons_self_of_not_mem hprovider,
      List.splitOn_eq_singleton hmodel]
  unfold splitModel
  rw [hchars]
  simp

/-- **Keys tell vectors apart** unless there is a colon in a provider id or in an account id. -/
theorem eq_of_makeKey_eq {v w : ModelVector} (h : makeKey v = makeKey w)
    (hv : ':' ∉ v.providerId.toList ∧ ':' ∉ v.accountId.toList)
    (hw : ':' ∉ w.providerId.toList ∧ ':' ∉ w.accountId.toList) : v = w := by
  have hchars (u : ModelVector) : (makeKey u).toList =
      u.providerId.toList ++ ':' :: (u.accountId.toList ++ ':' :: u.modelID.toList) := by
    simp [makeKey]
  have hsplit (u : ModelVector) (hu : ':' ∉ u.providerId.toList ∧ ':' ∉ u.accountId.toList) :
      (makeKey u).toList.splitOn ':' =
        u.providerId.toList :: u.accountId.toList :: u.modelID.toList.splitOn ':' := by
    rw [hchars, List.splitOn_append_cons_self_of_not_mem hu.1,
      List.splitOn_append_cons_self_of_not_mem hu.2]
  have hparts := hsplit v hv
  rw [h, hsplit w hw, List.cons.injEq, List.cons.injEq] at hparts
  obtain ⟨hprovider, haccount, hmodel⟩ := hparts
  have hmodel : w.modelID.toList = v.modelID.toList :=
    calc w.modelID.toList
      _ = [':'].intercalate (w.modelID.toList.splitOn ':') := (List.intercalate_splitOn ':').symm
      _ = [':'].intercalate (v.modelID.toList.splitOn ':') := by rw [hmodel]
      _ = v.modelID.toList := List.intercalate_splitOn ':'
  exact ModelVector.mk.injEq .. ▸ ⟨(String.toList_injective hprovider).symm,
    (String.toList_injective haccount).symm, (String.toList_injective hmodel).symm⟩

/-! ### When the candidates are sound -/

/-- A pair is **real** when it is the current one, a favourite, or a model that is registered. -/
def Real (world : World) (current : ModelVector) (providerId modelID : String) : Prop :=
  (providerId = current.providerId ∧ modelID = current.modelID) ∨
    (∃ fav ∈ world.favorite, fav.providerId = providerId ∧ fav.modelID = modelID) ∨
      ∃ models, (providerId, models) ∈ world.providers ∧
        ∃ entry ∈ models, modelID = entry.1 ∨ modelID = entry.2.id

/-- A pair is **hidden** when its provider is or there is an entry of `hidden` for it. -/
def Hidden (world : World) (providerId modelID : String) : Prop :=
  providerId ∈ world.hiddenProviders ∨
    ∃ h ∈ world.hidden, h.providerId = providerId ∧ h.modelID = modelID

/-- The candidates are **sound** when every one of them is real and not hidden, and for every one
that the steps generate, one of the same provider, account and model is returned. -/
def Sound (world : World) (current : ModelVector) : Prop :=
  (∀ c ∈ buildFallbackCandidates world current,
    Real world current c.providerId c.modelID ∧ ¬Hidden world c.providerId c.modelID) ∧
  ∀ c ∈ generated world current,
    ∃ r ∈ buildFallbackCandidates world current, r.toModelVector = c.toModelVector

/-- Favourites **are read back** when, of those that have a slash in an id, what stands for a
model of the current provider is a real one. -/
def FavoritesReadBack (world : World) (current : ModelVector) : Prop :=
  ∀ fav ∈ world.favorite, '/' ∈ fav.providerId.toList ∨ '/' ∈ fav.modelID.toList →
    (splitModel (joinModel fav.providerId fav.modelID)).1 = current.providerId →
    isHidden world ⟨current.providerId, current.accountId,
      (splitModel (joinModel fav.providerId fav.modelID)).2⟩ = false →
    Real world current current.providerId (splitModel (joinModel fav.providerId fav.modelID)).2

/-- The key **tells** the vectors on offer **apart**, of which one has a colon in its provider id
or in its account id. -/
def KeysTellApart (world : World) (current : ModelVector) : Prop :=
  ∀ v w, Offered world current v → Offered world current w →
    (':' ∈ v.providerId.toList ∨ ':' ∈ v.accountId.toList ∨
      ':' ∈ w.providerId.toList ∨ ':' ∈ w.accountId.toList) →
    makeKey v = makeKey w → v = w

theorem not_hidden (h : isHidden world vector = false) :
    ¬Hidden world vector.providerId vector.modelID := by
  obtain ⟨hprovider, hmodel⟩ := isHidden_eq_false.mp h
  rintro (hmem | ⟨entry, hmem, heq₁, heq₂⟩)
  · exact hprovider hmem
  · refine hmodel (List.mem_map.mpr ⟨entry, hmem, ?_⟩)
    rw [heq₁, heq₂]

theorem real_of_offered (hfav : FavoritesReadBack world current)
    (h : Offered world current vector) :
    Real world current vector.providerId vector.modelID := by
  obtain ⟨hsource, hhidden⟩ := h
  cases hsource with
  | account => exact Or.inl ⟨rfl, rfl⟩
  | @model fav hmem hprovider hother =>
    by_cases hslash : '/' ∈ fav.providerId.toList ∨ '/' ∈ fav.modelID.toList
    · exact hfav fav hmem hslash hprovider hhidden
    · obtain ⟨hp, hm⟩ := not_or.mp hslash
      rw [splitModel_joinModel hp hm] at hprovider ⊢
      exact Or.inr (Or.inl ⟨fav, hmem, hprovider, rfl⟩)
  | @favorite fav _ _ hmem => exact Or.inr (Or.inl ⟨fav, hmem, rfl, rfl⟩)
  | @rescue providerId _ _ models model hprovider _ _ _ hmodel =>
    have hmem : model ∈ models.map (·.2) :=
      (List.perm_insertionSort _ _).mem_iff.mp (List.mem_filter.mp (List.mem_of_mem_take hmodel)).1
    obtain ⟨entry, hentry, rfl⟩ := List.mem_map.mp hmem
    exact Or.inr (Or.inr ⟨models, hprovider, entry, hentry, Or.inr rfl⟩)
  | @free models modelId model hprovider hmodel =>
    obtain ⟨before, after, hlist, _⟩ := List.lookup_eq_some_iff.mp hprovider
    have hmem : ("opencode", models) ∈ world.providers := by
      rw [hlist]
      exact List.mem_append_right _ List.mem_cons_self
    exact Or.inr (Or.inr ⟨models, hmem, (modelId, model), hmodel, Or.inl rfl⟩)

theorem eq_of_offered (hkeys : KeysTellApart world current) {v w : ModelVector}
    (hv : Offered world current v) (hw : Offered world current w) (h : makeKey v = makeKey w) :
    v = w := by
  by_cases hcolon : ':' ∈ v.providerId.toList ∨ ':' ∈ v.accountId.toList ∨
      ':' ∈ w.providerId.toList ∨ ':' ∈ w.accountId.toList
  · exact hkeys v w hv hw hcolon h
  · simp only [not_or] at hcolon
    obtain ⟨hv₁, hv₂, hw₁, hw₂⟩ := hcolon
    exact eq_of_makeKey_eq h ⟨hv₁, hv₂⟩ ⟨hw₁, hw₂⟩

/-- **The candidates are sound exactly when the favourites are read back and the key tells the
vectors on offer apart.** -/
theorem sound_iff (world : World) (current : ModelVector) :
    Sound world current ↔ FavoritesReadBack world current ∧ KeysTellApart world current := by
  constructor
  · rintro ⟨hreal, hkept⟩
    have hreturned : ∀ v, Offered world current v →
        ∃ r ∈ buildFallbackCandidates world current, r.toModelVector = v := by
      intro v hv
      obtain ⟨c, hc, rfl⟩ := exists_mem_generated hv
      exact hkept c hc
    constructor
    · intro fav hfav _ hprovider hhidden
      by_cases hother :
          (splitModel (joinModel fav.providerId fav.modelID)).2 = current.modelID
      · exact Or.inl ⟨rfl, hother⟩
      -- the favourite is returned as it is read back
      · obtain ⟨r, hr, hvector⟩ := hreturned _ ⟨.model hfav hprovider hother, hhidden⟩
        have hreal := (hreal r hr).1
        rw [hvector] at hreal
        exact hreal
    -- both are returned, and only one candidate is returned for a key
    · intro v w hv hw _ hkey
      obtain ⟨r, hr, rfl⟩ := hreturned v hv
      obtain ⟨s, hs, rfl⟩ := hreturned w hw
      have heq : r = s := eq_of_key_eq hr hs hkey
      rw [heq]
  · rintro ⟨hfav, hkeys⟩
    constructor
    · intro c hc
      have hoffered := offered_of_mem_generated (mem_of_mem_deduplicate hc)
      exact ⟨real_of_offered hfav hoffered, not_hidden hoffered.2⟩
    · intro c hc
      have hkept : ∃ r ∈ buildFallbackCandidates world current,
          makeKey r.toModelVector = makeKey c.toModelVector :=
        exists_mem_deduplicate hc List.not_mem_nil
      obtain ⟨r, hr, hkey⟩ := hkept
      exact ⟨r, hr, eq_of_offered hkeys
        (offered_of_mem_generated (mem_of_mem_deduplicate hr)) (offered_of_mem_generated hc) hkey⟩

/-! ### Where they are not -/

def bare (providerId : String) (accountIds modelIDs : List String) : World :=
  { providers := []
    quotas := fun _ => none
    favorite := modelIDs.map fun modelID => ⟨providerId, modelID, none⟩
    hidden := []
    hiddenProviders := []
    knownFamilies := [providerId]
    families := [(providerId, ⟨accountIds, none⟩)]
    healthScore := fun _ _ => 0
    waitTimeMs := fun _ => 0
    isRateLimited := fun _ => false }

/-- A favourite `anthropic/claude` of `openrouter` makes a candidate of the model `anthropic`,
which is no model. Of the model `b:c` with the account `a`, and the model `c` with the account
`a:b`, only one is returned. -/
theorem not_sound :
    (∃ c ∈ buildFallbackCandidates (bare "openrouter" [] ["anthropic/claude"])
        ⟨"openrouter", "main", "auto"⟩,
      ¬Real (bare "openrouter" [] ["anthropic/claude"]) ⟨"openrouter", "main", "auto"⟩
        c.providerId c.modelID) ∧
    ∃ c ∈ generated (bare "openai" ["a", "a:b"] ["b:c", "c"]) ⟨"openai", "main", "auto"⟩,
      ∀ r ∈ buildFallbackCandidates (bare "openai" ["a", "a:b"] ["b:c", "c"])
        ⟨"openai", "main", "auto"⟩, r.toModelVector ≠ c.toModelVector := by
  constructor
  · have hmade : (⟨"openrouter", "main", "anthropic"⟩ : ModelVector) ∈
        (buildFallbackCandidates (bare "openrouter" [] ["anthropic/claude"])
          ⟨"openrouter", "main", "auto"⟩).map (·.toModelVector) := by decide
    obtain ⟨c, hc, hvector⟩ := List.mem_map.mp hmade
    refine ⟨c, hc, ?_⟩
    rw [hvector]
    rintro (⟨_, hmodel⟩ | ⟨fav, hfav, _, hmodel⟩ | ⟨models, hprovider, _⟩)
    · exact absurd hmodel (by decide)
    · obtain rfl := List.mem_singleton.mp hfav
      exact absurd hmodel (by decide)
    · exact absurd hprovider List.not_mem_nil
  · have hmade : (⟨"openai", "a:b", "c"⟩ : ModelVector) ∈
        (generated (bare "openai" ["a", "a:b"] ["b:c", "c"]) ⟨"openai", "main", "auto"⟩).map
          (·.toModelVector) := by decide
    have hmissing : (⟨"openai", "a:b", "c"⟩ : ModelVector) ∉
        (buildFallbackCandidates (bare "openai" ["a", "a:b"] ["b:c", "c"])
          ⟨"openai", "main", "auto"⟩).map (·.toModelVector) := by decide
    obtain ⟨c, hc, hvector⟩ := List.mem_map.mp hmade
    refine ⟨c, hc, fun r hr heq => hmissing ?_⟩
    exact List.mem_map.mpr ⟨r, hr, heq.trans hvector⟩

end Rotation3D

end OpenCms.Rotation
