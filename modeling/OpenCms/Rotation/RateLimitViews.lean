import OpenCms.Rotation.RateLimitTracker

/-!
# What the rate limits say

`RateLimitTracker` answers three questions about an account at a provider and a model: whether it is
limited, why, and for how long. Each of them looks at the limit of the model first, and then at that
of the provider, and drops what has expired on its way. `OpenCms.Rotation.RateLimitTracker.judged` is
the limit that counts, and all three answers are read off it
(`OpenCms.Rotation.RateLimitTracker.views_agree_framed`).
-/

namespace OpenCms.Rotation.RateLimitTracker

variable (legacy : LegacyFiles)

/-! ### The answers -/

def unexpired (now : ℤ) (limits : Record RateLimitState) : Record RateLimitState where
  entries := limits.entries.filter fun limit => (now : ℚ) < limit.2.resetTime
  nodupKeys := by
    rw [← Multiset.nodup_keys]
    exact Multiset.nodup_of_le (Multiset.map_le_map (Multiset.filter_le _ _))
      (Multiset.nodup_keys.mpr limits.nodupKeys)

def clearExpired (now : ℤ) (limits : Record (Record RateLimitState)) (key : String) :
    Script StateFile (Record (Record RateLimitState)) :=
  match limits.lookup key with
  | none => pure limits
  | some providerLimits =>
    let kept := unexpired now providerLimits
    if kept = ∅ then do
      persistToFile legacy (limits.erase key)
      pure (limits.erase key)
    else if kept ≠ providerLimits then do
      persistToFile legacy (limits.insert key kept)
      pure (limits.insert key kept)
    else pure limits

def isLive (now : ℤ) (limit : Option RateLimitState) : Bool :=
  limit.any fun limit => (now : ℚ) < limit.resetTime

def modelLimit (providerLimits : Record RateLimitState) (provider : String)
    (model : Option String) : Option RateLimitState :=
  (model.filter (· ≠ "")).bind fun model => providerLimits.lookup (provider ++ ":" ++ model)

def isRateLimited (now : ℤ) (accountId provider : String) (model : Option String) :
    Script StateFile Bool := do
  let limits ← loadFromFile legacy
  let key := makeKey provider accountId
  let limits ← clearExpired legacy now limits key
  match limits.lookup key with
  | none => pure false
  | some providerLimits =>
    pure (isLive now (modelLimit providerLimits provider model) ||
      isLive now (providerLimits.lookup provider))

def getReason (now : ℤ) (accountId provider : String) (model : Option String) :
    Script StateFile (Option RateLimitReason) := do
  let limits ← loadFromFile legacy
  let key := makeKey provider accountId
  let limits ← clearExpired legacy now limits key
  match limits.lookup key with
  | none => pure none
  | some providerLimits =>
    let modelLimit := (modelLimit providerLimits provider model).filter (isLive now ∘ some)
    let providerLimit := (providerLimits.lookup provider).filter (isLive now ∘ some)
    pure ((modelLimit.or providerLimit).map RateLimitState.reason)

/-- How long a limit lasts, after something that lasts so long. -/
def waitAfter (now : ℤ) (maxWait : ℚ) (limit : Option RateLimitState) : ℚ :=
  match limit with
  | none => maxWait
  | some limit => max maxWait (limit.resetTime - now)

def getWaitTime (now : ℤ) (accountId provider : String) (model : Option String) :
    Script StateFile ℚ := do
  let limits ← loadFromFile legacy
  let key := makeKey provider accountId
  let limits ← clearExpired legacy now limits key
  match limits.lookup key with
  | none => pure 0
  | some providerLimits =>
    let maxWait := waitAfter now 0 (modelLimit providerLimits provider model)
    pure (max 0 (waitAfter now maxWait (providerLimits.lookup provider)))

/-! ### The limit that counts -/

variable {legacy} {now : ℤ} {file : StateFile} {accountId provider key : String}
  {model : Option String} {limits : Record (Record RateLimitState)} {innerKey : String}

def liveLimit (legacy : LegacyFiles) (now : ℤ) (file : StateFile) (key innerKey : String) :
    Option RateLimitState :=
  (((stateOf legacy file).rateLimits.lookup key).bind (·.lookup innerKey)).filter
    (isLive now ∘ some)

def looked (legacy : LegacyFiles) (now : ℤ) (file : StateFile) (accountId provider : String)
    (model : Option String) : Option RateLimitState × Option RateLimitState :=
  ((model.filter (· ≠ "")).bind fun model =>
      liveLimit legacy now file (makeKey provider accountId) (provider ++ ":" ++ model),
    liveLimit legacy now file (makeKey provider accountId) provider)

/-- **The limit that counts**: that of the model, or else that of the provider. -/
def judged (legacy : LegacyFiles) (now : ℤ) (file : StateFile) (accountId provider : String)
    (model : Option String) : Option RateLimitState :=
  (looked legacy now file accountId provider model).1.or
    (looked legacy now file accountId provider model).2

theorem lookup_unexpired (now : ℤ) (inner : Record RateLimitState) (k : String) :
    (unexpired now inner).lookup k = (inner.lookup k).filter (isLive now ∘ some) := by
  ext limit
  rw [Finmap.lookup_eq_some_iff, Option.filter_eq_some_iff, Finmap.lookup_eq_some_iff]
  change (⟨k, limit⟩ : Sigma fun _ => RateLimitState) ∈ inner.entries.filter _ ↔ _
  simp [isLive]

theorem clearExpired_lookup (file : StateFile) :
    (((clearExpired legacy now limits key).run file).1.lookup key).bind (·.lookup innerKey) =
      ((limits.lookup key).bind (·.lookup innerKey)).filter (isLive now ∘ some) := by
  rw [clearExpired]
  cases h : limits.lookup key with
  | none => simp [h]
  | some inner =>
    have hunexpired := lookup_unexpired now inner innerKey
    dsimp only
    split
    next hempty =>
      rw [hempty, Finmap.lookup_empty] at hunexpired
      simp [Finmap.lookup_erase, ← hunexpired]
    next =>
      split
      next => simp [Finmap.lookup_insert, hunexpired]
      next hsame =>
        rw [not_not.mp hsame] at hunexpired
        simp [h, ← hunexpired]

theorem modelLimit_of_cleared {inner : Record RateLimitState}
    (h : ∀ k, inner.lookup k = liveLimit legacy now file key k) :
    modelLimit inner provider model =
      (model.filter (· ≠ "")).bind fun model =>
        liveLimit legacy now file key (provider ++ ":" ++ model) := by
  simp only [modelLimit, h]

theorem looked_of_none
    (h : ∀ k, liveLimit legacy now file (makeKey provider accountId) k = none) :
    looked legacy now file accountId provider model = (none, none) := by
  simp [looked, h]

/-- **Each answer is read off the limits that are left when the account has been cleared of what has
expired.** -/
theorem run_of_cleared {β : Type} {P : β → Prop} {nothing : β} {answer : Record RateLimitState → β}
    (hnone : (∀ k, liveLimit legacy now file key k = none) → P nothing)
    (hsome : ∀ inner : Record RateLimitState,
      (∀ k, inner.lookup k = liveLimit legacy now file key k) → P (answer inner)) :
    P (((loadFromFile legacy).bind fun limits =>
      (clearExpired legacy now limits key).bind fun limits =>
        match limits.lookup key with
        | none => .done nothing
        | some inner => .done (answer inner)).run file).1 := by
  have hcleared : ∀ k, (((clearExpired legacy now (stateOf legacy file).rateLimits key).run
      ((readUnifiedState legacy).run file).2).1.lookup key).bind (·.lookup k) =
        liveLimit legacy now file key k := fun _ => clearExpired_lookup _
  simp only [loadFromFile, Script.bind_eq, Script.run_bind, run_readUnifiedState_fst,
    Script.pure_eq, Script.run_done]
  generalize ((clearExpired legacy now (stateOf legacy file).rateLimits key).run
    ((readUnifiedState legacy).run file).2).1 = cleared at hcleared ⊢
  cases hinner : cleared.lookup key with
  | none =>
    refine hnone fun k => ?_
    rw [← hcleared k, hinner, Option.bind_none]
  | some inner =>
    refine hsome inner fun k => ?_
    rw [← hcleared k, hinner, Option.bind_some]

/-! ### What the answers come to -/

def AllLive (now : ℤ) (limit : Option RateLimitState) : Prop :=
  ∀ l, limit = some l → isLive now (some l) = true

theorem allLive_liveLimit : AllLive now (liveLimit legacy now file key innerKey) :=
  fun _ h => (Option.filter_eq_some_iff.mp h).2

theorem allLive_model :
    AllLive now ((model.filter (· ≠ "")).bind fun model =>
      liveLimit legacy now file key (provider ++ ":" ++ model)) := by
  intro l h
  obtain ⟨m, -, hm⟩ := Option.bind_eq_some_iff.mp h
  exact allLive_liveLimit l hm

section Live

variable {limit : Option RateLimitState} {maxWait : ℚ}

theorem AllLive.isLive_eq (h : AllLive now limit) : isLive now limit = limit.isSome := by
  cases limit with
  | none => rfl
  | some l => exact h l rfl

theorem AllLive.filter_eq (h : AllLive now limit) :
    limit.filter (isLive now ∘ some) = limit := by
  cases limit with
  | none => rfl
  | some l => exact Option.filter_eq_some_iff.mpr ⟨rfl, h l rfl⟩

theorem AllLive.waitAfter_pos_iff (h : AllLive now limit) :
    0 < waitAfter now maxWait limit ↔ 0 < maxWait ∨ limit.isSome = true := by
  cases limit with
  | none => simp [waitAfter]
  | some l =>
    have hlive : (now : ℚ) < l.resetTime := of_decide_eq_true (h l rfl)
    refine iff_of_true ?_ (Or.inr rfl)
    exact lt_max_of_lt_right (sub_pos.mpr hlive)

end Live

theorem run_isRateLimited :
    ((isRateLimited legacy now accountId provider model).run file).1 =
      (judged legacy now file accountId provider model).isSome := by
  refine run_of_cleared (P := fun limited : Bool =>
    limited = (judged legacy now file accountId provider model).isSome) (fun h => ?_) fun inner h => ?_
  · rw [judged, looked_of_none h]
    rfl
  · rw [judged, looked, modelLimit_of_cleared h, h, allLive_model.isLive_eq,
      allLive_liveLimit.isLive_eq, Option.isSome_or]

theorem run_getReason :
    ((getReason legacy now accountId provider model).run file).1 =
      (judged legacy now file accountId provider model).map RateLimitState.reason := by
  refine run_of_cleared (P := fun reason : Option RateLimitReason => reason =
    (judged legacy now file accountId provider model).map RateLimitState.reason)
    (fun h => ?_) fun inner h => ?_
  · rw [judged, looked_of_none h]
    rfl
  · rw [judged, looked, modelLimit_of_cleared h, h, allLive_model.filter_eq,
      allLive_liveLimit.filter_eq]

/-- **The time to wait is the longer one** of the two limits that are looked at. -/
theorem run_getWaitTime :
    ((getWaitTime legacy now accountId provider model).run file).1 =
      max 0 (waitAfter now (waitAfter now 0 (looked legacy now file accountId provider model).1)
        (looked legacy now file accountId provider model).2) := by
  refine run_of_cleared (P := fun wait : ℚ => wait =
    max 0 (waitAfter now (waitAfter now 0 (looked legacy now file accountId provider model).1)
      (looked legacy now file accountId provider model).2)) (fun h => ?_) fun inner h => ?_
  · rw [looked_of_none h]
    simp [waitAfter]
  · rw [looked, modelLimit_of_cleared h, h]

/-- **There is a time to wait if there is a limit that counts.** -/
theorem run_getWaitTime_pos :
    0 < ((getWaitTime legacy now accountId provider model).run file).1 ↔
      (judged legacy now file accountId provider model).isSome = true := by
  rw [run_getWaitTime, judged, looked, lt_max_iff, allLive_liveLimit.waitAfter_pos_iff,
    allLive_model.waitAfter_pos_iff, Option.isSome_or, Bool.or_eq_true]
  simp

/-! ### What a mark or a clearing changes -/

/-- A mark or a clearing of one vector **concerns** another one: the account has the same key there,
and the model is the same, or all models of the provider are meant. -/
def Concerns (accountId provider : String) (model : Option String) (accountId' provider' : String)
    (model' : Option String) : Prop :=
  provider' = provider ∧ makeKey provider' accountId' = makeKey provider accountId ∧
    (model'.filter (· ≠ "") = model.filter (· ≠ "") ∨ model.filter (· ≠ "") = none)

section Frame

variable {file' : StateFile} {accountId' provider' : String} {model' : Option String}
  {m m' : String}

theorem append_colon_inj (hp : ':' ∉ provider.toList) (hp' : ':' ∉ provider'.toList)
    (h : provider ++ ":" ++ m = provider' ++ ":" ++ m') : provider = provider' ∧ m = m' := by
  have hlist : provider.toList ++ ':' :: m.toList = provider'.toList ++ ':' :: m'.toList := by
    simpa using congrArg String.toList h
  rcases List.append_eq_append_iff.mp hlist with ⟨between, heq, hrest⟩ | ⟨between, heq, hrest⟩
  · cases between with
    | nil =>
      rw [List.append_nil] at heq
      exact ⟨String.toList_inj.mp heq.symm, String.toList_inj.mp (List.cons.inj hrest).2⟩
    | cons c between =>
      obtain rfl := (List.cons.inj hrest).1
      exact absurd (heq ▸ List.mem_append_right _ List.mem_cons_self) hp'
  · cases between with
    | nil =>
      rw [List.append_nil] at heq
      exact ⟨String.toList_inj.mp heq, String.toList_inj.mp (List.cons.inj hrest).2.symm⟩
    | cons c between =>
      obtain rfl := (List.cons.inj hrest).1
      exact absurd (heq ▸ List.mem_append_right _ List.mem_cons_self) hp

theorem append_colon_ne (hp' : ':' ∉ provider'.toList) : provider ++ ":" ++ m ≠ provider' := by
  rintro rfl
  exact hp' (by simp)

theorem modelKey_of_none (h : model.filter (· ≠ "") = none) : modelKey provider model = provider := by
  rw [modelKey, h]

theorem modelKey_of_some (h : model.filter (· ≠ "") = some m) :
    modelKey provider model = provider ++ ":" ++ m := by
  rw [modelKey, h]

theorem liveLimit_congr
    (h : view legacy file' (.limit key innerKey) = view legacy file (.limit key innerKey)) :
    liveLimit legacy now file' key innerKey = liveLimit legacy now file key innerKey := by
  have hinj : Function.Injective Entry.limit := fun _ _ heq => Entry.limit.inj heq
  rw [liveLimit, liveLimit, Option.map_injective hinj h]

/-- **What is changed at one place of the limits leaves the answers for a vector as they are that it
does not concern.** -/
theorem looked_congr (hp : ':' ∉ provider.toList) (hp' : ':' ∉ provider'.toList)
    (hview : ∀ slot ≠ Slot.limit (makeKey provider accountId) (modelKey provider model),
      view legacy file' slot = view legacy file slot)
    (hother : ¬Concerns accountId provider model accountId' provider' model') :
    looked legacy now file' accountId' provider' model' =
      looked legacy now file accountId' provider' model' := by
  -- neither of the two places that are looked at is the one that was changed
  have hprovider : liveLimit legacy now file' (makeKey provider' accountId') provider' =
      liveLimit legacy now file (makeKey provider' accountId') provider' := by
    refine liveLimit_congr (hview _ fun heq => ?_)
    obtain ⟨hkey, hmodel⟩ := Slot.limit.inj heq
    cases hm : model.filter (· ≠ "") with
    | none =>
      rw [modelKey_of_none hm] at hmodel
      exact hother ⟨hmodel, hkey, Or.inr hm⟩
    | some m =>
      rw [modelKey_of_some hm] at hmodel
      exact append_colon_ne hp' hmodel.symm
  have hboth : ∀ m', model'.filter (· ≠ "") = some m' →
      liveLimit legacy now file' (makeKey provider' accountId') (provider' ++ ":" ++ m') =
        liveLimit legacy now file (makeKey provider' accountId') (provider' ++ ":" ++ m') := by
    intro m' hm'
    refine liveLimit_congr (hview _ fun heq => ?_)
    obtain ⟨hkey, hmodel⟩ := Slot.limit.inj heq
    cases hm : model.filter (· ≠ "") with
    | none =>
      rw [modelKey_of_none hm] at hmodel
      exact append_colon_ne hp hmodel
    | some m =>
      rw [modelKey_of_some hm] at hmodel
      obtain ⟨rfl, rfl⟩ := append_colon_inj hp' hp hmodel
      exact hother ⟨rfl, hkey, Or.inl (hm'.trans hm.symm)⟩
  rw [looked, looked, hprovider]
  cases hm' : model'.filter (· ≠ "") with
  | none => rfl
  | some m' => rw [Option.bind_some, Option.bind_some, hboth m' hm']

/-- The answers for a vector: whether it is limited, why, and for how long. -/
def answers (legacy : LegacyFiles) (now : ℤ) (file : StateFile) (accountId provider : String)
    (model : Option String) : Bool × Option RateLimitReason × ℚ :=
  (((isRateLimited legacy now accountId provider model).run file).1,
    ((getReason legacy now accountId provider model).run file).1,
    ((getWaitTime legacy now accountId provider model).run file).1)

theorem answers_congr
    (h : looked legacy now file' accountId' provider' model' =
      looked legacy now file accountId' provider' model') :
    answers legacy now file' accountId' provider' model' =
      answers legacy now file accountId' provider' model' := by
  simp only [answers, run_isRateLimited, run_getReason, run_getWaitTime, judged, h]

/-- **The three answers agree, and a mark or a clearing changes them only for the vectors it
concerns.** -/
theorem views_agree_framed (legacy : LegacyFiles) (now : ℤ) (file : StateFile)
    (accountId provider : String) (model : Option String) (reason : RateLimitReason)
    (backoffMs : ℚ) (accountId' provider' : String) (model' : Option String) :
    ((((isRateLimited legacy now accountId provider model).run file).1 = true ↔
          0 < ((getWaitTime legacy now accountId provider model).run file).1) ∧
        (0 < ((getWaitTime legacy now accountId provider model).run file).1 ↔
          ((getReason legacy now accountId provider model).run file).1 ≠ none)) ∧
      (':' ∉ provider.toList → ':' ∉ provider'.toList →
        ¬Concerns accountId provider model accountId' provider' model' →
          answers legacy now ((markRateLimited legacy now accountId provider reason backoffMs
              model).run file).2 accountId' provider' model' =
            answers legacy now file accountId' provider' model' ∧
          answers legacy now ((clear legacy accountId provider model).run file).2 accountId'
              provider' model' =
            answers legacy now file accountId' provider' model') := by
  refine ⟨⟨?_, ?_⟩, fun hp hp' hother => ⟨?_, ?_⟩⟩
  · rw [run_isRateLimited, run_getWaitTime_pos]
  · rw [run_getWaitTime_pos, run_getReason, ne_eq, Option.map_eq_none_iff,
      Option.isSome_iff_ne_none]
  · refine answers_congr (looked_congr hp hp' (fun slot hslot => ?_) hother)
    rw [view_markRateLimited, Store.set_of_ne hslot]
  · refine answers_congr (looked_congr hp hp' (fun slot hslot => ?_) hother)
    rw [view_clear, Store.set_of_ne hslot]

end Frame

def limitedFile : StateFile :=
  ((markRateLimited ⟨none, none⟩ 1000 "a1" "openai" .quotaExhausted 9000 (some "m2")).run .absent).2

/-- The account is marked for another model as well. -/
theorem views_agree_framed_other :
    answers ⟨none, none⟩ 2000 limitedFile "a1" "openai" (some "m2") =
        (true, some .quotaExhausted, 8000) ∧
      answers ⟨none, none⟩ 2000
          ((markRateLimited ⟨none, none⟩ 2000 "a1" "openai" .rateLimitExceeded 500
            (some "m1")).run limitedFile).2 "a1" "openai" (some "m2") =
        (true, some .quotaExhausted, 8000) := by
  have hlimited : answers ⟨none, none⟩ 2000 limitedFile "a1" "openai" (some "m2") =
      (true, some .quotaExhausted, 8000) := by decide +kernel
  have hcolon : ':' ∉ "openai".toList := by decide
  have hother : ¬Concerns "a1" "openai" (some "m1") "a1" "openai" (some "m2") := by
    rintro ⟨-, -, h | h⟩
    · exact absurd h (by decide)
    · exact absurd h (by decide)
  refine ⟨hlimited, ?_⟩
  rw [← hlimited]
  exact ((views_agree_framed ⟨none, none⟩ 2000 limitedFile "a1" "openai" (some "m1")
    .rateLimitExceeded 500 "a1" "openai" (some "m2")).2 hcolon hcolon hother).1

end OpenCms.Rotation.RateLimitTracker
