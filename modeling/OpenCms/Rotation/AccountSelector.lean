import OpenCms.Lib.Double
import OpenCms.Rotation.State
import Mathlib.Data.List.Sort
import Mathlib.Tactic.Linarith
import Mathlib.Tactic.NormNum

/-!
# Which account to use

`selectBestAccount` scores the accounts that can be used, puts a bonus on the one in use, and takes
the best. It goes on to ask whether another one is so much better that it is worth a switch, of the
scores without the bonus. What is returned stays what is returned when it is the one in use, and an
account in use is left only for one that is ahead of it with its bonus
(`OpenCms.Rotation.AccountSelector.selection_settled`).

Scores are doubles, and the sum with the bonus is rounded: so the other one can be a little less
than the bonus ahead (`OpenCms.Rotation.AccountSelector.switched_below_bonus`).
-/

namespace OpenCms.Rotation.AccountSelector

/-- `AccountCandidate`. Times are milliseconds since the epoch. -/
structure AccountCandidate where
  id : String
  lastUsed : ℚ
  healthScore : ℚ
  isRateLimited : Bool
  isCoolingDown : Option Bool
  deriving DecidableEq

def stickinessBonus : ℚ := 150

def switchThreshold : ℚ := 100

def AccountCandidate.isEligible (minHealthScore : ℚ) (acc : AccountCandidate) : Bool :=
  !acc.isRateLimited && !acc.isCoolingDown.getD false && decide (minHealthScore ≤ acc.healthScore)

def AccountCandidate.baseScore (now : ℚ) (acc : AccountCandidate) : ℚ :=
  let healthComponent := roundDouble (acc.healthScore * 2)
  let secondsSinceUsed := roundDouble (roundDouble (now - acc.lastUsed) / 1000)
  let freshnessComponent := roundDouble (min secondsSinceUsed 3600 * roundDouble (1 / 10))
  max 0 (roundDouble (healthComponent + freshnessComponent))

/-- An entry of `scored`. -/
structure Scored where
  id : String
  baseScore : ℚ
  score : ℚ
  isCurrent : Bool
  deriving DecidableEq

/-- The entry of an account, while another one or the same one is in use. -/
def scoredOf (now : ℚ) (currentAccountId : Option String) (acc : AccountCandidate) : Scored :=
  let isCurrent := decide (some acc.id = currentAccountId)
  let bonus := if isCurrent then stickinessBonus else 0
  ⟨acc.id, acc.baseScore now, roundDouble (acc.baseScore now + bonus), isCurrent⟩

def Before (a b : Scored) : Prop := b.score ≤ a.score

instance : DecidableRel Before := fun a b => inferInstanceAs (Decidable (b.score ≤ a.score))

def scored (now : ℚ) (accounts : List AccountCandidate) (currentAccountId : Option String)
    (minHealthScore : ℚ) : List Scored :=
  ((accounts.filter (AccountCandidate.isEligible minHealthScore)).map
    (scoredOf now currentAccountId)).insertionSort Before

def selectBestAccount (now : ℚ) (accounts : List AccountCandidate)
    (currentAccountId : Option String) (minHealthScore : ℚ) : Option String :=
  let scored := scored now accounts currentAccountId minHealthScore
  match scored.head?, scored.find? Scored.isCurrent with
  | none, _ => none
  | some best, none => some best.id
  | some best, some currentCandidate =>
    if !best.isCurrent ∧
        roundDouble (best.baseScore - currentCandidate.baseScore) < switchThreshold then
      some currentCandidate.id
    else some best.id

section Selection

variable {now minHealthScore : ℚ} {accounts : List AccountCandidate}
  {currentAccountId : Option String} {acc other : AccountCandidate} {best s : Scored} {id : String}

instance : IsTrans Scored Before := ⟨fun _ _ _ hab hbc => le_trans hbc hab⟩

instance : Std.Total Before := ⟨fun a b => le_total b.score a.score⟩

theorem mem_scored : s ∈ scored now accounts currentAccountId minHealthScore ↔
    ∃ acc ∈ accounts, acc.isEligible minHealthScore ∧ scoredOf now currentAccountId acc = s := by
  simp [scored, and_assoc]

theorem score_le_of_head?
    (h : (scored now accounts currentAccountId minHealthScore).head? = some best)
    (hs : s ∈ scored now accounts currentAccountId minHealthScore) : s.score ≤ best.score := by
  obtain ⟨rest, hrest⟩ := List.head?_eq_some_iff.mp h
  have hsorted : (scored now accounts currentAccountId minHealthScore).Pairwise Before :=
    List.pairwise_insertionSort Before _
  rw [hrest] at hs hsorted
  rcases List.mem_cons.mp hs with rfl | hs
  · exact le_rfl
  · exact (List.pairwise_cons.mp hsorted).1 s hs

theorem roundDouble_baseScore : roundDouble (acc.baseScore now) = acc.baseScore now := by
  unfold AccountCandidate.baseScore
  dsimp only
  rcases max_cases 0 (roundDouble (roundDouble (acc.healthScore * 2) + roundDouble
      (min (roundDouble (roundDouble (now - acc.lastUsed) / 1000)) 3600 * roundDouble (1 / 10))))
    with ⟨h, -⟩ | ⟨h, -⟩
  · rw [h, roundDouble_zero]
  · rw [h, roundDouble_roundDouble]

theorem score_of_ne (h : currentAccountId ≠ some acc.id) :
    (scoredOf now currentAccountId acc).score = acc.baseScore now := by
  simp [scoredOf, h.symm, roundDouble_baseScore]

theorem score_self :
    (scoredOf now (some acc.id) acc).score = roundDouble (acc.baseScore now + stickinessBonus) := by
  simp [scoredOf]

theorem baseScore_le_score : acc.baseScore now ≤ (scoredOf now currentAccountId acc).score := by
  by_cases h : currentAccountId = some acc.id
  · rw [h, score_self]
    refine roundDouble_baseScore.symm.trans_le (roundDouble_mono ?_)
    norm_num [stickinessBonus]
  · rw [score_of_ne h]

theorem selectBestAccount_eq_none_iff :
    selectBestAccount now accounts currentAccountId minHealthScore = none ↔
      ∀ acc ∈ accounts, acc.isEligible minHealthScore = false := by
  have hhead : selectBestAccount now accounts currentAccountId minHealthScore = none ↔
      (scored now accounts currentAccountId minHealthScore).head? = none := by
    unfold selectBestAccount
    dsimp only
    cases (scored now accounts currentAccountId minHealthScore).head? with
    | none => simp
    | some best =>
      cases (scored now accounts currentAccountId minHealthScore).find? Scored.isCurrent with
      | none => simp
      | some current =>
        dsimp only
        split <;> simp
  rw [hhead, List.head?_eq_none_iff, List.eq_nil_iff_forall_not_mem]
  constructor
  · intro h acc hacc
    rw [← Bool.not_eq_true]
    exact fun heligible => h _ (mem_scored.mpr ⟨acc, hacc, heligible, rfl⟩)
  · intro h s hs
    obtain ⟨acc, hacc, heligible, -⟩ := mem_scored.mp hs
    rw [h acc hacc] at heligible
    cases heligible

/-- **What is returned** is the account in use, or the best one. -/
theorem selectBestAccount_eq_some
    (h : selectBestAccount now accounts currentAccountId minHealthScore = some id) :
    ∃ acc ∈ accounts, acc.isEligible minHealthScore ∧ acc.id = id ∧
      (currentAccountId = some id ∨ ∀ other ∈ accounts, other.isEligible minHealthScore →
        (scoredOf now currentAccountId other).score ≤
          (scoredOf now currentAccountId acc).score) := by
  unfold selectBestAccount at h
  dsimp only at h
  cases hbest : (scored now accounts currentAccountId minHealthScore).head? with
  | none => simp [hbest] at h
  | some best =>
    obtain ⟨acc, hacc, heligible, rfl⟩ := mem_scored.mp (List.mem_of_mem_head? hbest)
    have hle : ∀ other ∈ accounts, other.isEligible minHealthScore →
        (scoredOf now currentAccountId other).score ≤ (scoredOf now currentAccountId acc).score :=
      fun other hother heligible' =>
        score_le_of_head? hbest (mem_scored.mpr ⟨other, hother, heligible', rfl⟩)
    rw [hbest] at h
    cases hfind : (scored now accounts currentAccountId minHealthScore).find? Scored.isCurrent with
    | none =>
      rw [hfind] at h
      exact ⟨acc, hacc, heligible, Option.some.inj h, Or.inr hle⟩
    | some current =>
      rw [hfind] at h
      dsimp only at h
      split at h
      · obtain ⟨other, hother, heligible', rfl⟩ := mem_scored.mp (List.mem_of_find?_eq_some hfind)
        have hcurrent := List.find?_some hfind
        obtain rfl := Option.some.inj h
        exact ⟨other, hother, heligible', rfl, Or.inl (of_decide_eq_true hcurrent).symm⟩
      · exact ⟨acc, hacc, heligible, Option.some.inj h, Or.inr hle⟩

/-- **An account that no other one is ahead of** is returned when it is the one in use: another one
that has the same score because of the rounding is within the threshold. -/
theorem selectBestAccount_self (hnodup : (accounts.map AccountCandidate.id).Nodup)
    (hacc : acc ∈ accounts) (heligible : acc.isEligible minHealthScore)
    (hle : ∀ other ∈ accounts, other.isEligible minHealthScore →
      other.baseScore now ≤ acc.baseScore now) :
    selectBestAccount now accounts (some acc.id) minHealthScore = some acc.id := by
  have hmem := mem_scored (s := scoredOf now (some acc.id) acc).mpr ⟨acc, hacc, heligible, rfl⟩
  have hself : ∀ s ∈ scored now accounts (some acc.id) minHealthScore, s.isCurrent = true →
      s = scoredOf now (some acc.id) acc := by
    intro s hs hcurrent
    obtain ⟨other, hother, -, rfl⟩ := mem_scored.mp hs
    rw [List.inj_on_of_nodup_map hnodup hother hacc (Option.some.inj (of_decide_eq_true hcurrent))]
  unfold selectBestAccount
  dsimp only
  cases hbest : (scored now accounts (some acc.id) minHealthScore).head? with
  | none =>
    rw [List.head?_eq_none_iff.mp hbest] at hmem
    cases hmem
  | some best =>
    have hmem' := List.mem_of_mem_head? hbest
    cases hfind : (scored now accounts (some acc.id) minHealthScore).find? Scored.isCurrent with
    | none => exact absurd (List.find?_eq_none.mp hfind _ hmem) (by simp [scoredOf])
    | some current =>
      obtain rfl := hself current (List.mem_of_find?_eq_some hfind) (List.find?_some hfind)
      dsimp only
      split
      · rfl
      next hnot =>
        cases hcurrent : best.isCurrent with
        | true => rw [hself best hmem' hcurrent]; rfl
        | false =>
          obtain ⟨other, hother, heligible', rfl⟩ := mem_scored.mp hmem'
          refine absurd ⟨by rw [hcurrent]; rfl, ?_⟩ hnot
          have hsub := roundDouble_mono (sub_nonpos.mpr (hle other hother heligible'))
          rw [roundDouble_zero] at hsub
          exact hsub.trans_lt (by norm_num [switchThreshold])

end Selection

/-- **The selection is settled**: what is returned can be used, it is returned again when it is the
account in use, and an account in use that can be used is left only for one whose score is not below
its own with the bonus. -/
theorem selection_settled (now : ℚ) {accounts : List AccountCandidate}
    (hnodup : (accounts.map AccountCandidate.id).Nodup) (currentAccountId : Option String)
    (minHealthScore : ℚ) :
    (selectBestAccount now accounts currentAccountId minHealthScore = none ↔
        ∀ acc ∈ accounts, acc.isEligible minHealthScore = false) ∧
      ∀ id, selectBestAccount now accounts currentAccountId minHealthScore = some id →
        ∃ acc ∈ accounts, acc.id = id ∧ acc.isEligible minHealthScore ∧
          selectBestAccount now accounts (some id) minHealthScore = some id ∧
          ∀ current ∈ accounts, current.isEligible minHealthScore →
            currentAccountId = some current.id → current.id ≠ id →
              roundDouble (current.baseScore now + stickinessBonus) ≤ acc.baseScore now := by
  refine ⟨selectBestAccount_eq_none_iff, fun id h => ?_⟩
  obtain ⟨acc, hacc, heligible, rfl, hbest⟩ := selectBestAccount_eq_some h
  refine ⟨acc, hacc, rfl, heligible, ?_, ?_⟩
  · rcases eq_or_ne currentAccountId (some acc.id) with rfl | hne
    · exact h
    · refine selectBestAccount_self hnodup hacc heligible fun other hother heligible' => ?_
      have hle := baseScore_le_score.trans (hbest.resolve_left hne other hother heligible')
      rwa [score_of_ne hne] at hle
  · rintro current hcurrent heligible' rfl hne
    have hne' : some current.id ≠ some acc.id := fun heq => hne (Option.some.inj heq)
    have hle := hbest.resolve_left hne' current hcurrent heligible'
    rwa [score_self, score_of_ne hne'] at hle

/-- Two accounts that are as healthy as can be, the one used a while before the other. -/
def usedAgo (id : String) (seconds : ℚ) : AccountCandidate :=
  ⟨id, 2000000 - seconds * 1000, 100, false, none⟩

theorem selection_settled_home :
    ∃ acc ∈ [usedAgo "work" 4, usedAgo "home" 1600], acc.id = "home" ∧ acc.isEligible 50 ∧
      selectBestAccount 2000000 [usedAgo "work" 4, usedAgo "home" 1600] (some "home") 50 =
        some "home" ∧
      ∀ current ∈ [usedAgo "work" 4, usedAgo "home" 1600], current.isEligible 50 →
        some "work" = some current.id → current.id ≠ "home" →
          roundDouble (current.baseScore 2000000 + stickinessBonus) ≤ acc.baseScore 2000000 :=
  (selection_settled 2000000 (by decide) (some "work") 50).2 "home" (by decide +kernel)

/-- **A switch can be for a little less than the bonus**: the one in use has 200.4, the other one
350.4, as doubles. -/
theorem switched_below_bonus :
    ¬∀ (now : ℚ) (accounts : List AccountCandidate) (current acc : AccountCandidate)
        (minHealthScore : ℚ), (accounts.map AccountCandidate.id).Nodup →
      current ∈ accounts → acc ∈ accounts → current.isEligible minHealthScore →
      selectBestAccount now accounts (some current.id) minHealthScore = some acc.id →
      current.id ≠ acc.id → stickinessBonus ≤ acc.baseScore now - current.baseScore now := by
  intro h
  have hle := h 2000000 [usedAgo "home" 1504, usedAgo "work" 4] (usedAgo "work" 4)
    (usedAgo "home" 1504) 50 (by decide) (by simp) (by simp) (by decide +kernel)
    (by decide +kernel) (by decide)
  exact absurd hle (by decide +kernel)

end OpenCms.Rotation.AccountSelector
