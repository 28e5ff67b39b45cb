import Mathlib.Algebra.Order.BigOperators.Group.List
import Mathlib.Algebra.Order.Ring.Nat
import Mathlib.Data.Nat.Cast.Basic
import Mathlib.Data.List.Nodup
import Mathlib.Data.List.Perm.Subperm
import Mathlib.Logic.Relation

/-!
# Rooted trees by names

A tree whose nodes have names: each name has a parent and children, or there is no such node.
`OpenCms.Rooted` says that parents and children agree and that everything is found from one root.
Two things keep it: to give a leaf new children (`OpenCms.Rooted.graft`), and to take away what is
below a node (`OpenCms.Rooted.prune`).

A walk takes a node from the top of a stack and puts its children there instead. Where each node is
a child of one node at most and the start is not below itself, no node is taken twice; so as many
turns as there are nodes are enough, and the walk meets exactly what is below the start
(`OpenCms.mem_walk`). If the children go to the bottom instead, the same nodes are met level by level
(`OpenCms.pairwise_levels`). Where a node may be the child of many, but nothing leads back to it, a
walk still comes to its end (`OpenCms.walk_over`).
-/

namespace OpenCms

/-! ### Walks -/

section Walk

variable {α : Type*} (kids : α → List α)

/-- The nodes that a walk meets in so many turns. -/
def preorder : ℕ → List α → List α
  | 0, _ => []
  | _ + 1, [] => []
  | n + 1, a :: stack => a :: preorder n (kids a ++ stack)

/-- One node is below another. -/
def Below : α → α → Prop := Relation.ReflTransGen fun a b => b ∈ kids a

/-- The nodes that a walk meets in so many turns, when `push` puts the children of a node where the
walk is to find them. -/
def walk (push : List α → List α → List α) : ℕ → List α → List α
  | 0, _ => []
  | _ + 1, [] => []
  | n + 1, a :: stack => a :: walk push n (push (kids a) stack)

/-- A node is on one side and one on the other of a place where the way from above parts. -/
def Apart (a b : α) : Prop := ∃ p c c', [c, c'].Sublist (kids p) ∧ Below kids c a ∧ Below kids c' b

/-- A node comes before what is below it, and before what is on the later side. -/
def Before (a b : α) : Prop := a ≠ b ∧ Below kids a b ∨ Apart kids a b

variable {kids} {nodes : List α} {start a b : α} {n : ℕ} {stack : List α}
  {push : List α → List α → List α}

theorem preorder_eq_walk : preorder kids n stack = walk kids (· ++ ·) n stack := by
  induction n generalizing stack with
  | zero => rfl
  | succ n ih =>
    rcases stack with _ | ⟨a, stack⟩
    · rfl
    · exact congrArg (a :: ·) ih

section Push

-- nothing is lost on the stack, and nothing comes to it but the children
variable (hpush : ∀ new rest : List α, (push new rest).Perm (new ++ rest))

include hpush

theorem below_of_mem_walk (h : b ∈ walk kids push n stack) : ∃ a ∈ stack, Below kids a b := by
  induction n generalizing stack with
  | zero => cases h
  | succ n ih =>
    rcases stack with _ | ⟨a, stack⟩
    · cases h
    · rcases List.mem_cons.mp h with rfl | h
      · exact ⟨b, List.mem_cons_self, Relation.ReflTransGen.refl⟩
      · obtain ⟨c, hc, hbelow⟩ := ih h
        rcases List.mem_append.mp ((hpush _ _).mem_iff.mp hc) with hc | hc
        · exact ⟨a, List.mem_cons_self, hbelow.head hc⟩
        · exact ⟨c, List.mem_cons_of_mem _ hc, hbelow⟩

/-- **Where a node weighs more than its children together, a walk is over after as many turns as its
stack weighs.** -/
theorem walk_eq_walk {weight : α → ℕ} (hweight : ∀ a, ((kids a).map weight).sum < weight a) {m : ℕ}
    (hn : (stack.map weight).sum ≤ n) (hm : (stack.map weight).sum ≤ m) :
    walk kids push n stack = walk kids push m stack := by
  induction n generalizing stack m with
  | zero =>
    rcases stack with _ | ⟨a, stack⟩
    · rcases m with _ | m
      · rfl
      · rfl
    · have ha := hweight a
      rw [List.map_cons, List.sum_cons] at hn
      omega
  | succ n ih =>
    rcases stack with _ | ⟨a, stack⟩
    · rcases m with _ | m
      · rfl
      · rfl
    · have ha := hweight a
      have hsum : ((push (kids a) stack).map weight).sum =
          ((kids a).map weight).sum + (stack.map weight).sum := by
        rw [((hpush _ _).map weight).sum_eq, List.map_append, List.sum_append]
      rw [List.map_cons, List.sum_cons] at hn hm
      obtain ⟨m, rfl⟩ := Nat.exists_eq_add_one_of_ne_zero (show m ≠ 0 by omega)
      exact congrArg (a :: ·) (ih (by omega) (by omega))

end Push

/-- What a walk from `start` has taken and what it has still to take. -/
structure Walking (kids : α → List α) (nodes : List α) (start : α) (taken stack : List α) : Prop where
  nodup : (taken ++ stack).Nodup
  live : ∀ a ∈ taken ++ stack, a ∈ nodes
  below : ∀ a ∈ taken ++ stack, Below kids start a
  parent : ∀ b ∈ taken ++ stack, b = start ∨ ∃ a ∈ taken, b ∈ kids a

section

variable (hpush : ∀ new rest : List α, (push new rest).Perm (new ++ rest))
  (hkids : ∀ a, (kids a).Nodup) (hlive : ∀ a ∈ nodes, ∀ b ∈ kids a, b ∈ nodes)
  (hparent : ∀ a ∈ nodes, ∀ a' ∈ nodes, ∀ b, b ∈ kids a → b ∈ kids a' → a = a')
  (hstart : ∀ a, Below kids start a → start ∉ kids a)

include hpush hkids hlive hparent hstart

theorem Walking.turn {taken : List α} (h : Walking kids nodes start taken (a :: stack)) :
    Walking kids nodes start (taken ++ [a]) (push (kids a) stack) := by
  have ha : a ∈ taken ++ a :: stack := List.mem_append_right _ List.mem_cons_self
  have hperm : ((taken ++ [a]) ++ push (kids a) stack).Perm (kids a ++ (taken ++ a :: stack)) := by
    have hsplit : taken ++ a :: stack = (taken ++ [a]) ++ stack := by simp
    refine ((hpush _ _).append_left _).trans ?_
    rw [hsplit, ← List.append_assoc, ← List.append_assoc]
    exact List.perm_append_comm.append_right stack
  have hmem : ∀ b, b ∈ (taken ++ [a]) ++ push (kids a) stack ↔
      b ∈ kids a ∨ b ∈ taken ++ a :: stack := fun b => hperm.mem_iff.trans List.mem_append
  -- a child that had been seen would have a second parent, or be the start
  have hnew : ∀ b ∈ kids a, b ∉ taken ++ a :: stack := by
    intro b hb hseen
    rcases h.parent b hseen with rfl | ⟨a', ha', hb'⟩
    · exact hstart a (h.below a ha) hb
    · have hmem' := h.live a' (List.mem_append_left _ ha')
      obtain rfl := hparent a (h.live a ha) a' hmem' b hb hb'
      exact (List.nodup_append.mp h.nodup).2.2 _ ha' _ List.mem_cons_self rfl
  refine
    { nodup := hperm.nodup_iff.mpr (List.nodup_append.mpr ⟨hkids a, h.nodup, ?_⟩)
      live := fun b hb => ?_
      below := fun b hb => ?_
      parent := fun b hb => ?_ }
  · rintro b hb b' hb' rfl
    exact hnew b hb hb'
  · exact ((hmem b).mp hb).elim (hlive a (h.live a ha) b) (h.live b)
  · exact ((hmem b).mp hb).elim (fun hb => (h.below a ha).tail hb) (h.below b)
  · rcases (hmem b).mp hb with hb | hb
    · exact Or.inr ⟨a, List.mem_append_right _ (List.mem_singleton_self a), hb⟩
    · refine (h.parent b hb).imp_right ?_
      rintro ⟨a', ha', hb'⟩
      exact ⟨a', List.mem_append_left _ ha', hb'⟩

theorem Walking.walk_closed {taken : List α} (h : Walking kids nodes start taken stack)
    (hn : nodes.length ≤ taken.length + n) :
    (∀ b ∈ stack, b ∈ walk kids push n stack) ∧
      ∀ a ∈ walk kids push n stack, ∀ b ∈ kids a, b ∈ walk kids push n stack := by
  induction n generalizing taken stack with
  | zero =>
    have hlength := (List.subperm_of_subset h.nodup h.live).length_le
    rw [List.length_append] at hlength
    obtain rfl : stack = [] := List.length_eq_zero_iff.mp (by omega)
    exact ⟨fun _ hb => absurd hb List.not_mem_nil, fun _ ha => absurd ha List.not_mem_nil⟩
  | succ n ih =>
    rcases stack with _ | ⟨a, stack⟩
    · exact ⟨fun _ hb => absurd hb List.not_mem_nil, fun _ ha => absurd ha List.not_mem_nil⟩
    · have hturn := h.turn hpush hkids hlive hparent hstart
      obtain ⟨hall, hclosed⟩ := ih hturn (by rw [List.length_append, List.length_singleton]; omega)
      refine ⟨fun b hb => ?_, fun a' ha' b hb => ?_⟩
      · rcases List.mem_cons.mp hb with rfl | hb
        · exact List.mem_cons_self
        · exact List.mem_cons_of_mem _
            (hall b ((hpush _ _).mem_iff.mpr (List.mem_append_right _ hb)))
      · rcases List.mem_cons.mp ha' with rfl | ha'
        · exact List.mem_cons_of_mem _
            (hall b ((hpush _ _).mem_iff.mpr (List.mem_append_left _ hb)))
        · exact List.mem_cons_of_mem _ (hclosed a' ha' b hb)

theorem Walking.nodup_walk {taken : List α} (h : Walking kids nodes start taken stack) :
    (taken ++ walk kids push n stack).Nodup := by
  induction n generalizing taken stack with
  | zero => simpa [walk] using (List.nodup_append.mp h.nodup).1
  | succ n ih =>
    rcases stack with _ | ⟨a, stack⟩
    · exact h.nodup
    · have hturn := ih (h.turn hpush hkids hlive hparent hstart)
      rwa [List.append_assoc] at hturn

omit hpush hkids hlive hparent hstart in
theorem Walking.init (hmem : start ∈ nodes) : Walking kids nodes start [] [start] where
  nodup := List.nodup_singleton _
  live := by simpa using hmem
  below a ha := by
    rw [List.mem_singleton.mp ha]
    exact Relation.ReflTransGen.refl
  parent b hb := Or.inl (List.mem_singleton.mp hb)

theorem nodup_walk (hmem : start ∈ nodes) : (walk kids push n [start]).Nodup :=
  (Walking.init hmem).nodup_walk hpush hkids hlive hparent hstart

/-- **A walk of as many turns as there are nodes meets what is below its start.** -/
theorem mem_walk (hmem : start ∈ nodes) (hn : nodes.length ≤ n) :
    b ∈ walk kids push n [start] ↔ Below kids start b := by
  have hbegin : Walking kids nodes start [] [start] := Walking.init hmem
  obtain ⟨hall, hclosed⟩ := hbegin.walk_closed (n := n) hpush hkids hlive hparent hstart
    (by rwa [List.length_nil, Nat.zero_add])
  constructor
  · rintro hb
    obtain ⟨a, ha, hbelow⟩ := below_of_mem_walk hpush hb
    rwa [List.mem_singleton.mp ha] at hbelow
  · intro hbelow
    induction hbelow with
    | refl => exact hall start (List.mem_singleton_self _)
    | tail _ hb ih => exact hclosed _ ih _ hb

end

/-! ### The order of a walk -/

theorem Apart.below {a' b' : α} (h : Apart kids a b) (ha : Below kids a a') (hb : Below kids b b') :
    Apart kids a' b' := by
  obtain ⟨p, c, c', hsub, hca, hcb⟩ := h
  exact ⟨p, c, c', hsub, hca.trans ha, hcb.trans hb⟩

theorem pairwise_apart_kids (a : α) : (kids a).Pairwise (Apart kids) :=
  List.pairwise_iff_forall_sublist.mpr fun h =>
    ⟨a, _, _, h, Relation.ReflTransGen.refl, Relation.ReflTransGen.refl⟩

/-- **Children that are taken first are met in depth-first order.** -/
theorem pairwise_preorder (hstack : stack.Pairwise (Apart kids))
    (hnodup : (preorder kids n stack).Nodup) : (preorder kids n stack).Pairwise (Before kids) := by
  induction n generalizing stack with
  | zero => exact List.Pairwise.nil
  | succ n ih =>
    rcases stack with _ | ⟨a, stack⟩
    · exact List.Pairwise.nil
    obtain ⟨hhead, htail⟩ := List.pairwise_cons.mp hstack
    obtain ⟨hnew, hnodup⟩ := List.nodup_cons.mp hnodup
    have hkid : ∀ c ∈ kids a, Below kids a c := fun _ hc => Relation.ReflTransGen.single hc
    refine List.pairwise_cons.mpr ⟨fun b hb => ?_, ih (List.pairwise_append.mpr
      ⟨pairwise_apart_kids a, htail, fun c hc b hb =>
        (hhead b hb).below (hkid c hc) Relation.ReflTransGen.refl⟩) hnodup⟩
    have hmet := hb
    rw [preorder_eq_walk] at hmet
    obtain ⟨c, hc, hbelow⟩ := below_of_mem_walk (fun _ _ => List.Perm.refl _) hmet
    rcases List.mem_append.mp hc with hc | hc
    · refine Or.inl ⟨?_, hbelow.head hc⟩
      rintro rfl
      exact hnew hb
    · exact Or.inr ((hhead c hc).below Relation.ReflTransGen.refl hbelow)

variable (kids) in
/-- The children of a node with a depth, one level deeper. -/
def deeper (entry : α × ℕ) : List (α × ℕ) := (kids entry.1).map (·, entry.2 + 1)

variable (kids) in
/-- What a walk that takes children last meets, each node with its depth. -/
def levels : ℕ → List (α × ℕ) → List (α × ℕ) := walk (deeper kids) fun new rest => rest ++ new

theorem below_of_deeper {entry entry' : α × ℕ} (h : Below (deeper kids) entry entry') :
    Below kids entry.1 entry'.1 ∧ entry.2 ≤ entry'.2 := by
  induction h with
  | refl => exact ⟨Relation.ReflTransGen.refl, Nat.le_refl _⟩
  | tail _ hkid ih =>
    obtain ⟨c, hc, rfl⟩ := List.mem_map.mp hkid
    exact ⟨ih.1.tail hc, by omega⟩

theorem levels_map_fst {queue : List (α × ℕ)} :
    (levels kids n queue).map Prod.fst =
      walk kids (fun new rest => rest ++ new) n (queue.map Prod.fst) := by
  unfold levels
  induction n generalizing queue with
  | zero => rfl
  | succ n ih =>
    rcases queue with _ | ⟨entry, queue⟩
    · rfl
    · rw [walk, List.map_cons, ih, List.map_append, deeper, List.map_map]
      have hkids : Prod.fst ∘ (fun c : α => (c, entry.2 + 1)) = id := rfl
      rw [hkids, List.map_id]
      rfl

/-- One entry of the queue is in front of another: at its depth and apart from it, or a level above,
with children that come later. -/
def Leads (kids : α → List α) (x y : α × ℕ) : Prop :=
  x.2 = y.2 ∧ Apart kids x.1 y.1 ∨ y.2 = x.2 + 1 ∧ ∀ c ∈ kids x.1, Apart kids y.1 c

/-- **Children that are taken last are met level by level, each level from one side to the
other.** -/
theorem pairwise_levels {queue : List (α × ℕ)} (hqueue : queue.Pairwise (Leads kids)) :
    (levels kids n queue).Pairwise fun x y => x.2 < y.2 ∨ x.2 = y.2 ∧ Apart kids x.1 y.1 := by
  unfold levels
  induction n generalizing queue with
  | zero => exact List.Pairwise.nil
  | succ n ih =>
    rcases queue with _ | ⟨x, queue⟩
    · exact List.Pairwise.nil
    obtain ⟨hhead, htail⟩ := List.pairwise_cons.mp hqueue
    have hkid : ∀ a, ∀ c ∈ kids a, Below kids a c := fun _ _ hc => Relation.ReflTransGen.single hc
    refine List.pairwise_cons.mpr ⟨fun y hy => ?_, ih (List.pairwise_append.mpr
      ⟨htail, List.pairwise_map.mpr ((pairwise_apart_kids x.1).imp fun h => Or.inl ⟨rfl, h⟩), ?_⟩)⟩
    · have hperm : ∀ new rest : List (α × ℕ), (rest ++ new).Perm (new ++ rest) :=
        fun _ _ => List.perm_append_comm
      obtain ⟨z, hz, hbelow⟩ := below_of_mem_walk hperm hy
      obtain ⟨hbelow, hle⟩ := below_of_deeper hbelow
      rcases List.mem_append.mp hz with hz | hz
      · rcases hhead z hz with ⟨hsame, hapart⟩ | ⟨hnext, -⟩
        · rcases Nat.eq_or_lt_of_le hle with heq | hlt
          · exact Or.inr ⟨hsame.trans heq, hapart.below Relation.ReflTransGen.refl hbelow⟩
          · exact Or.inl (by omega)
        · exact Or.inl (by omega)
      · obtain ⟨c, -, rfl⟩ := List.mem_map.mp hz
        exact Or.inl (by omega)
    · -- a child of the first entry comes behind what is left of its level, and behind the others
      intro y hy z hz
      obtain ⟨c, hc, rfl⟩ := List.mem_map.mp hz
      rcases hhead y hy with ⟨hsame, hapart⟩ | ⟨hnext, hafter⟩
      · exact Or.inr ⟨by rw [hsame], fun c' hc' => hapart.below (hkid _ c hc) (hkid _ c' hc')⟩
      · exact Or.inl ⟨hnext, hafter c hc⟩

/-! ### The end of a walk -/

section Over

variable {measure : α → ℕ} {e m : ℕ}

/-- **A node outweighs its children**, if these are of greater measure, and no more than `e`. -/
theorem exists_weight (hup : ∀ a, ∀ b ∈ kids a, measure a < measure b)
    (hlive : ∀ a, kids a ≠ [] → a ∈ nodes) (hfew : ∀ a, (kids a).length ≤ e) :
    ∃ weight : α → ℕ, (∀ a, ((kids a).map weight).sum < weight a) ∧
      ∀ a, weight a ≤ (e + 2) ^ nodes.length := by
  refine ⟨fun a => (e + 2) ^ nodes.countP (measure a ≤ measure ·), fun a => ?_,
    fun a => Nat.pow_le_pow_right (by omega) List.countP_le_length⟩
  by_cases hnone : kids a = []
  · rw [hnone]
    exact Nat.pow_pos (by omega)
  obtain ⟨before, after, hsplit⟩ := List.append_of_mem (hlive a hnone)
  -- the node itself is of no greater measure than it, but not than a child
  have hless : ∀ b ∈ kids a, nodes.countP (measure b ≤ measure ·) <
      nodes.countP (measure a ≤ measure ·) := by
    intro b hb
    have hlt := hup a b hb
    have hmono : ∀ l : List α, l.countP (measure b ≤ measure ·) ≤
        l.countP (measure a ≤ measure ·) := fun l =>
      List.countP_mono_left fun c _ hc => decide_eq_true (hlt.le.trans (of_decide_eq_true hc))
    rw [hsplit, List.countP_append, List.countP_append, List.countP_cons_of_neg (by simpa using hlt),
      List.countP_cons_of_pos (by simp)]
    have hbefore := hmono before
    have hafter := hmono after
    omega
  have hpos : 0 < nodes.countP (measure a ≤ measure ·) := by
    obtain ⟨b, hb⟩ := List.exists_mem_of_ne_nil _ hnone
    exact Nat.zero_lt_of_lt (hless b hb)
  obtain ⟨r, hr⟩ := Nat.exists_eq_add_one_of_ne_zero hpos.ne'
  have hsum := List.sum_le_card_nsmul
    ((kids a).map fun b => (e + 2) ^ nodes.countP (measure b ≤ measure ·)) ((e + 2) ^ r) (by
      intro x hx
      obtain ⟨b, hb, rfl⟩ := List.mem_map.mp hx
      exact Nat.pow_le_pow_right (by omega) (by have := hless b hb; omega))
  rw [List.length_map, nsmul_eq_mul, Nat.cast_id] at hsum
  dsimp only
  rw [hr, Nat.pow_succ, Nat.mul_comm]
  refine hsum.trans_lt (Nat.mul_lt_mul_of_pos_right ?_ (Nat.pow_pos (by omega)))
  have := hfew a
  omega

/-- **A walk is over, wherever the children go, if what is below a node is of greater measure.** -/
theorem walk_over (hup : ∀ a, ∀ b ∈ kids a, measure a < measure b)
    (hlive : ∀ a, kids a ≠ [] → a ∈ nodes) (hfew : ∀ a, (kids a).length ≤ e)
    (hn : (e + 2) ^ nodes.length ≤ n) :
    preorder kids n [a] = preorder kids ((e + 2) ^ nodes.length) [a] ∧
      ∀ d, levels kids n [(a, d)] = levels kids ((e + 2) ^ nodes.length) [(a, d)] := by
  obtain ⟨weight, hweight, hle⟩ := exists_weight hup hlive hfew
  have hdeeper : ∀ entry : α × ℕ,
      ((deeper kids entry).map fun entry => weight entry.1).sum < weight entry.1 := by
    intro entry
    rw [deeper, List.map_map]
    exact hweight entry.1
  constructor
  · rw [preorder_eq_walk, preorder_eq_walk]
    exact walk_eq_walk (fun _ _ => List.Perm.refl _) hweight ((hle a).trans hn) (hle a)
  · intro d
    exact walk_eq_walk (fun _ _ => List.perm_append_comm) hdeeper ((hle a).trans hn) (hle a)

end Over

end Walk

/-! ### Parents and children -/

/-- The parent and the children of each name. -/
abbrev Family (α : Type*) : Type _ := α → Option (Option α × List α)

def Family.kids (f : Family α) (a : α) : List α := (f a).elim [] Prod.snd

/-- **A family is a tree**: one node has no parent, who is named as a child has the one that names
it for its parent, no one names a child twice, and everyone is found from the root. -/
structure Rooted (f : Family α) : Prop where
  root : ∃ r ks, f r = some (none, ks) ∧ ∀ a ks', f a = some (none, ks') → a = r
  child : ∀ a p ks, f a = some (p, ks) → ∀ b ∈ ks, ∃ ks', f b = some (some a, ks')
  once : ∀ a p ks, f a = some (p, ks) → ks.Nodup
  found : ∀ r ks, f r = some (none, ks) → ∀ a s, f a = some s → Below f.kids r a

section Rooted

variable {α : Type*} {a b : α} {f : Family α} {p : Option α} {ks : List α} {d d' : ℕ} {r : α}

theorem Family.kids_of_eq (h : f a = some (p, ks)) : f.kids a = ks := by
  rw [Family.kids, h]
  rfl

theorem Family.exists_of_mem_kids (h : b ∈ f.kids a) : ∃ p ks, f a = some (p, ks) ∧ b ∈ ks := by
  rw [Family.kids] at h
  rcases hf : f a with _ | ⟨p, ks⟩
  · rw [hf] at h
    cases h
  · rw [hf] at h
    exact ⟨p, ks, rfl, h⟩

/-- How far below the root a node is. -/
inductive Depth (f : Family α) : ℕ → α → Prop
  | root {a : α} {ks : List α} (ha : f a = some (none, ks)) : Depth f 0 a
  | child {d : ℕ} {a b : α} (ha : Depth f d a) (hb : b ∈ f.kids a) : Depth f (d + 1) b

theorem Depth.of_below (hd : Depth f d a) (hbelow : Below f.kids a b) :
    ∃ d', d ≤ d' ∧ Depth f d' b := by
  induction hbelow with
  | refl => exact ⟨d, Nat.le_refl d, hd⟩
  | tail _ hb ih =>
    obtain ⟨d', hle, hd'⟩ := ih
    exact ⟨d' + 1, by omega, hd'.child hb⟩

theorem Depth.of_deeper (hr : f r = some (none, ks)) (h : Below (deeper f.kids) (r, 0) (a, d)) :
    Depth f d a := by
  generalize hentry : (a, d) = entry at h
  induction h generalizing a d with
  | refl =>
    obtain ⟨rfl, rfl⟩ := Prod.mk.inj hentry
    exact Depth.root hr
  | @tail entry' _ _ hkid ih =>
    obtain ⟨c, hc, rfl⟩ := List.mem_map.mp hkid
    obtain ⟨rfl, rfl⟩ := Prod.mk.inj hentry
    exact (ih rfl).child hc

variable (h : Rooted f)

include h

theorem Rooted.nodup_kids (a : α) : (f.kids a).Nodup := by
  rw [Family.kids]
  rcases hf : f a with _ | ⟨p, ks⟩
  · exact List.nodup_nil
  · exact h.once a p ks hf

theorem Rooted.eq_of_mem_kids (hb : b ∈ f.kids a) : ∃ ks, f b = some (some a, ks) := by
  obtain ⟨p, ks, hf, hmem⟩ := Family.exists_of_mem_kids hb
  exact h.child a p ks hf b hmem

theorem Rooted.parent_of_mem_kids (hb : b ∈ f.kids a) (hf : f b = some (p, ks)) : p = some a := by
  obtain ⟨ks', hf'⟩ := h.eq_of_mem_kids hb
  exact congrArg Prod.fst (Option.some.inj (hf.symm.trans hf'))

theorem Rooted.parent_inj {a' : α} (hb : b ∈ f.kids a) (hb' : b ∈ f.kids a') : a = a' := by
  obtain ⟨ks, hf⟩ := h.eq_of_mem_kids hb'
  exact Option.some.inj (h.parent_of_mem_kids hb hf).symm

theorem Rooted.depth_unique (hd : Depth f d a) (hd' : Depth f d' a) : d = d' := by
  induction hd generalizing d' with
  | root ha =>
    rcases hd' with _ | ⟨-, hb⟩
    · rfl
    · cases h.parent_of_mem_kids hb ha
  | child ha hb ih =>
    rcases hd' with ha' | ⟨ha', hb'⟩
    · cases h.parent_of_mem_kids hb ha'
    · obtain rfl := h.parent_inj hb hb'
      rw [ih ha']

theorem Rooted.exists_depth (ha : f a = some (p, ks)) : ∃ d, Depth f d a := by
  obtain ⟨r, ks', hr, -⟩ := h.root
  obtain ⟨d, -, hd⟩ := (Depth.root hr).of_below (h.found r ks' hr a _ ha)
  exact ⟨d, hd⟩

theorem Rooted.notMem_kids_of_below (ha : f a = some (p, ks)) (hbelow : Below f.kids a b) :
    a ∉ f.kids b := by
  intro hself
  obtain ⟨d, hd⟩ := h.exists_depth ha
  obtain ⟨d', hle, hd'⟩ := hd.of_below hbelow
  have := h.depth_unique hd (hd'.child hself)
  omega

theorem Rooted.mem_kids_of_parent {a' : α} (ha : f a = some (some a', ks)) : a ∈ f.kids a' := by
  obtain ⟨r, ks', hr, -⟩ := h.root
  rcases (h.found r ks' hr a _ ha).cases_tail with rfl | ⟨b, -, hb⟩
  · cases hr.symm.trans ha
  · obtain rfl := Option.some.inj (h.parent_of_mem_kids hb ha)
    exact hb

end Rooted

section Steps

variable {α : Type*} [DecidableEq α] {f : Family α} {p q : Option α} {a b r x : α}
  {ids ks : List α}

/-- A leaf gets new children. -/
def Family.graft (f : Family α) (x : α) (p : Option α) (ids : List α) : Family α := fun a =>
  if a ∈ ids then some (some x, []) else if a = x then some (p, ids) else f a

theorem Family.graft_eq_some (h : f.graft x p ids a = some (q, ks)) :
    (a ∈ ids ∧ q = some x ∧ ks = []) ∨ (a = x ∧ q = p ∧ ks = ids) ∨
      (a ≠ x ∧ a ∉ ids ∧ f a = some (q, ks)) := by
  rw [Family.graft] at h
  split at h
  next hmem =>
    obtain ⟨rfl, rfl⟩ := Prod.mk.inj (Option.some.inj h)
    exact Or.inl ⟨hmem, rfl, rfl⟩
  next hmem =>
    split at h
    next hax =>
      obtain ⟨rfl, rfl⟩ := Prod.mk.inj (Option.some.inj h)
      exact Or.inr (Or.inl ⟨hax, rfl, rfl⟩)
    next hax => exact Or.inr (Or.inr ⟨hax, hmem, h⟩)

theorem Family.graft_keeps (hx : f x = some (p, [])) (hfresh : ∀ a ∈ ids, f a = none)
    (h : f a = some (q, ks)) : ∃ ks', f.graft x p ids a = some (q, ks') ∧ ks ⊆ ks' := by
  have hmem : a ∉ ids := by
    intro hmem
    rw [hfresh a hmem] at h
    cases h
  rw [Family.graft, if_neg hmem]
  split
  next hax =>
    rw [hax, hx] at h
    obtain ⟨rfl, rfl⟩ := Prod.mk.inj (Option.some.inj h)
    exact ⟨ids, rfl, List.nil_subset ids⟩
  next => exact ⟨ks, h, List.Subset.refl ks⟩

theorem Family.below_graft (hx : f x = some (p, [])) (hfresh : ∀ a ∈ ids, f a = none)
    (h : Below f.kids a b) : Below (f.graft x p ids).kids a b := by
  refine Relation.ReflTransGen.mono (fun c d hd => ?_) a b h
  obtain ⟨q, ks, hf, hmem⟩ := Family.exists_of_mem_kids hd
  obtain ⟨ks', hf', hsubset⟩ := Family.graft_keeps hx hfresh hf
  rw [Family.kids_of_eq hf']
  exact hsubset hmem

/-- **New children of a leaf leave a tree.** -/
theorem Rooted.graft (h : Rooted f) (hx : f x = some (p, [])) (hnodup : ids.Nodup)
    (hfresh : ∀ a ∈ ids, f a = none) : Rooted (f.graft x p ids) := by
  have hnew : ∀ a ∈ ids, f.graft x p ids a = some (some x, []) := fun a ha => if_pos ha
  have hself : f.graft x p ids x = some (p, ids) := by
    rw [Family.graft, if_neg, if_pos rfl]
    intro hmem
    rw [hfresh x hmem] at hx
    cases hx
  -- the root is the one that it was
  have hroot : ∀ a ks', f.graft x p ids a = some (none, ks') → ∃ ks, f a = some (none, ks) := by
    intro a ks' ha
    rcases Family.graft_eq_some ha with ⟨-, hq, -⟩ | ⟨rfl, rfl, -⟩ | ⟨-, -, hf⟩
    · cases hq
    · exact ⟨[], hx⟩
    · exact ⟨ks', hf⟩
  refine ⟨?_, ?_, ?_, ?_⟩
  · obtain ⟨r, ks, hr, huniq⟩ := h.root
    obtain ⟨ks', hr', -⟩ := Family.graft_keeps hx hfresh hr
    refine ⟨r, ks', hr', fun a ks'' ha => ?_⟩
    obtain ⟨ks, hf⟩ := hroot a ks'' ha
    exact huniq a ks hf
  · intro a q ks ha b hb
    rcases Family.graft_eq_some ha with ⟨-, -, rfl⟩ | ⟨rfl, -, rfl⟩ | ⟨-, -, hf⟩
    · cases hb
    · exact ⟨[], hnew b hb⟩
    · obtain ⟨ks', hb'⟩ := h.child a q ks hf b hb
      obtain ⟨ks'', hb'', -⟩ := Family.graft_keeps hx hfresh hb'
      exact ⟨ks'', hb''⟩
  · intro a q ks ha
    rcases Family.graft_eq_some ha with ⟨-, -, rfl⟩ | ⟨-, -, rfl⟩ | ⟨-, -, hf⟩
    · exact List.nodup_nil
    · exact hnodup
    · exact h.once a q ks hf
  · rintro r ks hr a ⟨q, ks'⟩ ha
    obtain ⟨ks₀, hr₀⟩ := hroot r ks hr
    rcases Family.graft_eq_some ha with ⟨hmem, -, -⟩ | ⟨rfl, -, -⟩ | ⟨-, -, hf⟩
    · refine (Family.below_graft hx hfresh (h.found r ks₀ hr₀ x _ hx)).tail ?_
      rw [Family.kids_of_eq hself]
      exact hmem
    · exact Family.below_graft hx hfresh (h.found r ks₀ hr₀ a _ hx)
    · exact Family.below_graft hx hfresh (h.found r ks₀ hr₀ a _ hf)

open Classical in
/-- What is below a node is taken away. -/
noncomputable def Family.prune (f : Family α) (x : α) (p : Option α) : Family α := fun a =>
  if a = x then some (p, []) else if Below f.kids x a then none else f a

theorem Family.prune_self : f.prune x p x = some (p, []) := if_pos rfl

theorem Family.prune_of_not (hbelow : ¬ Below f.kids x a) : f.prune x p a = f a := by
  have hax : a ≠ x := by
    rintro rfl
    exact hbelow Relation.ReflTransGen.refl
  rw [Family.prune, if_neg hax, if_neg hbelow]

theorem Family.prune_eq_some (h : f.prune x p a = some (q, ks)) :
    (a = x ∧ q = p ∧ ks = []) ∨ (¬ Below f.kids x a ∧ f a = some (q, ks)) := by
  rw [Family.prune] at h
  split at h
  next hax =>
    obtain ⟨rfl, rfl⟩ := Prod.mk.inj (Option.some.inj h)
    exact Or.inl ⟨hax, rfl, rfl⟩
  next =>
    split at h
    next => cases h
    next hbelow => exact Or.inr ⟨hbelow, h⟩

/-- **Without what is below a node there is a tree.** -/
theorem Rooted.prune (h : Rooted f) (hx : f x = some (p, ks)) : Rooted (f.prune x p) := by
  -- the parent of what is left is left, unless it is the node itself
  have hleft : ∀ a b, b ∈ f.kids a → ¬ Below f.kids x a → b = x ∨ ¬ Below f.kids x b := by
    intro a b hb ha
    rcases eq_or_ne b x with hbx | hbx
    · exact Or.inl hbx
    · refine Or.inr fun hbelow => ?_
      rcases hbelow.cases_tail with hxb | ⟨c, hc, hb'⟩
      · exact hbx hxb
      · obtain rfl := h.parent_inj hb hb'
        exact ha hc
  have hback : ∀ a b, b ∈ f.kids a → (f.prune x p b).isSome → ¬ Below f.kids x a := by
    intro a b hb hsome ha
    have hbx : b ≠ x := by
      rintro rfl
      exact h.notMem_kids_of_below hx ha hb
    have hbelow : Below f.kids x b := ha.tail hb
    rw [Family.prune, if_neg hbx, if_pos hbelow] at hsome
    cases hsome
  have hroot : ∀ r ks', f.prune x p r = some (none, ks') → ∃ ks, f r = some (none, ks) := by
    intro r ks' hr
    rcases Family.prune_eq_some hr with ⟨rfl, rfl, -⟩ | ⟨-, hf⟩
    · exact ⟨ks, hx⟩
    · exact ⟨ks', hf⟩
  refine ⟨?_, ?_, ?_, ?_⟩
  · obtain ⟨r, ks', hr, huniq⟩ := h.root
    have hr' : ∃ ks'', f.prune x p r = some (none, ks'') := by
      by_cases hbelow : Below f.kids x r
      · rcases hbelow.cases_tail with rfl | ⟨c, -, hr'⟩
        · obtain ⟨rfl, -⟩ := Prod.mk.inj (Option.some.inj (hx.symm.trans hr))
          exact ⟨[], Family.prune_self⟩
        · cases h.parent_of_mem_kids hr' hr
      · exact ⟨ks', (Family.prune_of_not hbelow).trans hr⟩
    obtain ⟨ks'', hr''⟩ := hr'
    refine ⟨r, ks'', hr'', fun a ks₀ ha => ?_⟩
    obtain ⟨ks₁, hf⟩ := hroot a ks₀ ha
    exact huniq a ks₁ hf
  · intro a q ks' ha b hb
    rcases Family.prune_eq_some ha with ⟨-, -, rfl⟩ | ⟨hbelow, hf⟩
    · cases hb
    · obtain ⟨ks'', hb'⟩ := h.child a q ks' hf b hb
      have hmem : b ∈ f.kids a := by
        rw [Family.kids_of_eq hf]
        exact hb
      rcases hleft a b hmem hbelow with rfl | hb''
      · obtain ⟨rfl, -⟩ := Prod.mk.inj (Option.some.inj (hx.symm.trans hb'))
        exact ⟨[], Family.prune_self⟩
      · exact ⟨ks'', (Family.prune_of_not hb'').trans hb'⟩
  · intro a q ks' ha
    rcases Family.prune_eq_some ha with ⟨-, -, rfl⟩ | ⟨-, hf⟩
    · exact List.nodup_nil
    · exact h.once a q ks' hf
  · rintro r ks' hr a ⟨q, ks''⟩ ha
    obtain ⟨ks₀, hr₀⟩ := hroot r ks' hr
    have hbelow : Below f.kids r a := by
      rcases Family.prune_eq_some ha with ⟨rfl, -, -⟩ | ⟨-, hf⟩
      · exact h.found r ks₀ hr₀ a _ hx
      · exact h.found r ks₀ hr₀ a _ hf
    have hsome : (f.prune x p a).isSome := Option.isSome_of_eq_some ha
    clear ha
    induction hbelow with
    | refl => exact Relation.ReflTransGen.refl
    | @tail c b _ hb ih =>
      have hc := hback c b hb hsome
      obtain ⟨q', ks₁, hf, hmem⟩ := Family.exists_of_mem_kids hb
      have hf' : f.prune x p c = some (q', ks₁) := (Family.prune_of_not hc).trans hf
      refine (ih (Option.isSome_of_eq_some hf')).tail ?_
      rw [Family.kids_of_eq hf']
      exact hmem

end Steps

end OpenCms
