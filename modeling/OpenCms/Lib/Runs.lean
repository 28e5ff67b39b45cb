import Mathlib.Data.List.Basic
import Mathlib.Data.List.Infix

/-!
# Runs of a deterministic machine

A server that reacts to events is a function `step : σ → ε → σ`; everything it does
not decide itself – what a client sends, what the system answers, which thread ends
first – is part of the event. A run is a list of events, and
`OpenCms.run` its last state.

`OpenCms.Meets` says that every step of a run meets a condition on the state it
starts from. The two rules are `OpenCms.Meets.invariant`, for a property of the
states reached, and `OpenCms.run_iff_meets`, for a property that a run keeps exactly
if its steps meet the condition.
-/

namespace OpenCms

section Run

variable {σ ε : Type*} (step : σ → ε → σ)

def run (s : σ) (es : List ε) : σ := es.foldl step s

@[simp] theorem run_nil (s : σ) : run step s [] = s := rfl

@[simp] theorem run_cons (s : σ) (e : ε) (es : List ε) :
    run step s (e :: es) = run step (step s e) es := rfl

theorem run_append (s : σ) (es fs : List ε) :
    run step s (es ++ fs) = run step (run step s es) fs := List.foldl_append

theorem run_concat (s : σ) (es : List ε) (e : ε) :
    run step s (es ++ [e]) = step (run step s es) e := by
  rw [run_append, run_cons, run_nil]

theorem run_append_singleton (es : List ε) :
    run (fun past e => past ++ [e]) [] es = es := by
  induction es using List.reverseRecOn with
  | nil => rfl
  | append_singleton es e ih => rw [run_concat, ih]

/-- Every step of a run meets the condition `ok` on the state before it. -/
def Meets (ok : σ → ε → Prop) : σ → List ε → Prop
  | _, [] => True
  | s, e :: es => ok s e ∧ Meets ok (step s e) es

variable {step} {ok : σ → ε → Prop} {s : σ}

instance Meets.instDecidable [∀ s e, Decidable (ok s e)] :
    (s : σ) → (es : List ε) → Decidable (Meets step ok s es)
  | _, [] => isTrue trivial
  | s, e :: es =>
    haveI := Meets.instDecidable (step s e) es
    inferInstanceAs (Decidable (ok s e ∧ Meets step ok (step s e) es))

theorem Meets.append {es fs : List ε} :
    Meets step ok s (es ++ fs) ↔ Meets step ok s es ∧ Meets step ok (run step s es) fs := by
  induction es generalizing s with
  | nil => simp [Meets]
  | cons e es ih => simp [Meets, ih, and_assoc]

theorem Meets.initial {es fs : List ε} (h : Meets step ok s fs) (hp : es <+: fs) :
    Meets step ok s es := by
  obtain ⟨gs, rfl⟩ := hp
  exact (Meets.append.mp h).1

theorem Meets.of_forall (h : ∀ s e, ok s e) (es : List ε) : Meets step ok s es := by
  induction es generalizing s with
  | nil => trivial
  | cons e es ih => exact ⟨h s e, ih⟩

theorem Meets.and {ok' : σ → ε → Prop} {es : List ε} (h : Meets step ok s es)
    (h' : Meets step ok' s es) : Meets step (fun s e => ok s e ∧ ok' s e) s es := by
  induction es generalizing s with
  | nil => trivial
  | cons e es ih => exact ⟨⟨h.1, h'.1⟩, ih h.2 h'.2⟩

theorem Meets.iff_split {es : List ε} :
    Meets step ok s es ↔
      ∀ before e after, es = before ++ e :: after → ok (run step s before) e := by
  constructor
  · rintro h before e after rfl
    exact (Meets.append.mp h).2.1
  · intro h
    induction es generalizing s with
    | nil => trivial
    | cons e es ih =>
      refine ⟨h [] e es rfl, ih fun before f after hsplit => ?_⟩
      exact h (e :: before) f after (by rw [hsplit, List.cons_append])

/-- **The induction over a run**: what holds at the start and is kept by every step
that meets the condition holds at the end. -/
theorem Meets.invariant (Inv : σ → Prop) {es : List ε} (hm : Meets step ok s es) (hs : Inv s)
    (hstep : ∀ s e, Inv s → ok s e → Inv (step s e)) : Inv (run step s es) := by
  induction es generalizing s with
  | nil => exact hs
  | cons e es ih => exact ih hm.2 (hstep s e hs hm.1)

theorem run_invariant (Inv : σ → Prop) (hs : Inv s) (hstep : ∀ s e, Inv s → Inv (step s e))
    (es : List ε) : Inv (run step s es) := by
  have hm : Meets step (fun _ _ => True) s es := Meets.of_forall (fun _ _ => trivial) es
  exact hm.invariant Inv hs fun s e h _ => hstep s e h

/-- **What a run keeps exactly if its steps meet a condition**, where each step does so under
an invariant. -/
theorem run_iff_meets (Inv P : σ → Prop) (hs : Inv s)
    (hkeep : ∀ s e, Inv s → Inv (step s e))
    (hstep : ∀ s e, Inv s → (P (step s e) ↔ P s ∧ ok s e)) (es : List ε) :
    P (run step s es) ↔ P s ∧ Meets step ok s es := by
  induction es generalizing s with
  | nil => exact (and_iff_left trivial).symm
  | cons e es ih => rw [run_cons, ih (hkeep s e hs), hstep s e hs, Meets, and_assoc]

/-- **What holds in every state that a run reaches, exactly if its steps meet a condition**, where a
step from a state in which it holds keeps it exactly if it meets the condition. The events are of
the kind that is looked at. -/
theorem Meets.throughout_iff_meets {dom : σ → ε → Prop} (Inv P : σ → Prop) (hs : Inv s) (hP : P s)
    (hkeep : ∀ s e, Inv s → dom s e → Inv (step s e))
    (hstep : ∀ s e, Inv s → P s → dom s e → (P (step s e) ↔ ok s e)) {es : List ε}
    (hdom : Meets step dom s es) :
    (∀ past, past <+: es → P (run step s past)) ↔ Meets step ok s es := by
  induction es generalizing s with
  | nil =>
    refine iff_of_true (fun past hpast => ?_) trivial
    rw [List.prefix_nil.mp hpast]
    exact hP
  | cons e es ih =>
    constructor
    · intro h
      have hP' : P (step s e) := h [e] (List.prefix_append [e] es)
      refine ⟨(hstep s e hs hP hdom.1).mp hP', (ih (hkeep s e hs hdom.1) hP' hdom.2).mp ?_⟩
      intro past hpast
      exact h (e :: past) (List.cons_prefix_cons.mpr ⟨rfl, hpast⟩)
    · rintro ⟨hok, hmeets⟩ past hpast
      rcases past with _ | ⟨e', past⟩
      · exact hP
      · obtain ⟨rfl, hinitial⟩ := List.cons_prefix_cons.mp hpast
        have hP' := (hstep s e' hs hP hdom.1).mpr hok
        exact (ih (hkeep s e' hs hdom.1) hP' hdom.2).mpr hmeets past hinitial

theorem throughout_iff_meets (Inv P : σ → Prop) (hs : Inv s) (hP : P s)
    (hkeep : ∀ s e, Inv s → Inv (step s e))
    (hstep : ∀ s e, Inv s → P s → (P (step s e) ↔ ok s e)) (es : List ε) :
    (∀ past, past <+: es → P (run step s past)) ↔ Meets step ok s es := by
  have hdom : Meets step (fun _ _ => True) s es := Meets.of_forall (fun _ _ => trivial) es
  exact hdom.throughout_iff_meets Inv P hs hP (fun s e h _ => hkeep s e h)
    fun s e h hP _ => hstep s e h hP

/-- **Two conditions that say the same of every state that can be reached** are met by the same
runs. -/
theorem Meets.congr {ok' : σ → ε → Prop} (Inv : σ → Prop) (hs : Inv s)
    (hkeep : ∀ s e, Inv s → Inv (step s e)) (hiff : ∀ s e, Inv s → (ok s e ↔ ok' s e))
    (es : List ε) : Meets step ok s es ↔ Meets step ok' s es := by
  induction es generalizing s with
  | nil => exact Iff.rfl
  | cons e es ih => exact and_congr (hiff s e hs) (ih (hkeep s e hs))

/-- **What makes no difference can be left out**: events that change nothing a step reads
of a part of the state. -/
theorem foldl_filter_of_fixed {α : Type*} {f : α → ε → α} {p : ε → Bool}
    (h : ∀ e, p e = false → ∀ x, f x e = x) (x : α) (es : List ε) :
    (es.filter p).foldl f x = es.foldl f x := by
  induction es generalizing x with
  | nil => rfl
  | cons e es ih =>
    cases hp : p e with
    | true => rw [List.filter_cons_of_pos hp, List.foldl_cons, List.foldl_cons, ih]
    | false => rw [List.filter_cons_of_neg (by simp [hp]), ih, List.foldl_cons, h e hp]

end Run

/-! ### What is said along the way -/

section Along

variable {ε α : Type*} (f : List ε → ε → List α)

/-- What is said of each event when it comes after those before it. -/
def along (past : List ε) : List ε → List α
  | [] => []
  | e :: es => f past e ++ along (past ++ [e]) es

theorem along_concat (past es : List ε) (e : ε) :
    along f past (es ++ [e]) = along f past es ++ f (past ++ es) e := by
  induction es generalizing past with
  | nil => simp only [along, List.nil_append, List.append_nil]
  | cons e' es ih =>
    rw [List.cons_append, along, ih, along, List.append_assoc, List.append_assoc,
      List.singleton_append]

end Along

/-! ### Records that grow -/

section Record

variable {α : Type*} {xs ys : List α} {x y : α} {i : ℕ}

theorem getElem?_of_isPrefix (h : xs <+: ys) (hx : xs[i]? = some x) : ys[i]? = some x := by
  obtain ⟨zs, rfl⟩ := h
  rw [List.getElem?_append_left (List.getElem?_eq_some_iff.mp hx).1, hx]

/-- With one entry more, an entry is an old one or the new one at the end. -/
theorem getElem?_concat (h : (xs ++ [x])[i]? = some y) :
    xs[i]? = some y ∨ i = xs.length ∧ x = y := by
  rcases Nat.lt_trichotomy i xs.length with hlt | heq | hgt
  · exact Or.inl ((List.getElem?_append_left hlt).symm.trans h)
  · rw [heq, List.getElem?_concat_length] at h
    exact Or.inr ⟨heq, Option.some.inj h⟩
  · have hle : (xs ++ [x]).length ≤ i := by
      rw [List.length_append, List.length_singleton]
      exact hgt
    rw [List.getElem?_eq_none hle] at h
    exact absurd h nofun

end Record

end OpenCms
