import OpenCms.Lib.Calls

/-!
# Programs that stop in the middle

The process that runs a program may stop between any two calls, and the program is run again from
its beginning, on what is there. `OpenCms.Proc.Stops` relates the state before a program to the
states in which it may be stopped.

A program that goes through a list can be run again as if it had not been stopped when what was done
of the list is passed over the second time, and the one element at which it was stopped is done as if
for the first time (`OpenCms.Proc.run_each_of_resumes`).
-/

namespace OpenCms.Proc

universe u v w w'

variable {Call : Type u} {Answer : Call → Type v} {α β : Type v} {σ : Type w}
  {handle : (c : Call) → σ → Answer c × σ}

/-- A program that is run from the first state may be stopped in the second. -/
def Stops (handle : (c : Call) → σ → Answer c × σ) : Proc Answer α → σ → σ → Prop
  | done _, s, t => t = s
  | call c next, s, t => t = s ∨ Stops handle (next (handle c s).1) (handle c s).2 t

@[simp] theorem stops_done {a : α} {s t : σ} :
    Stops handle (done a : Proc Answer α) s t ↔ t = s := Iff.rfl

@[simp] theorem stops_call {c : Call} {next : Answer c → Proc Answer α} {s t : σ} :
    Stops handle (call c next) s t ↔
      t = s ∨ Stops handle (next (handle c s).1) (handle c s).2 t := Iff.rfl

theorem stops_self (x : Proc Answer α) (s : σ) : Stops handle x s s := by
  cases x with
  | done a => rfl
  | call c next => exact Or.inl rfl

theorem stops_run (x : Proc Answer α) (s : σ) : Stops handle x s (x.run handle s).2 := by
  induction x generalizing s with
  | done a => rfl
  | call c next ih => exact Or.inr (ih _ _)

/-- The states in which a program may be stopped. -/
def trace (handle : (c : Call) → σ → Answer c × σ) : Proc Answer α → σ → List σ
  | done _, s => [s]
  | call c next, s => s :: trace handle (next (handle c s).1) (handle c s).2

theorem stops_iff_mem_trace {x : Proc Answer α} {s t : σ} :
    Stops handle x s t ↔ t ∈ trace handle x s := by
  induction x generalizing s with
  | done a => rw [stops_done, trace, List.mem_singleton]
  | call c next ih => rw [stops_call, trace, List.mem_cons, ih]

theorem stops_bind {x : Proc Answer α} {f : α → Proc Answer β} {s t : σ} :
    Stops handle (x.bind f) s t ↔
      Stops handle x s t ∨ Stops handle (f (x.run handle s).1) (x.run handle s).2 t := by
  induction x generalizing s with
  | done a =>
    refine ⟨Or.inr, ?_⟩
    rintro (rfl | h)
    · exact stops_self _ _
    · exact h
  | call c next ih =>
    rw [call_bind, stops_call, ih, stops_call, or_assoc]
    rfl

theorem stops_bind_done {x : Proc Answer α} {f : α → β} {s t : σ} :
    Stops handle (x.bind fun a => done (f a)) s t ↔ Stops handle x s t := by
  rw [stops_bind, stops_done]
  refine ⟨?_, Or.inl⟩
  rintro (h | rfl)
  · exact h
  · exact stops_run _ _

theorem stops_ask_bind {c : Call} {f : Answer c → Proc Answer β} {s t : σ}
    (h : (handle c s).2 = s) :
    Stops handle ((ask c).bind f) s t ↔ Stops handle (f (handle c s).1) s t := by
  rw [ask_bind, stops_call, h]
  refine ⟨?_, Or.inr⟩
  rintro (rfl | ht)
  · exact stops_self _ _
  · exact ht

section Each

variable {f : α → Proc Answer β} {as : List α} {a : α} {s t : σ}

theorem run_each_cons : ((each f (a :: as)).run handle s).2 =
    ((each f as).run handle ((f a).run handle s).2).2 := by
  rw [each, run_bind, run_bind, run_done]

theorem stops_each_cons : Stops handle (each f (a :: as)) s t ↔
    Stops handle (f a) s t ∨ Stops handle (each f as) ((f a).run handle s).2 t := by
  rw [each, stops_bind, stops_bind_done]

theorem stops_each (inv : σ → Prop)
    (h : ∀ a ∈ as, ∀ s, inv s → ∀ t, Stops handle (f a) s t → inv t) (hs : inv s)
    (ht : Stops handle (each f as) s t) : inv t := by
  induction as generalizing s with
  | nil =>
    rw [show t = s from ht]
    exact hs
  | cons a as ih =>
    rcases stops_each_cons.mp ht with ht | ht
    · exact h a List.mem_cons_self s hs t ht
    · exact ih (fun b hb => h b (List.mem_cons_of_mem a hb))
        (h a List.mem_cons_self s hs _ (stops_run _ _)) ht

theorem run_each_append {bs : List α} : ((each f (as ++ bs)).run handle s).2 =
    ((each f bs).run handle ((each f as).run handle s).2).2 := by
  induction as generalizing s with
  | nil => rfl
  | cons a as ih => rw [List.cons_append, run_each_cons, run_each_cons, ih]

theorem run_each (inv : σ → Prop) (h : ∀ a ∈ as, ∀ s, inv s → inv ((f a).run handle s).2)
    (hs : inv s) : inv ((each f as).run handle s).2 := by
  induction as generalizing s with
  | nil => exact hs
  | cons a as ih =>
    rw [run_each_cons]
    exact ih (fun b hb => h b (List.mem_cons_of_mem a hb)) (h a List.mem_cons_self s hs)

theorem run_each_of_mem (inv goal : σ → Prop) (ha : a ∈ as)
    (hinv : ∀ a ∈ as, ∀ s, inv s → inv ((f a).run handle s).2)
    (hgoal : ∀ s, inv s → goal ((f a).run handle s).2)
    (hkeep : ∀ b ∈ as, ∀ s, inv s → goal s → goal ((f b).run handle s).2) (hs : inv s) :
    goal ((each f as).run handle s).2 := by
  obtain ⟨before, after, rfl⟩ := List.append_of_mem ha
  have hfirst := run_each inv (fun b hb => hinv b (List.mem_append_left _ hb)) hs
  have hafter : ∀ b ∈ after, b ∈ before ++ a :: after := fun b hb => by simp [hb]
  rw [run_each_append, run_each_cons]
  refine (run_each (fun s => inv s ∧ goal s) (fun b hb s hs => ?_)
    ⟨hinv a ha _ hfirst, hgoal _ hfirst⟩).2
  exact ⟨hinv b (hafter b hb) s hs.1, hkeep b (hafter b hb) s hs.1 hs.2⟩

/-- **A list that was stopped can be gone through again**: what was done is passed over, and where it
was stopped, what is done comes to the same. -/
theorem run_each_of_resumes (inv ok : σ → Prop) (passed : α → σ → Prop)
    (hinv : ∀ a ∈ as, ∀ s, inv s → ∀ t, Stops handle (f a) s t → inv t)
    (hagain : ∀ a ∈ as, ∀ s, inv s → ∀ t, Stops handle (f a) s t → ok t →
      ((f a).run handle t).2 = ((f a).run handle s).2)
    (hpassed : ∀ a ∈ as, ∀ s, inv s → passed a ((f a).run handle s).2)
    (hkept : ∀ a ∈ as, ∀ b ∈ as, ∀ s, inv s → passed b s → ∀ t, Stops handle (f a) s t → passed b t)
    (hnothing : ∀ a ∈ as, ∀ s, inv s → passed a s → ((f a).run handle s).2 = s)
    (hs : inv s) (ht : Stops handle (each f as) s t) (hok : ok t) :
    ((each f as).run handle t).2 = ((each f as).run handle s).2 := by
  induction as generalizing s with
  | nil => rw [show t = s from ht]
  | cons a as ih =>
    have ha : a ∈ a :: as := List.mem_cons_self
    have hrest : ∀ b ∈ as, b ∈ a :: as := fun b hb => List.mem_cons_of_mem a hb
    rw [run_each_cons, run_each_cons]
    rcases stops_each_cons.mp ht with ht | ht
    · rw [hagain a ha s hs t ht hok]
    · have hfirst := hinv a ha s hs _ (stops_run _ _)
      have hboth : inv t ∧ passed a t := by
        refine stops_each (fun s => inv s ∧ passed a s) (fun b hb s hs t ht => ?_)
          ⟨hfirst, hpassed a ha s hs⟩ ht
        exact ⟨hinv b (hrest b hb) s hs.1 t ht, hkept b (hrest b hb) a ha s hs.1 hs.2 t ht⟩
      rw [hnothing a ha t hboth.1 hboth.2]
      exact ih (fun b hb => hinv b (hrest b hb)) (fun b hb => hagain b (hrest b hb))
        (fun b hb => hpassed b (hrest b hb)) (fun b hb c hc => hkept b (hrest b hb) c (hrest c hc))
        (fun b hb => hnothing b (hrest b hb)) hfirst ht

end Each

/-! ### With more calls -/

section Beside

variable {Call' : Type u} {Answer' : Call' → Type v} {τ : Type w'}

/-- A program that makes none of the calls of a second kind. -/
def beside : Proc Answer α → Proc (Sum.elim Answer Answer') α
  | done a => done a
  | call c next => call (Sum.inl c) fun answer => (next answer).beside

/-- Two kinds of calls, of one system. -/
def either (handle : (c : Call) → σ → Answer c × σ) (handle' : (c : Call') → σ → Answer' c × σ) :
    (c : Call ⊕ Call') → σ → Sum.elim Answer Answer' c × σ
  | .inl c, s => handle c s
  | .inr c, s => handle' c s

theorem run_beside_either {handle' : (c : Call') → σ → Answer' c × σ} {x : Proc Answer α} {s : σ} :
    (x.beside : Proc (Sum.elim Answer Answer') α).run (either handle handle') s =
      x.run handle s := by
  induction x generalizing s with
  | done a => rfl
  | call c next ih => exact ih _

theorem stops_beside_either {handle' : (c : Call') → σ → Answer' c × σ} {x : Proc Answer α}
    {s t : σ} : Stops (either handle handle') (x.beside : Proc (Sum.elim Answer Answer') α) s t ↔
      Stops handle x s t := by
  induction x generalizing s with
  | done a => rfl
  | call c next ih => exact or_congr_right (ih _)

theorem stops_beside_bind {handle' : (c : Call') → σ → Answer' c × σ} {x : Proc Answer α}
    {f : α → Proc (Sum.elim Answer Answer') β} {s t : σ} :
    Stops (either handle handle') ((x.beside : Proc (Sum.elim Answer Answer') α).bind f) s t ↔
      Stops handle x s t ∨
        Stops (either handle handle') (f (x.run handle s).1) (x.run handle s).2 t := by
  rw [stops_bind, stops_beside_either, run_beside_either]

/-- Two systems, each with its state. -/
def both (handle : (c : Call) → σ → Answer c × σ) (handle' : (c : Call') → τ → Answer' c × τ) :
    (c : Call ⊕ Call') → σ × τ → Sum.elim Answer Answer' c × (σ × τ)
  | .inl c, s => ((handle c s.1).1, (handle c s.1).2, s.2)
  | .inr c, s => ((handle' c s.2).1, s.1, (handle' c s.2).2)

variable {handle' : (c : Call') → τ → Answer' c × τ} {x : Proc Answer α} {s : σ} {i : τ}

theorem run_beside_both :
    (x.beside : Proc (Sum.elim Answer Answer') α).run (both handle handle') (s, i) =
      ((x.run handle s).1, (x.run handle s).2, i) := by
  induction x generalizing s with
  | done a => rfl
  | call c next ih => exact ih _

theorem stops_beside_both {t : σ × τ} :
    Stops (both handle handle') (x.beside : Proc (Sum.elim Answer Answer') α) (s, i) t ↔
      Stops handle x s t.1 ∧ t.2 = i := by
  induction x generalizing s with
  | done a => exact Prod.ext_iff
  | call c next ih =>
    refine (or_congr Prod.ext_iff (ih _)).trans ?_
    rw [stops_call, or_and_right]
    rfl

end Beside

end OpenCms.Proc
