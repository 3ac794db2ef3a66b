import Mathlib.Data.List.Basic
import Mathlib.Logic.Function.Iterate

namespace NetWatch.Lib.Runs

variable {S E : Type}

/-- Finite runs of a partial step function. The guard restricts the schedule:
a step may be taken only from a state and by an event that satisfy it. -/
inductive Run (step : S → E → Option S) (guard : S → E → Prop) : S → List E → S → Prop
  | nil (s) : Run step guard s [] s
  | cons {s e t es u} : guard s e → step s e = some t → Run step guard t es u →
      Run step guard s (e :: es) u

def Free (_ : S) (_ : E) : Prop := True

def exec (step : S → E → Option S) : S → List E → Option S
  | s, [] => some s
  | s, e :: es => (step s e).bind fun t => exec step t es

variable {step : S → E → Option S} {guard guard' : S → E → Prop} {s t u : S} {es fs : List E}

theorem Run.invariant {I : S → Prop} (h : Run step guard s es u) (hs : I s)
    (hstep : ∀ s e t, I s → guard s e → step s e = some t → I t) : I u := by
  induction h with
  | nil => exact hs
  | cons hg ht _ ih => exact ih (hstep _ _ _ hs hg ht)

/-- An invariant of the guarded runs may be used to exchange the guard. -/
theorem Run.strengthen {I : S → Prop} (h : Run step guard s es u) (hs : I s)
    (hstep : ∀ s e t, I s → guard s e → step s e = some t → I t)
    (hguard : ∀ s e, I s → guard s e → guard' s e) : Run step guard' s es u := by
  induction h with
  | nil s => exact .nil s
  | cons hg ht _ ih => exact .cons (hguard _ _ hs hg) ht (ih (hstep _ _ _ hs hg ht))

theorem Run.append (h : Run step guard s es t) (h' : Run step guard t fs u) :
    Run step guard s (es ++ fs) u := by
  induction h with
  | nil => exact h'
  | cons hg ht _ ih => exact .cons hg ht (ih h')

theorem Run.snoc {e : E} (h : Run step guard s es t) (hg : guard t e) (ht : step t e = some u) :
    Run step guard s (es ++ [e]) u :=
  h.append (.cons hg ht (.nil u))

theorem Run.history {P : List E → S → Prop} (h : Run step guard s es u) (hs : P [] s)
    (hstep : ∀ es t e u, P es t → guard t e → step t e = some u → P (es ++ [e]) u) : P es u := by
  have hgen : ∀ past, P past s → P (past ++ es) u := by
    clear hs
    induction h with
    | nil => intro past hp; simpa using hp
    | cons hg ht _ ih =>
        intro past hp
        simpa using ih (past ++ [_]) (hstep past _ _ _ hp hg ht)
  simpa using hgen [] hs

theorem Run.of_exec (h : exec step s es = some u) : Run step Free s es u := by
  induction es generalizing s with
  | nil => cases h; exact .nil _
  | cons e es ih =>
      obtain ⟨t, ht, hu⟩ := Option.bind_eq_some_iff.mp h
      exact .cons trivial ht (ih hu)

theorem exec_append (h : exec step s (es ++ fs) = some u) : ∃ t, exec step s es = some t ∧ exec step t fs = some u := by
  induction es generalizing s with
  | nil => exact ⟨s, rfl, h⟩
  | cons e es ih =>
      obtain ⟨s', hs', hrest⟩ := Option.bind_eq_some_iff.mp h
      obtain ⟨t, ht, htail⟩ := ih hrest
      refine ⟨t, ?_, htail⟩
      rw [exec, hs', Option.bind_some]
      exact ht

theorem exec_continue (h : exec step s es = some t) : exec step s (es ++ fs) = exec step t fs := by
  induction es generalizing s with
  | nil =>
      cases h
      rfl
  | cons e es ih =>
      obtain ⟨s', hs', hrest⟩ := Option.bind_eq_some_iff.mp h
      rw [List.cons_append, exec, hs', Option.bind_some, ih hrest]

/-- The step function cut down to a decidable guard, so that a guarded run
can be obtained by evaluation. -/
def checked (step : S → E → Option S) (guard : S → E → Prop) [∀ s e, Decidable (guard s e)]
    (s : S) (e : E) : Option S :=
  if guard s e then step s e else none

theorem Run.of_checked [∀ s e, Decidable (guard s e)]
    (h : exec (checked step guard) s es = some u) : Run step guard s es u := by
  induction es generalizing s with
  | nil => cases h; exact .nil _
  | cons e es ih =>
      obtain ⟨t, ht, hu⟩ := Option.bind_eq_some_iff.mp h
      by_cases hg : guard s e
      · rw [checked, if_pos hg] at ht
        exact .cons hg ht (ih hu)
      · simp [checked, hg] at ht

/-- A measure that falls until something is so, and stays so from then on. -/
theorem eventually_of_descent (next : S → S) {I D : S → Prop} (μ : S → Nat) (hI : ∀ s, I s → I (next s))
    (hD : ∀ s, I s → D s → D (next s)) (hμ : ∀ s, I s → ¬ D s → ¬ D (next s) → μ (next s) < μ s) (hs : I s) :
    ∃ N, ∀ n, N ≤ n → I (next^[n] s) ∧ D (next^[n] s) := by
  have hstays : ∀ {t}, I t → D t → ∀ n, I (next^[n] t) ∧ D (next^[n] t) := by
    intro t hi hd n
    induction n generalizing t with
    | zero => exact ⟨hi, hd⟩
    | succ n ih => exact ih (hI t hi) (hD t hi hd)
  obtain ⟨N, hi, hd⟩ : ∃ N, I (next^[N] s) ∧ D (next^[N] s) := by
    induction hk : μ s using Nat.strongRecOn generalizing s with
    | ind k ih =>
        subst hk
        by_cases hd : D s
        · exact ⟨0, hs, hd⟩
        · by_cases hd' : D (next s)
          · exact ⟨1, hI s hs, hd'⟩
          · obtain ⟨N, h⟩ := ih (μ (next s)) (hμ s hs hd hd') (hI s hs) rfl
            exact ⟨N + 1, h⟩
  refine ⟨N, fun n hn => ?_⟩
  obtain ⟨k, rfl⟩ := Nat.exists_eq_add_of_le' hn
  rw [Function.iterate_add_apply]
  exact hstays hi hd k

section Results

theorem ok_bind {ε α β : Type} (a : α) (f : α → Except ε β) : (Except.ok a >>= f) = f a := rfl

theorem bind_ok {ε α β : Type} {x : Except ε α} {f : α → Except ε β} {b : β} (h : x >>= f = .ok b) :
    ∃ a, x = .ok a ∧ f a = .ok b := by
  cases x with
  | error e => cases h
  | ok a => exact ⟨a, rfl, h⟩

end Results

end NetWatch.Lib.Runs
