import Mathlib.Data.Finset.Card
import Mathlib.Data.Finset.Filter
import Mathlib.Logic.Relation

namespace NetWatch.Lib.Reach

open Relation

variable {α : Type} {R : α → α → Prop}

/-- No walk of at least one step comes back to where it started. -/
def Acyclic (R : α → α → Prop) : Prop := ∀ x, ¬ TransGen R x x

theorem acyclic_of_rank (f : α → ℕ) (h : ∀ x y, R x y → f x < f y) : Acyclic R := by
  have hgrow : ∀ x y, TransGen R x y → f x < f y := by
    intro x y hxy
    induction hxy with
    | single hstep => exact h _ _ hstep
    | tail _ hstep ih => exact ih.trans (h _ _ hstep)
  intro x hx
  exact lt_irrefl _ (hgrow x x hx)

open Classical in
noncomputable def reach (R : α → α → Prop) (s : Finset α) (x : α) : Finset α :=
  s.filter (ReflTransGen R x)

theorem mem_reach {s : Finset α} {x y : α} : y ∈ reach R s x ↔ y ∈ s ∧ ReflTransGen R x y := by
  classical
  exact Finset.mem_filter

theorem card_reach_step (hR : Acyclic R) {s : Finset α} {x y : α} (hx : x ∈ s) (hxy : R x y) :
    (reach R s y).card < (reach R s x).card := by
  apply Finset.card_lt_card
  refine ⟨fun z hz => ?_, fun hsub => ?_⟩
  · obtain ⟨hzs, hyz⟩ := mem_reach.mp hz
    exact mem_reach.mpr ⟨hzs, hyz.head hxy⟩
  · have hxx : x ∈ reach R s x := mem_reach.mpr ⟨hx, .refl⟩
    obtain ⟨-, hyx⟩ := mem_reach.mp (hsub hxx)
    exact hR x (TransGen.head' hxy hyx)

/-- Along an acyclic relation whose steps all start in a finite set, as much fuel as the
set has members is enough. -/
theorem Acyclic.fuel (hR : Acyclic R) (s : Finset α) {P : ℕ → α → Prop}
    (hout : ∀ n x, x ∉ s → P n x)
    (hstep : ∀ n, ∀ x ∈ s, (∀ y, R x y → P n y) → P (n + 1) x)
    {n : ℕ} (hn : s.card ≤ n) (x : α) : P n x := by
  have hgen : ∀ n x, (reach R s x).card ≤ n → P n x := by
    intro n
    induction n with
    | zero =>
        intro x hcard
        apply hout
        intro hx
        have hempty := Finset.card_eq_zero.mp (Nat.le_zero.mp hcard)
        have hxx : x ∈ reach R s x := mem_reach.mpr ⟨hx, .refl⟩
        rw [hempty] at hxx
        exact Finset.notMem_empty x hxx
    | succ n ih =>
        intro x hcard
        by_cases hx : x ∈ s
        · apply hstep n x hx
          intro y hxy
          have hlt := card_reach_step hR hx hxy
          exact ih y (by omega)
        · exact hout _ x hx
  have hsub : reach R s x ⊆ s := fun y hy => (mem_reach.mp hy).1
  exact hgen n x ((Finset.card_le_card hsub).trans hn)

end NetWatch.Lib.Reach
