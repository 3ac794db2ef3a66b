import Mathlib.Data.List.Nodup
import Mathlib.Order.Lattice

namespace NetWatch.Lib.LargestFirst

variable {α β N : Type} [LinearOrder N] [LE β] [DecidableLE β] [Std.IsLinearOrder β]

def before (value : α → N) (key : α → β) (a b : α) : Bool :=
  value b < value a || (value a = value b && key a ≤ key b)

def largestFirst (value : α → N) (key : α → β) (l : List α) : List α := l.mergeSort (before value key)

variable {value : α → N} {key : α → β} {a b c : α} {l l' : List α}

omit [Std.IsLinearOrder β] in
theorem before_iff : before value key a b = true ↔ value b < value a ∨ value a = value b ∧ key a ≤ key b := by
  rw [before, Bool.or_eq_true, Bool.and_eq_true, decide_eq_true_iff, decide_eq_true_iff, decide_eq_true_iff]

theorem before_trans (hab : before value key a b = true) (hbc : before value key b c = true) : before value key a c = true := by
  rw [before_iff] at hab hbc ⊢
  obtain hlt | ⟨heq, hle⟩ := hab
  · obtain hlt' | ⟨heq', -⟩ := hbc
    · exact .inl (lt_trans hlt' hlt)
    · exact .inl (heq' ▸ hlt)
  · obtain hlt' | ⟨heq', hle'⟩ := hbc
    · exact .inl (heq ▸ hlt')
    · exact .inr ⟨heq.trans heq', Std.le_trans hle hle'⟩

theorem before_total (a b : α) : (before value key a b || before value key b a) = true := by
  rw [Bool.or_eq_true, before_iff, before_iff]
  obtain hlt | heq | hlt := lt_trichotomy (value a) (value b)
  · exact .inr (.inl hlt)
  · obtain hle | hle := Std.le_total (a := key a) (b := key b)
    · exact .inl (.inr ⟨heq, hle⟩)
    · exact .inr (.inr ⟨heq.symm, hle⟩)
  · exact .inl (.inl hlt)

theorem before_antisymm (hab : before value key a b = true) (hba : before value key b a = true) : key a = key b := by
  rw [before_iff] at hab hba
  obtain hlt | ⟨heq, hle⟩ := hab
  · obtain hlt' | ⟨heq', -⟩ := hba
    · exact absurd hlt' (lt_asymm hlt)
    · exact absurd heq' (ne_of_lt hlt)
  · obtain hlt' | ⟨-, hle'⟩ := hba
    · exact absurd heq (ne_of_lt hlt')
    · exact Std.le_antisymm hle hle'

omit [Std.IsLinearOrder β] in
theorem largestFirst_perm (l : List α) : (largestFirst value key l).Perm l := List.mergeSort_perm _ _

theorem largestFirst_sorted (l : List α) : (largestFirst value key l).Pairwise fun a b => before value key a b = true :=
  List.pairwise_mergeSort (fun _ _ _ => before_trans) before_total l

theorem largestFirst_pairwise (l : List α) :
    (largestFirst value key l).Pairwise fun a b => value b < value a ∨ value a = value b ∧ key a ≤ key b :=
  (largestFirst_sorted l).imp before_iff.mp

theorem largestFirst_congr (h : l.Perm l') (hkey : (l.map key).Nodup) : largestFirst value key l = largestFirst value key l' := by
  apply List.Perm.eq_of_pairwise _ (largestFirst_sorted l) (largestFirst_sorted l')
  · exact ((largestFirst_perm l).trans h).trans (largestFirst_perm l').symm
  · intro a b ha hb hab hba
    have ha := (largestFirst_perm l).mem_iff.mp ha
    have hb := h.mem_iff.mpr ((largestFirst_perm l').mem_iff.mp hb)
    exact List.inj_on_of_nodup_map hkey ha hb (before_antisymm hab hba)

omit [Std.IsLinearOrder β] in
theorem map_largestFirst {γ : Type} {value' : γ → N} {key' : γ → β} (f : α → γ) (hvalue : ∀ a, value' (f a) = value a)
    (hkey : ∀ a, key' (f a) = key a) (l : List α) : (largestFirst value key l).map f = largestFirst value' key' (l.map f) := by
  apply List.map_mergeSort
  intro a _ b _
  rw [before, before, hvalue, hvalue, hkey, hkey]

end NetWatch.Lib.LargestFirst
