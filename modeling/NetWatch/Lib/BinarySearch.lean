import Mathlib.Data.Int.Basic

namespace NetWatch.Lib.BinarySearch

/-- The loop that halves the window from `lo` to `hi`, both inclusive, and keeps the last
index seen at which `p` holds. -/
def searchLast (p : ℕ → Bool) (lo hi last : ℤ) : ℤ :=
  if lo ≤ hi then
    let mid := (lo + hi) / 2
    if p mid.toNat then searchLast p (mid + 1) hi mid else searchLast p lo (mid - 1) last
  else last
termination_by (hi + 1 - lo).toNat

variable {p : ℕ → Bool}

theorem searchLast_eq {lo hi last k : ℤ} (hlo : 0 ≤ lo) (hk : ∀ i : ℕ, lo ≤ i → i ≤ hi → (p i = true ↔ i ≤ k))
    (hlast : last = lo - 1) (hlow : lo - 1 ≤ k) (hhigh : k ≤ hi) : searchLast p lo hi last = k := by
  induction hn : (hi + 1 - lo).toNat using Nat.strong_induction_on generalizing lo hi last with
  | _ n ih =>
      rw [searchLast]
      split
      · rename_i hle
        have hmid : ((((lo + hi) / 2).toNat : ℕ) : ℤ) = (lo + hi) / 2 := Int.toNat_of_nonneg (by omega)
        have hp := hk ((lo + hi) / 2).toNat (by omega) (by omega)
        rw [hmid] at hp
        dsimp only
        split
        · rename_i hyes
          have hat := hp.mp hyes
          exact ih _ (by omega) (by omega) (fun i hi₁ hi₂ => hk i (by omega) hi₂) (by omega) (by omega) hhigh rfl
        · rename_i hno
          have hat : ¬ (lo + hi) / 2 ≤ k := fun h => hno (hp.mpr h)
          exact ih _ (by omega) hlo (fun i hi₁ hi₂ => hk i hi₁ (by omega)) hlast hlow (by omega) rfl
      · omega

theorem exists_cut {n : ℕ} (hp : ∀ i j, i ≤ j → j < n → p j = true → p i = true) :
    ∃ m ≤ n, ∀ i < n, p i = true ↔ i < m := by
  induction n with
  | zero => exact ⟨0, Nat.le_refl 0, fun i hi => absurd hi (Nat.not_lt_zero i)⟩
  | succ n ih =>
      by_cases hn : p n = true
      · refine ⟨n + 1, Nat.le_refl _, fun i hi => ⟨fun _ => hi, fun _ => ?_⟩⟩
        exact hp i n (Nat.le_of_lt_succ hi) (Nat.lt_succ_self n) hn
      · obtain ⟨m, hm, hcut⟩ := ih fun i j hij hj => hp i j hij (Nat.lt_succ_of_lt hj)
        refine ⟨m, Nat.le_succ_of_le hm, fun i hi => ?_⟩
        obtain hlt | rfl := Nat.lt_succ_iff_lt_or_eq.mp hi
        · exact hcut i hlt
        · exact ⟨fun h => absurd h hn, fun h => absurd h (Nat.not_lt.mpr hm)⟩

theorem searchLast_spec {n : ℕ} (hp : ∀ i j, i ≤ j → j < n → p j = true → p i = true) :
    ∃ k : ℤ, searchLast p 0 (n - 1) (-1) = k ∧ -1 ≤ k ∧ k < n ∧ ∀ i : ℕ, i < n → (p i = true ↔ i ≤ k) := by
  obtain ⟨m, hm, hcut⟩ := exists_cut hp
  refine ⟨m - 1, ?_, by omega, by omega, fun i hi => (hcut i hi).trans (by omega)⟩
  refine searchLast_eq (Int.le_refl 0) ?_ rfl (by omega) (by omega)
  intro i _ hi
  rw [hcut i (by omega)]
  omega

/-- In intervals that are apart and in order, an element can only be in the one that the
search by their starts finds. -/
theorem searchLast_interval {n : ℕ} (start stop : ℕ → ℕ) (hle : ∀ i < n, start i ≤ stop i)
    (hapart : ∀ i j, i < j → j < n → stop i < start j) (x : ℕ) :
    ∃ k : ℤ, searchLast (fun i => start i ≤ x) 0 (n - 1) (-1) = k ∧ k < n ∧
      ∀ i < n, start i ≤ x ∧ x ≤ stop i ↔ k = i ∧ x ≤ stop i := by
  have hmono : ∀ i j, i ≤ j → j < n → start i ≤ start j := by
    intro i j hij hj
    obtain rfl | hlt := Nat.eq_or_lt_of_le hij
    · exact Nat.le_refl _
    · have h₁ := hle i (by omega)
      have h₂ := hapart i j hlt hj
      omega
  obtain ⟨k, hk, -, hkn, hspec⟩ := searchLast_spec (p := fun i => decide (start i ≤ x)) (n := n)
    (fun i j hij hj h => decide_eq_true (Nat.le_trans (hmono i j hij hj) (of_decide_eq_true h)))
  have hiff : ∀ i < n, start i ≤ x ↔ (i : ℤ) ≤ k := fun i hi => decide_eq_true_iff.symm.trans (hspec i hi)
  refine ⟨k, hk, hkn, fun i hi => ?_⟩
  constructor
  · rintro ⟨hstart, hstop⟩
    refine ⟨?_, hstop⟩
    have hik := (hiff i hi).mp hstart
    by_contra hne
    have hlast := (hiff k.toNat (by omega)).mpr (by omega)
    have h := hapart i k.toNat (by omega) (by omega)
    omega
  · rintro ⟨rfl, hstop⟩
    exact ⟨(hiff i hi).mpr (Int.le_refl _), hstop⟩

end NetWatch.Lib.BinarySearch
