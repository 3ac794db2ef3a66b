import Mathlib.Algebra.Order.Ring.Pow
import NetWatch.Lib.Buckets
import NetWatch.Lib.JsNumber

namespace NetWatch.Lib.Rounding

open Binary64 JsNumber Buckets

def roundoff : ℚ := 1 / 2 ^ 53

/-- The largest relative error of `k` roundings. -/
def drift (k : ℕ) : ℚ := (1 + roundoff) ^ k - 1

/-- A number that `k` roundings, one after the other, can make of `y`, where nothing
is below zero. -/
structure Near (k : ℕ) (x y : ℚ) : Prop where
  nonneg : 0 ≤ y
  low : y * (1 - roundoff) ^ k ≤ x
  high : x ≤ y * (1 + roundoff) ^ k

theorem roundoff_pos : 0 < roundoff := by
  rw [roundoff]
  positivity

theorem roundoff_lt : roundoff < 1 / 100 := by
  rw [roundoff]
  norm_num

section Powers

variable {k l : ℕ}

theorem one_sub_pos : 0 < 1 - roundoff := by
  have hlt := roundoff_lt
  linarith

theorem one_sub_pow_le (h : k ≤ l) : (1 - roundoff) ^ l ≤ (1 - roundoff) ^ k :=
  pow_le_pow_of_le_one (le_of_lt one_sub_pos) (by linarith [roundoff_pos]) h

theorem one_add_pow_le (h : k ≤ l) : (1 + roundoff) ^ k ≤ (1 + roundoff) ^ l :=
  pow_le_pow_right₀ (by linarith [roundoff_pos]) h

theorem one_sub_drift_le (k : ℕ) : 1 - drift k ≤ (1 - roundoff) ^ k := by
  have hbelow : 1 + (k : ℚ) * -roundoff ≤ (1 + -roundoff) ^ k := one_add_mul_le_pow (by linarith [roundoff_lt]) k
  have habove : 1 + (k : ℚ) * roundoff ≤ (1 + roundoff) ^ k := one_add_mul_le_pow (by linarith [roundoff_pos]) k
  rw [← sub_eq_add_neg] at hbelow
  rw [drift]
  linarith

theorem inv_one_sub_le : (1 - roundoff)⁻¹ ≤ (1 + roundoff) ^ 2 := by
  rw [inv_le_iff_one_le_mul₀ one_sub_pos]
  have hpos := roundoff_pos
  have hlt := roundoff_lt
  nlinarith [mul_pos hpos hpos]

theorem one_sub_le_inv : 1 - roundoff ≤ (1 + roundoff)⁻¹ := by
  have hpos := roundoff_pos
  rw [le_inv_comm₀ one_sub_pos (by linarith), inv_eq_one_div, le_div_iff₀ one_sub_pos]
  nlinarith

end Powers

namespace Near

variable {k l : ℕ} {x y x' y' : ℚ}

theorem refl (h : 0 ≤ y) : Near 0 y y where
  nonneg := h
  low := by rw [pow_zero, mul_one]
  high := by rw [pow_zero, mul_one]

theorem pos (h : Near k x y) : 0 ≤ x := (mul_nonneg h.nonneg (pow_nonneg (le_of_lt one_sub_pos) k)).trans h.low

theorem mono (h : Near k x y) (hkl : k ≤ l) : Near l x y where
  nonneg := h.nonneg
  low := (mul_le_mul_of_nonneg_left (one_sub_pow_le hkl) h.nonneg).trans h.low
  high := h.high.trans (mul_le_mul_of_nonneg_left (one_add_pow_le hkl) h.nonneg)

theorem rounded (h : Near k x y) : Near (k + 1) (Binary64.round x) y := by
  have herror := round_error x
  rw [abs_of_nonneg h.pos, abs_le, div_eq_mul_one_div, ← roundoff] at herror
  have hpos := roundoff_pos
  refine ⟨h.nonneg, ?_, ?_⟩
  · have hlow := mul_le_mul_of_nonneg_right h.low (le_of_lt one_sub_pos)
    rw [pow_succ, ← mul_assoc]
    linarith
  · have hhigh := mul_le_mul_of_nonneg_right h.high (by linarith : 0 ≤ 1 + roundoff)
    rw [pow_succ, ← mul_assoc]
    linarith

theorem add (h : Near k x y) (h' : Near k x' y') : Near k (x + x') (y + y') where
  nonneg := add_nonneg h.nonneg h'.nonneg
  low := by
    rw [add_mul]
    exact add_le_add h.low h'.low
  high := by
    rw [add_mul]
    exact add_le_add h.high h'.high

theorem scale (h : Near k x y) {c : ℚ} (hc : 0 ≤ c) : Near k (x * c) (y * c) where
  nonneg := mul_nonneg h.nonneg hc
  low := by
    rw [mul_right_comm]
    exact mul_le_mul_of_nonneg_right h.low hc
  high := by
    rw [mul_right_comm]
    exact mul_le_mul_of_nonneg_right h.high hc

theorem max (h : Near k x y) (h' : Near k x' y') : Near k (max x x') (max y y') where
  nonneg := h.nonneg.trans (le_max_left y y')
  low := by
    rw [max_mul_of_nonneg _ _ (pow_nonneg (le_of_lt one_sub_pos) k)]
    exact max_le_max h.low h'.low
  high := by
    rw [max_mul_of_nonneg _ _ (pow_nonneg (by linarith [roundoff_pos]) k)]
    exact max_le_max h.high h'.high

theorem inv (h : Near k x y) (hy : 0 < y) : Near (2 * k) x⁻¹ y⁻¹ := by
  have hsub : 0 < (1 - roundoff) ^ k := pow_pos one_sub_pos k
  have hadd : 0 < (1 + roundoff) ^ k := pow_pos (by linarith [roundoff_pos]) k
  have hx : 0 < x := (mul_pos hy hsub).trans_le h.low
  refine ⟨le_of_lt (inv_pos.mpr hy), ?_, ?_⟩
  · have hinv := inv_anti₀ hx h.high
    have hone : (1 - roundoff) ^ (2 * k) ≤ ((1 + roundoff) ^ k)⁻¹ := by
      rw [← inv_pow]
      exact (one_sub_pow_le (by omega)).trans (pow_le_pow_left₀ (le_of_lt one_sub_pos) one_sub_le_inv k)
    rw [mul_inv] at hinv
    exact (mul_le_mul_of_nonneg_left hone (le_of_lt (inv_pos.mpr hy))).trans hinv
  · have hinv := inv_anti₀ (mul_pos hy hsub) h.low
    have hone : ((1 - roundoff) ^ k)⁻¹ ≤ (1 + roundoff) ^ (2 * k) := by
      rw [← inv_pow, pow_mul]
      exact pow_le_pow_left₀ (le_of_lt (inv_pos.mpr one_sub_pos)) inv_one_sub_le k
    rw [mul_inv] at hinv
    exact hinv.trans (mul_le_mul_of_nonneg_left hone (le_of_lt (inv_pos.mpr hy)))

theorem mul (h : Near k x y) (h' : Near l x' y') : Near (k + l) (x * x') (y * y') where
  nonneg := mul_nonneg h.nonneg h'.nonneg
  low := by
    rw [pow_add, mul_mul_mul_comm]
    exact mul_le_mul h.low h'.low (mul_nonneg h'.nonneg (pow_nonneg (le_of_lt one_sub_pos) l)) h.pos
  high := by
    rw [pow_add, mul_mul_mul_comm]
    exact mul_le_mul h.high h'.high h'.pos (h.pos.trans h.high)

/-- Each rounding of the divisor counts twice. -/
theorem div (h : Near k x y) (h' : Near l x' y') (hy' : 0 < y') : Near (k + 2 * l) (x / x') (y / y') := by
  rw [div_eq_mul_inv, div_eq_mul_inv]
  exact h.mul (h'.inv hy')

end Near

def sumRounded {α : Type} (value : α → ℚ) (l : List α) : ℚ := l.foldl (fun s a => Binary64.add s (value a)) 0

theorem sumRounded_near {α : Type} {value real : α → ℚ} {k : ℕ} (l : List α) (h : ∀ a ∈ l, Near k (value a) (real a)) :
    Near (k + l.length) (sumRounded value l) (total real l) := by
  induction l using List.reverseRecOn with
  | nil => exact (Near.refl le_rfl).mono (Nat.zero_le _)
  | append_singleton l a ih =>
      have hinit := ih fun b hb => h b (List.mem_append_left _ hb)
      have hlast := (h a (List.mem_append_right _ List.mem_cons_self)).mono (Nat.le_add_right k l.length)
      rw [sumRounded, List.foldl_append, ← sumRounded, total_append, total_cons, total_nil, add_zero, List.length_append]
      exact (hinit.add hlast).rounded

end NetWatch.Lib.Rounding
