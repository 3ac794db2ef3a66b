import Mathlib.Data.UInt
import Mathlib.Data.Nat.ModEq
import Mathlib.Algebra.BigOperators.Group.List.Basic

namespace NetWatch.Lib.WordSum

open scoped UInt64.CommRing

/-- What a sum of 64-bit counters says about the true total: it agrees with it
modulo 2^64, and is exact as long as the total fits in a word. -/
def Tally (n total : Nat) : Prop := n ≡ total [MOD 2 ^ 64] ∧ (total < 2 ^ 64 → n = total)

theorem toNat_sum (l : List UInt64) : l.sum.toNat = (l.map UInt64.toNat).sum % 2 ^ 64 := by
  induction l with
  | nil => rfl
  | cons x l ih => rw [List.sum_cons, UInt64.toNat_add, ih, List.map_cons, List.sum_cons, Nat.add_mod_mod]

theorem tally_mod (n : Nat) : Tally (n % 2 ^ 64) n := ⟨Nat.mod_modEq n _, Nat.mod_eq_of_lt⟩

theorem Tally.add {m n a b : Nat} (h : Tally m a) (h' : Tally n b) : Tally (m + n) (a + b) := by
  refine ⟨h.1.add h'.1, fun hlt => ?_⟩
  rw [h.2 (by omega), h'.2 (by omega)]

theorem tally_sum_mod (l : List Nat) : Tally (l.map (· % 2 ^ 64)).sum l.sum := by
  induction l with
  | nil => exact ⟨rfl, fun _ => rfl⟩
  | cons x l ih => simpa only [List.map_cons, List.sum_cons] using (tally_mod x).add ih

end NetWatch.Lib.WordSum
