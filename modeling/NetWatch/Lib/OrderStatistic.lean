import Mathlib.Data.List.Sort
import Mathlib.Order.Bounds.Basic

namespace NetWatch.Lib.OrderStatistic

variable {α : Type} [LinearOrder α]

/-- The `k`-th smallest element, counted from 1. -/
def kthSmallest (l : List α) : ℕ → Option α
  | 0 => none
  | k + 1 => (l.mergeSort fun a b => a ≤ b)[k]?

variable {l s : List α} {k : ℕ}

theorem mergeSort_eq_of_sorted (h : s.Perm l) (hs : s.Pairwise (· ≤ ·)) : (l.mergeSort fun a b => a ≤ b) = s :=
  List.Perm.eq_of_pairwise' (List.pairwise_mergeSort' (· ≤ ·) l) hs ((List.mergeSort_perm l _).trans h.symm)

/-- The `k`-th smallest stands `k` places before the end of the list from the largest down. -/
theorem kthSmallest_of_descending (h : s.Perm l) (hs : s.Pairwise (· ≥ ·)) (hk : 0 < k) (hle : k ≤ l.length) :
    kthSmallest l k = s[l.length - k]? := by
  obtain ⟨j, rfl⟩ := Nat.exists_eq_succ_of_ne_zero hk.ne'
  have hascending : s.reverse.Pairwise (· ≤ ·) := List.pairwise_reverse.mpr hs
  rw [kthSmallest, mergeSort_eq_of_sorted ((List.reverse_perm s).trans h) hascending,
    List.getElem?_reverse (by rw [h.length_eq]; omega), h.length_eq]
  congr 1
  omega

theorem isGreatest_of_descending {m : α} (h : s.Perm l) (hs : s.Pairwise (· ≥ ·)) (hm : s.head? = some m) :
    IsGreatest {x | x ∈ l} m := by
  obtain ⟨rest, rfl⟩ := List.head?_eq_some_iff.mp hm
  refine ⟨h.subset List.mem_cons_self, fun x hx => ?_⟩
  obtain rfl | hrest := List.mem_cons.mp (h.symm.subset hx)
  · exact le_rfl
  · exact List.rel_of_pairwise_cons hs hrest

end NetWatch.Lib.OrderStatistic
