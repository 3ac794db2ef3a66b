import NetWatch.Lib.SortBy

namespace NetWatch.Lib.Best

variable {α : Type} {cmp : α → α → Ordering} {a a' x y : α} {l l' : List α}

/-- A scan that takes each element that comes before the one it has. -/
def best (cmp : α → α → Ordering) (a : α) (l : List α) : α := l.foldl (fun cur x => if cmp x cur = .lt then x else cur) a

theorem best_mem (a : α) (l : List α) : best cmp a l ∈ a :: l := by
  induction l generalizing a with
  | nil => exact List.mem_cons_self
  | cons x l ih =>
      have hrest := ih (if cmp x a = .lt then x else a)
      rw [best, List.foldl_cons, ← best]
      obtain heq | hmem := List.mem_cons.mp hrest
      · rw [heq]
        split
        · exact List.mem_cons_of_mem a List.mem_cons_self
        · exact List.mem_cons_self
      · exact List.mem_cons_of_mem a (List.mem_cons_of_mem x hmem)

variable [Std.TransCmp cmp]

theorem best_isLE (a : α) (l : List α) : ∀ x ∈ a :: l, (cmp (best cmp a l) x).isLE = true := by
  induction l generalizing a with
  | nil =>
      intro x hx
      rw [List.mem_singleton.mp hx]
      exact Ordering.isLE_of_eq_eq Std.ReflCmp.compare_self
  | cons y l ih =>
      intro x hx
      have hstart := ih (if cmp y a = .lt then y else a) _ List.mem_cons_self
      rw [best, List.foldl_cons, ← best]
      simp only [List.mem_cons] at hx
      obtain rfl | rfl | hmem := hx
      · refine Std.TransCmp.isLE_trans hstart ?_
        split
        · rename_i hlt
          rw [hlt]
          rfl
        · exact Ordering.isLE_of_eq_eq Std.ReflCmp.compare_self
      · refine Std.TransCmp.isLE_trans hstart ?_
        split
        · exact Ordering.isLE_of_eq_eq Std.ReflCmp.compare_self
        · rename_i hnot
          have hge : (cmp x a).isGE = true := by simpa [Ordering.isGE_iff_ne_lt] using hnot
          rwa [Std.OrientedCmp.isGE_iff_isLE] at hge
      · exact ih _ x (List.mem_cons_of_mem _ hmem)

/-- The scan does not depend on the order when different elements do not compare as equal. -/
theorem best_congr (h : ∀ x, x ∈ a :: l ↔ x ∈ a' :: l') (heq : ∀ x ∈ a :: l, ∀ y ∈ a :: l, cmp x y = .eq → x = y) :
    best cmp a l = best cmp a' l' := by
  have hmem : best cmp a l ∈ a :: l := best_mem a l
  have hmem' : best cmp a' l' ∈ a :: l := (h _).mpr (best_mem a' l')
  apply heq _ hmem _ hmem'
  exact Std.OrientedCmp.isLE_antisymm (best_isLE a l _ hmem') (best_isLE a' l' _ ((h _).mp hmem))

end NetWatch.Lib.Best
