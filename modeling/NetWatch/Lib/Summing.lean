import NetWatch.Lib.Buckets

namespace NetWatch.Lib.Summing

open Buckets

variable {R K M : Type} [AddCommMonoid M] {key : R → K} {value : R → M}

/-- One background merge of a table that sums rows of equal key: two rows become
one of them with the sum, or a row that has nothing to add is removed. -/
inductive Merge (joins : R → R → R → Prop) (void : R → Prop) : List R → List R → Prop
  | join {l m r : List R} {a b c : R} (h : joins a b c) : Merge joins void (l ++ a :: m ++ b :: r) (l ++ c :: m ++ r)
  | drop {l r : List R} {a : R} (h : void a) : Merge joins void (l ++ a :: r) (l ++ r)
  | reorder {l r : List R} (h : l.Perm r) : Merge joins void l r

theorem total_filter_middle (p : K → Bool) (l r : List R) (a : R) :
    total value ((l ++ a :: r).filter fun x => p (key x)) =
      (if p (key a) then value a else 0) + total value ((l ++ r).filter fun x => p (key x)) := by
  rw [List.filter_append, List.filter_cons, List.filter_append, total_append, total_append]
  by_cases ha : p (key a) = true
  · rw [if_pos ha, if_pos ha, total_cons, add_left_comm]
  · rw [if_neg ha, if_neg ha, zero_add]

theorem Merge.total_filter {joins : R → R → R → Prop} {void : R → Prop} {rows rows' : List R}
    (h : Merge joins void rows rows') (p : K → Bool)
    (hjoin : ∀ {l m r a b c}, rows = l ++ a :: m ++ b :: r → joins a b c →
      key b = key a ∧ key c = key a ∧ value c = value a + value b)
    (hvoid : ∀ a, void a → value a = 0) :
    total value (rows'.filter fun x => p (key x)) = total value (rows.filter fun x => p (key x)) := by
  cases h with
  | @join l m r a b c hj =>
      obtain ⟨hb, hc, hvalue⟩ := hjoin rfl hj
      have hrest : ∀ x : R, total value ((l ++ x :: m ++ r).filter fun x => p (key x)) =
          (if p (key x) then value x else 0) + total value ((l ++ (m ++ r)).filter fun x => p (key x)) := by
        intro x
        rw [List.append_assoc, List.cons_append, total_filter_middle]
      rw [total_filter_middle, hrest, hrest, hb, hc, hvalue]
      split_ifs
      · rw [add_comm (value a), add_assoc]
      · simp only [zero_add]
  | @drop l r a hv =>
      rw [total_filter_middle, hvoid a hv]
      simp
  | reorder hp => exact (total_perm (hp.filter _) value).symm

end NetWatch.Lib.Summing
