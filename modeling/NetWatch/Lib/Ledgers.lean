import Mathlib.Data.List.Basic
import Mathlib.Algebra.BigOperators.Group.List.Basic

namespace NetWatch.Lib.Ledgers

variable {α β M : Type}

/-- Replacing one member of a list by another whose share is larger by `d`
adds exactly `d` to the joined shares. -/
theorem flatMap_replace {f : α → List β} {x y : α} {d : List β} (hd : (f y).Perm (d ++ f x))
    (l r : List α) : ((l ++ y :: r).flatMap f).Perm (d ++ (l ++ x :: r).flatMap f) := by
  simp only [List.flatMap_append, List.flatMap_cons]
  have hy : (f y ++ r.flatMap f).Perm (d ++ (f x ++ r.flatMap f)) := by
    simpa only [List.append_assoc] using hd.append_right (r.flatMap f)
  exact (hy.append_left _).trans (List.perm_append_comm_assoc _ _ _)

theorem flatMap_insert {f : α → List β} (y : α) (l r : List α) :
    ((l ++ y :: r).flatMap f).Perm (f y ++ (l ++ r).flatMap f) := by
  simp only [List.flatMap_append, List.flatMap_cons]
  exact List.perm_append_comm_assoc _ _ _

theorem set_split {l : List α} {i : Nat} {x : α} (h : l[i]? = some x) (y : α) :
    ∃ p q, l = p ++ x :: q ∧ l.set i y = p ++ y :: q := by
  obtain ⟨hi, rfl⟩ := List.getElem?_eq_some_iff.mp h
  exact ⟨l.take i, l.drop (i + 1), by simp, List.set_eq_take_append_cons_drop.trans (if_pos hi)⟩

theorem flatMap_set {f : α → List β} {l : List α} {i : Nat} {x y : α} {d : List β}
    (h : l[i]? = some x) (hd : (f y).Perm (d ++ f x)) :
    ((l.set i y).flatMap f).Perm (d ++ l.flatMap f) := by
  obtain ⟨p, q, hp, hq⟩ := set_split h y
  rw [hq, hp]
  exact flatMap_replace hd p q

theorem sum_flatMap [AddCommMonoid M] (w : β → M) (f : α → List β) (l : List α) :
    ((l.flatMap f).map w).sum = (l.map fun x => ((f x).map w).sum).sum := by
  induction l with
  | nil => rfl
  | cons x l ih => simp only [List.flatMap_cons, List.map_append, List.sum_append, List.map_cons, List.sum_cons, ih]

end NetWatch.Lib.Ledgers
