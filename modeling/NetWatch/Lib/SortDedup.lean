import Mathlib.Data.List.Destutter
import Mathlib.Data.List.Sort

namespace NetWatch.Lib.SortDedup

variable {α β : Type} [DecidableEq α] [LinearOrder β] {key : α → β}

/-- Sorting by a key and then dropping every element equal to its predecessor. -/
def sortDedup (key : α → β) (l : List α) : List α :=
  (l.insertionSort fun a b => key a ≤ key b).destutter (· ≠ ·)

theorem mem_destutter_ne (l : List α) (a x : α) : x ∈ l.destutter' (· ≠ ·) a ↔ x = a ∨ x ∈ l := by
  induction l generalizing a with
  | nil => simp
  | cons b l ih =>
      by_cases hab : a = b
      · subst hab
        rw [List.destutter'_cons_neg _ (by simp), ih, List.mem_cons]
        tauto
      · rw [List.destutter'_cons_pos _ hab, List.mem_cons, ih, List.mem_cons]

theorem nodup_destutter_ne (hkey : Function.Injective key) (l : List α) (a : α)
    (h : (a :: l).Pairwise fun x y => key x ≤ key y) : (l.destutter' (· ≠ ·) a).Nodup := by
  induction l generalizing a with
  | nil => simp
  | cons b l ih =>
      obtain ⟨ha, hl⟩ := List.pairwise_cons.mp h
      by_cases hab : a = b
      · subst hab
        rw [List.destutter'_cons_neg _ (by simp)]
        exact ih a hl
      · rw [List.destutter'_cons_pos _ hab, List.nodup_cons, mem_destutter_ne]
        refine ⟨?_, ih b hl⟩
        rintro (hb | hm)
        · exact hab hb
        · have hle : key a ≤ key b := ha b List.mem_cons_self
          have hge : key b ≤ key a := (List.pairwise_cons.mp hl).1 a hm
          exact hab (hkey (le_antisymm hle hge))

theorem mem_sortDedup (l : List α) (x : α) : x ∈ sortDedup key l ↔ x ∈ l := by
  have hm : x ∈ l.insertionSort (fun a b => key a ≤ key b) ↔ x ∈ l := List.mem_insertionSort _
  rw [← hm, sortDedup]
  cases l.insertionSort fun a b => key a ≤ key b with
  | nil => simp
  | cons a as => rw [List.destutter_cons', mem_destutter_ne, List.mem_cons]

theorem nodup_sortDedup (hkey : Function.Injective key) (l : List α) : (sortDedup key l).Nodup := by
  have : Std.Total fun a b : α => key a ≤ key b := ⟨fun a b => le_total (key a) (key b)⟩
  have : IsTrans α fun a b => key a ≤ key b := ⟨fun _ _ _ => le_trans⟩
  have hs : (l.insertionSort fun a b => key a ≤ key b).Pairwise fun a b => key a ≤ key b :=
    List.pairwise_insertionSort _ l
  rw [sortDedup]
  cases hl : l.insertionSort fun a b => key a ≤ key b with
  | nil => simp
  | cons a as =>
      rw [List.destutter_cons']
      exact nodup_destutter_ne hkey as a (hl ▸ hs)

end NetWatch.Lib.SortDedup
