import Mathlib.Data.List.DropRight

namespace NetWatch.Lib.Trim

variable {α : Type} {p : α → Bool}

/-- Without the elements at both ends that satisfy `p`. -/
def trim (p : α → Bool) (l : List α) : List α := (l.dropWhile p).rdropWhile p

def Trimmed (p : α → Bool) (l : List α) : Prop := (∀ a ∈ l.head?, p a = false) ∧ ∀ a ∈ l.getLast?, p a = false

theorem dropWhile_of_head {l : List α} (h : ∀ a ∈ l.head?, p a = false) : l.dropWhile p = l := by
  cases l with
  | nil => rfl
  | cons a l => exact List.dropWhile_cons_of_neg (by rw [h a rfl]; exact Bool.false_ne_true)

theorem rdropWhile_of_last {l : List α} (h : ∀ a ∈ l.getLast?, p a = false) : l.rdropWhile p = l := by
  rw [List.rdropWhile, dropWhile_of_head, List.reverse_reverse]
  intro a ha
  rw [List.head?_reverse] at ha
  exact h a ha

theorem trim_all {l : List α} (h : ∀ a ∈ l, p a = true) : trim p l = [] := by
  rw [trim, List.dropWhile_eq_nil_iff.mpr h]
  rfl

theorem trim_pad {u l v : List α} (hu : ∀ a ∈ u, p a = true) (hv : ∀ a ∈ v, p a = true) (hl : Trimmed p l) :
    trim p (u ++ l ++ v) = l := by
  cases l with
  | nil =>
      rw [List.append_nil]
      apply trim_all
      intro a ha
      exact (List.mem_append.mp ha).elim (hu a) (hv a)
  | cons a l =>
      have hleft : (u ++ a :: l ++ v).dropWhile p = a :: l ++ v := by
        rw [List.append_assoc, List.dropWhile_append_of_pos hu]
        exact dropWhile_of_head hl.1
      have hright : (a :: l ++ v).rdropWhile p = a :: l := by
        rw [List.rdropWhile, List.reverse_append, List.dropWhile_append_of_pos fun b hb => hv b (List.mem_reverse.mp hb)]
        exact rdropWhile_of_last hl.2
      rw [trim, hleft, hright]

theorem trim_trimmed {l : List α} (hl : Trimmed p l) : trim p l = l := by
  have h := trim_pad (u := []) (v := []) (fun a ha => absurd ha List.not_mem_nil) (fun a ha => absurd ha List.not_mem_nil) hl
  rwa [List.nil_append, List.append_nil] at h

theorem trim_split (p : α → Bool) (l : List α) :
    ∃ u v, l = u ++ trim p l ++ v ∧ (∀ a ∈ u, p a = true) ∧ ∀ a ∈ v, p a = true := by
  refine ⟨l.takeWhile p, (l.dropWhile p).rtakeWhile p, ?_, fun a ha => List.mem_takeWhile_imp ha, fun a ha => List.mem_rtakeWhile_imp ha⟩
  rw [trim, List.append_assoc, List.rdropWhile_append_rtakeWhile, List.takeWhile_append_dropWhile]

theorem trimmed_trim (p : α → Bool) (l : List α) : Trimmed p (trim p l) := by
  constructor
  · intro a ha
    obtain ⟨t, ht⟩ := List.head?_eq_some_iff.mp ha
    obtain ⟨v, hv⟩ : (l.dropWhile p).rdropWhile p <+: l.dropWhile p := List.rdropWhile_prefix p _
    have hhead : (l.dropWhile p).head? = some a := by
      rw [← hv, ← trim, ht]
      rfl
    have h := List.head?_dropWhile_not p l
    rw [hhead] at h
    exact h
  · intro a ha
    obtain ⟨hne, rfl⟩ := List.mem_getLast?_eq_getLast ha
    exact Bool.eq_false_iff.mpr (List.rdropWhile_last_not p _ hne)

end NetWatch.Lib.Trim
