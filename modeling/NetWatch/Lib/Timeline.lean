import Mathlib.Data.Int.Order.Basic
import Mathlib.Data.List.Basic
import Mathlib.Data.List.Chain
import Mathlib.Data.List.DropRight
import Mathlib.Order.Lattice

namespace NetWatch.Lib.Timeline

variable {α : Type} (ts : α → Int)

def Increasing (l : List α) : Prop := l.Pairwise fun a b => ts a < ts b

/-- The items of a list between two times, both included. -/
def span (a b : Int) (l : List α) : List α := l.filter fun t => decide (a ≤ ts t) && decide (ts t ≤ b)

def push (l : List α) (t : α) : List α :=
  match l.getLast? with
  | some last => if ts t ≤ ts last then l else l ++ [t]
  | none => l ++ [t]

def extend (l incoming : List α) : List α := incoming.foldl (push ts) l

/-- No item of a list lies between two times. -/
def Clear (l : List α) (a b : Int) : Prop := ∀ x ∈ l, a < ts x → b ≤ ts x

def latest (n : Nat) (l : List α) : List α := l.drop (l.length - n)

variable {ts} {l : List α} {a b c : Int}

theorem increasing_snoc {t : α} (h : Increasing ts l) (ht : ∀ x ∈ l, ts x < ts t) : Increasing ts (l ++ [t]) := by
  refine List.pairwise_append.mpr ⟨h, List.pairwise_singleton _ t, ?_⟩
  intro x hx y hy
  rw [List.mem_singleton.mp hy]
  exact ht x hx

theorem le_last (h : Increasing ts l) {z : α} (hz : l.getLast? = some z) {x : α} (hx : x ∈ l) : ts x ≤ ts z := by
  obtain ⟨p, rfl⟩ := List.getLast?_eq_some_iff.mp hz
  rcases List.mem_append.mp hx with hx | hx
  · exact le_of_lt ((List.pairwise_append.mp h).2.2 x hx z (by simp))
  · rw [List.mem_singleton.mp hx]

theorem push_newer {t : α} (h : ∀ z, l.getLast? = some z → ts z < ts t) : push ts l t = l ++ [t] := by
  cases hz : l.getLast? with
  | none => simp [push, hz]
  | some z => simp [push, hz, h z hz]

theorem push_older {t z : α} (hz : l.getLast? = some z) (h : ts t ≤ ts z) : push ts l t = l := by
  simp [push, hz, h]

theorem increasing_push {t : α} (h : Increasing ts l) : Increasing ts (push ts l t) := by
  by_cases hold : ∃ z, l.getLast? = some z ∧ ts t ≤ ts z
  · obtain ⟨z, hz, hle⟩ := hold
    rw [push_older hz hle]
    exact h
  · have hnew : ∀ z, l.getLast? = some z → ts z < ts t := by
      intro z hz
      by_contra hle
      exact hold ⟨z, hz, not_lt.mp hle⟩
    rw [push_newer hnew]
    apply increasing_snoc h
    intro x hx
    cases hz : l.getLast? with
    | none => rw [List.getLast?_eq_none_iff.mp hz] at hx; cases hx
    | some z => exact lt_of_le_of_lt (le_last h hz hx) (hnew z hz)

theorem increasing_extend {incoming : List α} (h : Increasing ts l) : Increasing ts (extend ts l incoming) := by
  induction incoming generalizing l with
  | nil => exact h
  | cons t incoming ih => exact ih (increasing_push h)

theorem mem_extend {incoming : List α} {x : α} (h : x ∈ extend ts l incoming) : x ∈ l ∨ x ∈ incoming := by
  induction incoming generalizing l with
  | nil => exact .inl h
  | cons t incoming ih =>
      rcases ih h with hx | hx
      · have hpush : x ∈ l ++ [t] := by
          rw [push] at hx
          split at hx
          · split_ifs at hx
            · exact List.mem_append_left _ hx
            · exact hx
          · exact hx
        rcases List.mem_append.mp hpush with hx | hx
        · exact .inl hx
        · exact .inr (List.mem_cons.mpr (.inl (List.mem_singleton.mp hx)))
      · exact .inr (List.mem_cons_of_mem t hx)

/-- Extending by newer and older items in order takes up the newer ones. -/
theorem extend_eq {incoming : List α} {z : α} (hz : l.getLast? = some z) (hi : Increasing ts incoming) :
    extend ts l incoming = l ++ incoming.filter fun t => decide (ts z < ts t) := by
  induction incoming generalizing l z with
  | nil => exact (List.append_nil l).symm
  | cons t incoming ih =>
      obtain ⟨hall, hi⟩ := List.pairwise_cons.mp hi
      rw [extend, List.foldl_cons]
      by_cases hlt : ts z < ts t
      · have hnew : ∀ y, l.getLast? = some y → ts y < ts t := by
          intro y hy
          obtain rfl := Option.some.inj (hz.symm.trans hy)
          exact hlt
        have htail : (incoming.filter fun u => decide (ts t < ts u)) = incoming.filter fun u => decide (ts z < ts u) := by
          apply List.filter_congr
          intro u hu
          have := hall u hu
          simp only [decide_eq_decide]
          omega
        rw [push_newer hnew]
        refine (ih List.getLast?_concat hi).trans ?_
        rw [htail, List.filter_cons_of_pos (by simpa using hlt), List.append_assoc]
        rfl
      · rw [push_older hz (not_lt.mp hlt), List.filter_cons_of_neg (by simpa using hlt)]
        exact ih hz hi

theorem rtakeWhile_later {κ : Type} [LinearOrder κ] {key : α → κ} (h : l.Pairwise fun a b => key a < key b) (c : κ) :
    (l.rtakeWhile fun x => c < key x) = l.filter fun x => c < key x := by
  induction l using List.reverseRecOn with
  | nil => rfl
  | append_singleton l x ih =>
      obtain ⟨hl, -, hx⟩ := List.pairwise_append.mp h
      by_cases hc : c < key x
      · rw [List.rtakeWhile_concat_pos _ _ _ (by simpa using hc), ih hl, List.filter_append]
        simp [hc]
      · have hnone : (l.filter fun x => c < key x) = [] := by
          rw [List.filter_eq_nil_iff]
          intro y hy hcy
          exact hc (lt_trans (by simpa using hcy) (hx y hy x List.mem_cons_self))
        rw [List.rtakeWhile_concat_neg _ _ _ (by simpa using hc), List.filter_append, hnone]
        simp [hc]

section Span

theorem mem_span {x : α} : x ∈ span ts a b l ↔ x ∈ l ∧ a ≤ ts x ∧ ts x ≤ b := by
  simp [span]

theorem span_append (l m : List α) : span ts a b (l ++ m) = span ts a b l ++ span ts a b m := List.filter_append ..

theorem span_eq_nil (h : ∀ x ∈ l, ts x < a ∨ b < ts x) : span ts a b l = [] := by
  apply List.filter_eq_nil_iff.mpr
  intro x hx
  have := h x hx
  simp only [Bool.and_eq_true, decide_eq_true_eq]
  omega

theorem span_eq_self (h : ∀ x ∈ l, a ≤ ts x ∧ ts x ≤ b) : span ts a b l = l := by
  apply List.filter_eq_self.mpr
  intro x hx
  simpa using h x hx

theorem span_snoc_later {t : α} (h : b < ts t) : span ts a b (l ++ [t]) = span ts a b l := by
  rw [span_append, span_eq_nil (l := [t]) (by simpa using .inr h), List.append_nil]

theorem span_cons_in {x : α} (h : a ≤ ts x ∧ ts x ≤ b) : span ts a b (x :: l) = x :: span ts a b l := by
  apply List.filter_cons_of_pos
  simp only [Bool.and_eq_true, decide_eq_true_eq]
  exact h

theorem span_cons_out {x : α} (h : ts x < a ∨ b < ts x) : span ts a b (x :: l) = span ts a b l := by
  apply List.filter_cons_of_neg
  simp only [Bool.and_eq_true, decide_eq_true_eq]
  omega

theorem span_split (h : Increasing ts l) (hab : a ≤ b + 1) (hbc : b ≤ c) :
    span ts a c l = span ts a b l ++ span ts (b + 1) c l := by
  induction l with
  | nil => rfl
  | cons x l ih =>
      obtain ⟨hall, hl⟩ := List.pairwise_cons.mp h
      by_cases hx : ts x ≤ b
      · rw [span_cons_out (a := b + 1) (.inl (by omega))]
        by_cases ha : a ≤ ts x
        · rw [span_cons_in ⟨ha, by omega⟩, span_cons_in ⟨ha, hx⟩, ih hl, List.cons_append]
        · rw [span_cons_out (.inl (by omega)), span_cons_out (.inl (by omega)), ih hl]
      · have hnil : span ts a b l = [] := by
          refine span_eq_nil fun y hy => .inr ?_
          have := hall y hy
          omega
        have htail := ih hl
        rw [hnil, List.nil_append] at htail
        rw [span_cons_out (b := b) (.inr (by omega)), hnil, List.nil_append]
        by_cases hc : ts x ≤ c
        · rw [span_cons_in ⟨by omega, hc⟩, span_cons_in ⟨by omega, hc⟩, htail]
        · rw [span_cons_out (.inr (by omega)), span_cons_out (.inr (by omega)), htail]

theorem span_suffix {p q : List α} {x z : α} (h : Increasing ts (p ++ q)) (hx : q.head? = some x)
    (hz : q.getLast? = some z) : span ts (ts x) (ts z) (p ++ q) = q := by
  obtain ⟨-, hq, hpq⟩ := List.pairwise_append.mp h
  obtain ⟨rest, rfl⟩ := List.head?_eq_some_iff.mp hx
  have hleft : span ts (ts x) (ts z) p = [] :=
    span_eq_nil fun y hy => .inl (hpq y hy x List.mem_cons_self)
  have hright : span ts (ts x) (ts z) (x :: rest) = x :: rest := by
    refine span_eq_self fun y hy => ⟨?_, le_last hq hz hy⟩
    rcases List.mem_cons.mp hy with rfl | hy
    · exact le_refl _
    · exact le_of_lt ((List.pairwise_cons.mp hq).1 y hy)
  rw [span_append, hleft, hright, List.nil_append]

end Span

section Clear

variable {m : List α}

theorem Clear.later (h : Clear ts l a b) (hac : a ≤ c) : Clear ts l c b := fun x hx hlt => h x hx (lt_of_le_of_lt hac hlt)

theorem Clear.append (h : Clear ts l a b) (hm : ∀ x ∈ m, (∃ y ∈ l, ts y = ts x) ∨ b ≤ ts x) : Clear ts (l ++ m) a b := by
  intro x hx hlt
  rcases List.mem_append.mp hx with hx | hx
  · exact h x hx hlt
  · rcases hm x hx with ⟨y, hy, heq⟩ | hle
    · rw [← heq] at hlt ⊢
      exact h y hy hlt
    · exact hle

theorem clear_of_le (h : ∀ x ∈ l, ts x ≤ a) : Clear ts l a b := fun x hx hlt => absurd hlt (not_lt.mpr (h x hx))

theorem isChain_clear (h : Increasing ts l) : l.IsChain fun x y => Clear ts l (ts x) (ts y) := by
  rw [List.isChain_iff_forall_rel_of_append_cons_cons]
  rintro x y p q rfl z hz hlt
  obtain ⟨-, hxy, hp⟩ := List.pairwise_append.mp h
  obtain ⟨-, hyq⟩ := List.pairwise_cons.mp hxy
  rcases List.mem_append.mp hz with hz | hz
  · exact absurd hlt (not_lt.mpr (le_of_lt (hp z hz x List.mem_cons_self)))
  · rcases List.mem_cons.mp hz with rfl | hz
    · exact absurd hlt (lt_irrefl _)
    · rcases List.mem_cons.mp hz with rfl | hz
      · exact le_refl _
      · exact le_of_lt ((List.pairwise_cons.mp hyq).1 z hz)

end Clear

section Latest

theorem latest_suffix (n : Nat) (l : List α) : latest n l <:+ l := List.drop_suffix _ _

theorem length_latest_le (n : Nat) (l : List α) : (latest n l).length ≤ n := by
  rw [latest, List.length_drop]
  omega

theorem increasing_latest (n : Nat) (h : Increasing ts l) : Increasing ts (latest n l) :=
  h.sublist (latest_suffix n l).sublist

theorem getLast?_latest {n : Nat} (hn : 0 < n) (l : List α) : (latest n l).getLast? = l.getLast? := by
  rw [latest, List.getLast?_drop]
  split_ifs with hle
  · have hnil : l = [] := by
      rw [← List.length_eq_zero_iff]
      omega
    rw [hnil]
    rfl
  · rfl

theorem latest_append_latest (n : Nat) (l m : List α) : latest n (latest n l ++ m) = latest n (l ++ m) := by
  simp only [latest, List.length_append, List.length_drop, List.drop_append, List.drop_drop]
  congr 1
  · congr 1
    omega
  · congr 1
    omega

/-- Cutting off the oldest items does not care for items before time `a`. -/
theorem filter_latest {n : Nat} {k : List α} (hk : ∀ x ∈ k, ts x < a) (hl : ∀ x ∈ l, a ≤ ts x) :
    ((latest n (k ++ l)).filter fun t => decide (a ≤ ts t)) = latest n l := by
  have hkeep : ∀ m, ((l.drop m).filter fun t => decide (a ≤ ts t)) = l.drop m := by
    intro m
    exact List.filter_eq_self.mpr fun x hx => by simpa using hl x (List.mem_of_mem_drop hx)
  have hdrop : ∀ m, ((k.drop m).filter fun t => decide (a ≤ ts t)) = [] := by
    intro m
    apply List.filter_eq_nil_iff.mpr
    intro x hx
    simpa using hk x (List.mem_of_mem_drop hx)
  rw [latest, List.drop_append, List.filter_append, hdrop, hkeep, List.nil_append, latest, List.length_append]
  congr 1
  omega

end Latest

end NetWatch.Lib.Timeline
