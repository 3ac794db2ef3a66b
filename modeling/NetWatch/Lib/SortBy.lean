import Mathlib.Data.List.Sort

namespace NetWatch.Lib.SortBy

variable {α : Type} {cmp : α → α → Ordering} {a b : α} {l l' : List α}

def Upto (cmp : α → α → Ordering) (a b : α) : Prop := (cmp a b).isLE = true

instance : DecidableRel (Upto cmp) := fun a b => inferInstanceAs (Decidable ((cmp a b).isLE = true))

/-- A stable sort by a comparison. -/
def sortBy (cmp : α → α → Ordering) (l : List α) : List α := l.insertionSort (Upto cmp)

theorem sortBy_perm (l : List α) : (sortBy cmp l).Perm l := List.perm_insertionSort _ l

theorem mem_sortBy : a ∈ sortBy cmp l ↔ a ∈ l := (sortBy_perm l).mem_iff

section Order

variable [Std.TransCmp cmp]

instance : IsTrans α (Upto cmp) := ⟨fun _ _ _ => Std.TransCmp.isLE_trans⟩

instance : Std.Total (Upto cmp) where
  total a b := by
    by_cases hab : Upto cmp a b
    · exact .inl hab
    · have hgt : cmp a b = .gt := by simpa [Upto, Ordering.isLE_iff_ne_gt] using hab
      refine .inr ?_
      rw [Upto, Std.OrientedCmp.lt_of_gt hgt]
      rfl

theorem sortBy_pairwise (l : List α) : (sortBy cmp l).Pairwise (Upto cmp) := List.pairwise_insertionSort _ l

theorem sortBy_congr (h : l.Perm l') (heq : ∀ a ∈ l, ∀ b ∈ l, cmp a b = .eq → a = b) : sortBy cmp l = sortBy cmp l' := by
  apply List.Perm.eq_of_pairwise _ (sortBy_pairwise l) (sortBy_pairwise l')
  · exact ((sortBy_perm l).trans h).trans (sortBy_perm l').symm
  · intro a b ha hb hab hba
    exact heq a (mem_sortBy.mp ha) b (h.mem_iff.mpr (mem_sortBy.mp hb)) (Std.OrientedCmp.isLE_antisymm hab hba)

theorem mem_take_of_pairwise {n : ℕ} (h : l.Pairwise fun a b => cmp a b = .lt) :
    a ∈ l.take n ↔ a ∈ l ∧ (l.filter fun b => cmp b a = .lt).length < n := by
  induction l generalizing n with
  | nil => simp
  | cons b l ih =>
      obtain ⟨hb, hl⟩ := List.pairwise_cons.mp h
      cases n with
      | zero => simp
      | succ n =>
          rw [List.take_succ_cons, List.mem_cons, List.mem_cons, ih hl]
          by_cases hab : a = b
          · subst hab
            have hnone : (a :: l).filter (fun c => cmp c a = .lt) = [] := by
              apply List.filter_eq_nil_iff.mpr
              intro c hc hlt
              obtain rfl | hmem := List.mem_cons.mp hc
              · exact absurd (Std.ReflCmp.compare_self.symm.trans (of_decide_eq_true hlt)) nofun
              · exact absurd ((Std.OrientedCmp.gt_of_lt (hb c hmem)).symm.trans (of_decide_eq_true hlt)) nofun
            rw [hnone]
            exact iff_of_true (.inl rfl) ⟨.inl rfl, Nat.zero_lt_succ n⟩
          · rw [or_iff_right hab, or_iff_right hab]
            refine and_congr_right fun hmem => ?_
            rw [List.filter_cons, if_pos (decide_eq_true (hb a hmem)), List.length_cons, Nat.add_lt_add_iff_right]

theorem sortBy_strict (hnodup : l.Nodup) (heq : ∀ a ∈ l, ∀ b ∈ l, cmp a b = .eq → a = b) :
    (sortBy cmp l).Pairwise fun a b => cmp a b = .lt := by
  have hsorted : (sortBy cmp l).Pairwise (Upto cmp) := sortBy_pairwise l
  have hboth := hsorted.and ((sortBy_perm l).nodup_iff.mpr hnodup)
  refine hboth.imp_of_mem fun {x y} hx hy hxy => ?_
  cases hcmp : cmp x y with
  | lt => rfl
  | eq => exact absurd (heq x (mem_sortBy.mp hx) y (mem_sortBy.mp hy) hcmp) hxy.2
  | gt =>
      have hle := hxy.1
      rw [Upto, hcmp] at hle
      cases hle

/-- The first elements in order are those with few before them. -/
theorem mem_take_sortBy {n : ℕ} (hnodup : l.Nodup) (heq : ∀ a ∈ l, ∀ b ∈ l, cmp a b = .eq → a = b) :
    a ∈ (sortBy cmp l).take n ↔ a ∈ l ∧ (l.filter fun b => cmp b a = .lt).length < n := by
  rw [mem_take_of_pairwise (sortBy_strict hnodup heq), mem_sortBy, ((sortBy_perm l).filter _).length_eq]

end Order

theorem transCmp_on {β : Type} (cmp : β → β → Ordering) [Std.TransCmp cmp] (f : α → β) : Std.TransCmp fun a b => cmp (f a) (f b) where
  eq_swap := Std.OrientedCmp.eq_swap
  isLE_trans := Std.TransCmp.isLE_trans

section Keys

variable {K : Type} [Ord K] {key : α → K} {second : α → α → Ordering}

theorem upto_lex : Upto (compareLex (compareOn key) second) a b ↔
    compare (key a) (key b) = .lt ∨ compare (key a) (key b) = .eq ∧ Upto second a b := by
  rw [Upto, compareLex, compareOn]
  cases hcmp : compare (key a) (key b) with
  | lt => exact iff_of_true rfl (.inl rfl)
  | eq => exact ⟨fun h => .inr ⟨rfl, h⟩, fun h => h.elim nofun And.right⟩
  | gt => exact iff_of_false nofun fun h => h.elim nofun fun h => nomatch h.1

theorem lex_lt_desc : compareLex (fun a b => compareOn key b a) second a b = .lt ↔
    compare (key b) (key a) = .lt ∨ compare (key b) (key a) = .eq ∧ second a b = .lt := by
  rw [compareLex, compareOn]
  cases hcmp : compare (key b) (key a) with
  | lt => exact iff_of_true rfl (.inl rfl)
  | eq => exact ⟨fun h => .inr ⟨rfl, h⟩, fun h => h.elim nofun And.right⟩
  | gt => exact iff_of_false nofun fun h => h.elim nofun fun h => nomatch h.1

theorem lex_eq {first : α → α → Ordering} : compareLex first second a b = .eq ↔ first a b = .eq ∧ second a b = .eq :=
  Ordering.then_eq_eq

end Keys

end NetWatch.Lib.SortBy
