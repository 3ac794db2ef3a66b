import Mathlib.Data.List.Dedup
import Mathlib.Data.List.Induction
import Mathlib.Data.List.Perm.Subperm
import Mathlib.Order.Lattice

namespace NetWatch.Lib.IntervalRows

variable {ι T : Type} [LinearOrder T]

/-- The end of each row so far, and the row of each interval placed. -/
structure Rows (ι T : Type) where
  ends : List T
  placed : List (ι × ℕ)

/-- An interval goes to the first row that is free at its start, or to a new one. -/
def place (start stop : ι → T) (s : Rows ι T) (i : ι) : Rows ι T :=
  match s.ends.findIdx? (· ≤ start i) with
  | some row => ⟨s.ends.set row (stop i), s.placed ++ [(i, row)]⟩
  | none => ⟨s.ends ++ [stop i], s.placed ++ [(i, s.ends.length)]⟩

def rowsOf (start stop : ι → T) (is : List ι) : Rows ι T := is.foldl (place start stop) ⟨[], []⟩

def depth (start stop : ι → T) (is : List ι) (t : T) : ℕ := is.countP fun i => start i ≤ t ∧ t < stop i

variable {start stop : ι → T} {s : Rows ι T} {i : ι} {is : List ι}

theorem place_cases (start stop : ι → T) (s : Rows ι T) (i : ι) :
    (∃ row e, s.ends[row]? = some e ∧ e ≤ start i ∧
      place start stop s i = ⟨s.ends.set row (stop i), s.placed ++ [(i, row)]⟩) ∨
    (∀ e ∈ s.ends, start i < e) ∧ place start stop s i = ⟨s.ends ++ [stop i], s.placed ++ [(i, s.ends.length)]⟩ := by
  unfold place
  cases hfind : s.ends.findIdx? (· ≤ start i) with
  | some row =>
      obtain ⟨hlt, hle, -⟩ := List.findIdx?_eq_some_iff_getElem.mp hfind
      exact .inl ⟨row, s.ends[row], List.getElem?_eq_getElem hlt, of_decide_eq_true hle, rfl⟩
  | none =>
      refine .inr ⟨fun e he => ?_, rfl⟩
      exact lt_of_not_ge (of_decide_eq_false (List.findIdx?_eq_none_iff.mp hfind e he))

/-- Intervals in one row follow one another, up to the end of the row, which the last of them has. -/
structure Packed (start stop : ι → T) (s : Rows ι T) : Prop where
  apart : s.placed.Pairwise fun p q => p.2 = q.2 → stop p.1 ≤ start q.1
  upto : ∀ p ∈ s.placed, ∃ e, s.ends[p.2]? = some e ∧ stop p.1 ≤ e
  last : ∀ {row e}, s.ends[row]? = some e → ∃ p ∈ s.placed, p.2 = row ∧ stop p.1 = e

theorem Packed.reuse {row : ℕ} {e : T} (h : Packed start stop s) (hi : start i ≤ stop i) (hrow : s.ends[row]? = some e)
    (hle : e ≤ start i) : Packed start stop ⟨s.ends.set row (stop i), s.placed ++ [(i, row)]⟩ := by
  have hlt : row < s.ends.length := (List.getElem?_eq_some_iff.mp hrow).1
  have hold : ∀ p ∈ s.placed, p.2 = row → stop p.1 ≤ start i := by
    rintro p hp rfl
    obtain ⟨e', he', hstop⟩ := h.upto p hp
    obtain rfl := Option.some.inj (hrow.symm.trans he')
    exact hstop.trans hle
  refine ⟨List.pairwise_append.mpr ⟨h.apart, List.pairwise_singleton _ _, ?_⟩, fun p hp => ?_, fun {row' e'} he' => ?_⟩
  · intro p hp q hq hpq
    rw [List.mem_singleton.mp hq] at hpq ⊢
    exact hold p hp hpq
  · obtain hp | hp := List.mem_append.mp hp
    · by_cases hsame : p.2 = row
      · exact ⟨stop i, by rw [hsame, List.getElem?_set_self hlt], (hold p hp hsame).trans hi⟩
      · obtain ⟨e', he', hstop⟩ := h.upto p hp
        exact ⟨e', by rw [List.getElem?_set_ne (Ne.symm hsame), he'], hstop⟩
    · obtain rfl := List.mem_singleton.mp hp
      exact ⟨stop i, List.getElem?_set_self hlt, le_rfl⟩
  · dsimp only at he'
    by_cases hsame : row' = row
    · subst hsame
      rw [List.getElem?_set_self hlt] at he'
      exact ⟨(i, row'), List.mem_append_right _ List.mem_cons_self, rfl, Option.some.inj he'⟩
    · rw [List.getElem?_set_ne (Ne.symm hsame)] at he'
      obtain ⟨p, hp, hrow', hstop⟩ := h.last he'
      exact ⟨p, List.mem_append_left _ hp, hrow', hstop⟩

theorem Packed.extend (h : Packed start stop s) (i : ι) :
    Packed start stop ⟨s.ends ++ [stop i], s.placed ++ [(i, s.ends.length)]⟩ := by
  refine ⟨List.pairwise_append.mpr ⟨h.apart, List.pairwise_singleton _ _, ?_⟩, fun p hp => ?_, fun {row e} he => ?_⟩
  · intro p hp q hq hpq
    rw [List.mem_singleton.mp hq] at hpq
    obtain ⟨e, he, -⟩ := h.upto p hp
    have hlt := (List.getElem?_eq_some_iff.mp he).1
    rw [hpq] at hlt
    exact absurd hlt (Nat.lt_irrefl _)
  · obtain hp | hp := List.mem_append.mp hp
    · obtain ⟨e, he, hstop⟩ := h.upto p hp
      exact ⟨e, by rw [List.getElem?_append_left (List.getElem?_eq_some_iff.mp he).1, he], hstop⟩
    · obtain rfl := List.mem_singleton.mp hp
      exact ⟨stop i, List.getElem?_concat_length, le_rfl⟩
  · dsimp only at he
    obtain hlt | hge := Nat.lt_or_ge row s.ends.length
    · rw [List.getElem?_append_left hlt] at he
      obtain ⟨p, hp, hrow, hstop⟩ := h.last he
      exact ⟨p, List.mem_append_left _ hp, hrow, hstop⟩
    · rw [List.getElem?_append_right hge] at he
      obtain ⟨hlt, hstop⟩ := List.getElem?_eq_some_iff.mp he
      rw [List.getElem_singleton] at hstop
      have hrow : row = s.ends.length := by
        rw [List.length_singleton] at hlt
        omega
      exact ⟨(i, s.ends.length), List.mem_append_right _ List.mem_cons_self, hrow.symm, hstop⟩

theorem Packed.place (h : Packed start stop s) (hi : start i ≤ stop i) : Packed start stop (place start stop s i) := by
  obtain ⟨row, e, hrow, hle, heq⟩ | ⟨-, heq⟩ := place_cases start stop s i
  · rw [heq]
    exact h.reuse hi hrow hle
  · rw [heq]
    exact h.extend i

theorem rowsOf_snoc (is : List ι) (i : ι) : rowsOf start stop (is ++ [i]) = place start stop (rowsOf start stop is) i := by
  rw [rowsOf, List.foldl_append]
  rfl

theorem rowsOf_packed (h : ∀ i ∈ is, start i ≤ stop i) : Packed start stop (rowsOf start stop is) := by
  induction is using List.reverseRecOn with
  | nil => exact ⟨List.Pairwise.nil, nofun, nofun⟩
  | append_singleton is i ih =>
      rw [rowsOf_snoc]
      exact (ih fun j hj => h j (List.mem_append_left _ hj)).place (h i (List.mem_append_right _ List.mem_cons_self))

theorem placed_fst (is : List ι) : (rowsOf start stop is).placed.map Prod.fst = is := by
  induction is using List.reverseRecOn with
  | nil => rfl
  | append_singleton is i ih =>
      have hstep : ∀ s : Rows ι T, (place start stop s i).placed.map Prod.fst = s.placed.map Prod.fst ++ [i] := by
        intro s
        obtain ⟨row, e, -, -, heq⟩ | ⟨-, heq⟩ := place_cases start stop s i <;> rw [heq, List.map_append] <;> rfl
      rw [rowsOf_snoc, hstep, ih]

section Depth

variable {t : T}

def present (start stop : ι → T) (s : Rows ι T) (t : T) : List (ι × ℕ) := s.placed.filter fun p => start p.1 ≤ t ∧ t < stop p.1

theorem length_present (is : List ι) (t : T) : (present start stop (rowsOf start stop is) t).length = depth start stop is t := by
  have hcount := List.countP_map (p := fun i => decide (start i ≤ t ∧ t < stop i)) (f := Prod.fst) (l := (rowsOf start stop is).placed)
  rw [placed_fst] at hcount
  rw [present, ← List.countP_eq_length_filter, depth, hcount]
  rfl

theorem Packed.depth_le (h : Packed start stop s) (t : T) : (present start stop s t).length ≤ s.ends.length := by
  have hnodup : ((present start stop s t).map Prod.snd).Nodup := by
    apply List.Pairwise.map Prod.snd _ (List.Pairwise.and_mem.mp (h.apart.filter _))
    rintro p q ⟨hp, hq, hapart⟩ hpq
    have hp := of_decide_eq_true (List.mem_filter.mp hp).2
    have hq := of_decide_eq_true (List.mem_filter.mp hq).2
    exact absurd (hp.2.trans_le (hapart hpq)) (not_lt_of_ge hq.1)
  have hsub : (present start stop s t).map Prod.snd ⊆ List.range s.ends.length := by
    intro row hrow
    obtain ⟨p, hp, rfl⟩ := List.mem_map.mp hrow
    obtain ⟨e, he, -⟩ := h.upto p (List.mem_filter.mp hp).1
    exact List.mem_range.mpr (List.getElem?_eq_some_iff.mp he).1
  have hlen := (hnodup.subperm hsub).length_le
  rwa [List.length_map, List.length_range] at hlen

/-- When all rows are busy at the start of an interval, each holds an interval there. -/
theorem Packed.busy (h : Packed start stop s) (hsorted : ∀ p ∈ s.placed, start p.1 ≤ t) (hbusy : ∀ e ∈ s.ends, t < e) :
    s.ends.length ≤ (present start stop s t).length := by
  have hsub : List.range s.ends.length ⊆ (present start stop s t).map Prod.snd := by
    intro row hrow
    have hget := List.getElem?_eq_getElem (List.mem_range.mp hrow)
    obtain ⟨p, hp, hprow, hstop⟩ := h.last hget
    refine List.mem_map.mpr ⟨p, List.mem_filter.mpr ⟨hp, decide_eq_true ⟨hsorted p hp, ?_⟩⟩, hprow⟩
    rw [hstop]
    exact hbusy _ (List.getElem_mem _)
  have hlen := (List.nodup_range.subperm hsub).length_le
  rwa [List.length_map, List.length_range] at hlen

theorem deepest (hsorted : is.Pairwise fun i j => start i ≤ start j) (hpos : ∀ i ∈ is, start i < stop i) :
    is = [] ∨ ∃ t, (rowsOf start stop is).ends.length ≤ depth start stop is t := by
  induction is using List.reverseRecOn with
  | nil => exact .inl rfl
  | append_singleton is i ih =>
      obtain ⟨hbefore, -, hstart⟩ := List.pairwise_append.mp hsorted
      have hposi := hpos i (List.mem_append_right _ List.mem_cons_self)
      have hposis : ∀ j ∈ is, start j < stop j := fun j hj => hpos j (List.mem_append_left _ hj)
      have hpacked := rowsOf_packed fun j hj => (hposis j hj).le
      have hdepth : ∀ t, depth start stop (is ++ [i]) t = depth start stop is t + depth start stop [i] t :=
        fun t => List.countP_append
      right
      rw [rowsOf_snoc]
      obtain ⟨row, e, hrow, -, heq⟩ | ⟨hbusy, heq⟩ := place_cases start stop (rowsOf start stop is) i
      · rw [heq, List.length_set]
        obtain rfl | ⟨t, ht⟩ := ih hbefore hposis
        · cases hrow
        · refine ⟨t, ?_⟩
          rw [hdepth]
          exact Nat.le_add_right_of_le ht
      · refine ⟨start i, ?_⟩
        have hall : ∀ p ∈ (rowsOf start stop is).placed, start p.1 ≤ start i := by
          intro p hp
          have hmem := List.mem_map_of_mem (f := Prod.fst) hp
          rw [placed_fst] at hmem
          exact hstart p.1 hmem i List.mem_cons_self
        have hrows := hpacked.busy hall hbusy
        have hone : depth start stop [i] (start i) = 1 :=
          List.countP_singleton.trans (if_pos (decide_eq_true ⟨le_rfl, hposi⟩))
        rw [heq, List.length_append, hdepth, hone]
        rw [length_present] at hrows
        exact Nat.add_le_add_right hrows 1

theorem depth_le (h : ∀ i ∈ is, start i ≤ stop i) (t : T) : depth start stop is t ≤ (rowsOf start stop is).ends.length := by
  rw [← length_present]
  exact (rowsOf_packed h).depth_le t

/-- Other rows without overlaps are no fewer than the intervals at an instant. -/
theorem depth_le_rows (hnodup : is.Nodup) (row : ι → ℕ)
    (hrow : ∀ i ∈ is, ∀ j ∈ is, i ≠ j → row i = row j → stop i ≤ start j ∨ stop j ≤ start i) (t : T) :
    depth start stop is t ≤ (is.map row).dedup.length := by
  have hinj : ((is.filter fun i => start i ≤ t ∧ t < stop i).map row).Nodup := by
    apply (hnodup.filter _).map_on
    intro i hi j hj heq
    obtain ⟨hi, hit⟩ := List.mem_filter.mp hi
    obtain ⟨hj, hjt⟩ := List.mem_filter.mp hj
    have hit := of_decide_eq_true hit
    have hjt := of_decide_eq_true hjt
    by_contra hne
    obtain hle | hle := hrow i hi j hj hne heq
    · exact absurd (hit.2.trans_le hle) (not_lt_of_ge hjt.1)
    · exact absurd (hjt.2.trans_le hle) (not_lt_of_ge hit.1)
  have hsub : (is.filter fun i => start i ≤ t ∧ t < stop i).map row ⊆ (is.map row).dedup :=
    fun r hr => List.mem_dedup.mpr (List.map_subset row (List.filter_subset_self is) hr)
  have hlen := (hinj.subperm hsub).length_le
  rwa [List.length_map, ← List.countP_eq_length_filter] at hlen

end Depth

end NetWatch.Lib.IntervalRows
