import Mathlib.Data.List.Perm.Subperm
import Mathlib.Data.List.Pairwise
import Mathlib.Data.List.Flatten

namespace NetWatch.Lib.Clusters

variable {α : Type} (near : α → α → Bool)

/-- The groups of a list, of which the one that begins with `first` is being filled. -/
def grow (first : α) (cur : List α) : List α → List (List α)
  | [] => [first :: cur]
  | e :: l => if near first e then grow first (cur ++ [e]) l else (first :: cur) :: grow e [] l

/-- An element joins the current group while it is near the first element of it. -/
def clusters : List α → List (List α)
  | [] => []
  | a :: l => grow near a [] l

def Close (le : α → α → Prop) (a b : α) : Prop := (le a b → near a b = true) ∧ (le b a → near b a = true)

variable {near} {le : α → α → Prop} {first : α} {cur l : List α}

theorem flatten_grow : (grow near first cur l).flatten = first :: cur ++ l := by
  induction l generalizing first cur with
  | nil => simp [grow]
  | cons e l ih =>
      rw [grow]
      split
      · rw [ih, List.cons_append, List.cons_append, List.append_assoc]
        rfl
      · rw [List.flatten_cons, ih]
        simp

theorem flatten_clusters (l : List α) : (clusters near l).flatten = l := by
  cases l with
  | nil => rfl
  | cons a l => exact flatten_grow

theorem near_grow (hcur : ∀ e ∈ cur, near first e = true) :
    ∀ g ∈ grow near first cur l, ∃ f r, g = f :: r ∧ ∀ e ∈ r, near f e = true := by
  induction l generalizing first cur with
  | nil =>
      intro g hg
      exact ⟨first, cur, List.mem_singleton.mp hg, hcur⟩
  | cons e l ih =>
      intro g hg
      rw [grow] at hg
      split at hg
      · rename_i he
        refine ih (fun x hx => ?_) g hg
        obtain hx | hx := List.mem_append.mp hx
        · exact hcur x hx
        · rwa [List.mem_singleton.mp hx]
      · obtain rfl | hg := List.mem_cons.mp hg
        · exact ⟨first, cur, rfl, hcur⟩
        · exact ih (by simp) g hg

theorem near_clusters {g : List α} (hg : g ∈ clusters near l) : ∃ f r, g = f :: r ∧ ∀ e ∈ r, near f e = true := by
  cases l with
  | nil => cases hg
  | cons a l => exact near_grow (by simp) g hg

theorem apart_grow (hsorted : (first :: l).Pairwise le) (hmono : ∀ a b c, le b c → near a c = true → near a b = true) :
    (grow near first cur l).Pairwise fun g g' => ∃ f ∈ g.head?, ∀ e ∈ g', near f e = false := by
  induction l generalizing first cur with
  | nil => exact List.pairwise_singleton _ _
  | cons e l ih =>
      obtain ⟨hfirst, hrest⟩ := List.pairwise_cons.mp hsorted
      obtain ⟨he, hl⟩ := List.pairwise_cons.mp hrest
      rw [grow]
      split
      · exact ih (List.pairwise_cons.mpr ⟨fun x hx => hfirst x (List.mem_cons_of_mem e hx), hl⟩)
      · rename_i hfar
        refine List.pairwise_cons.mpr ⟨fun g hg => ⟨first, rfl, fun x hx => ?_⟩, ih hrest⟩
        have hmem : x ∈ e :: l := by
          have hflat : x ∈ (grow near e [] l).flatten := List.mem_flatten_of_mem hg hx
          rwa [flatten_grow] at hflat
        obtain rfl | hmem := List.mem_cons.mp hmem
        · exact Bool.eq_false_iff.mpr hfar
        · exact Bool.eq_false_iff.mpr fun hx => hfar (hmono first e x (he x hmem) hx)

theorem apart_clusters (hsorted : l.Pairwise le) (hmono : ∀ a b c, le b c → near a c = true → near a b = true) :
    (clusters near l).Pairwise fun g g' => ∃ f ∈ g.head?, ∀ e ∈ g', near f e = false := by
  cases l with
  | nil => exact .nil
  | cons a l => exact apart_grow hsorted hmono

/-- Elements that are far from each other lie in different parts. -/
theorem length_le_parts {parts : List (List α)} (hfar : l.Pairwise fun a b => ¬ Close near le a b)
    (hclose : ∀ p ∈ parts, p.Pairwise (Close near le)) (h : l.Sublist parts.flatten) : l.length ≤ parts.length := by
  induction parts generalizing l with
  | nil =>
      rw [List.flatten_nil, List.sublist_nil] at h
      rw [h]
      exact Nat.le_refl 0
  | cons p parts ih =>
      rw [List.flatten_cons, List.sublist_append_iff] at h
      obtain ⟨l₁, l₂, rfl, hfirst, hrest⟩ := h
      obtain ⟨hfar₁, hfar₂, -⟩ := List.pairwise_append.mp hfar
      have hone : l₁.length ≤ 1 := by
        have hboth := hfar₁.and ((hclose p List.mem_cons_self).sublist hfirst)
        match l₁, hboth with
        | [], _ => exact Nat.zero_le 1
        | [a], _ => exact Nat.le_refl 1
        | a :: b :: l₁, hboth =>
            have hab := (List.pairwise_cons.mp hboth).1 b List.mem_cons_self
            exact absurd hab.2 hab.1
      have htail := ih hfar₂ (fun q hq => hclose q (List.mem_cons_of_mem p hq)) hrest
      rw [List.length_append, List.length_cons]
      omega

def heads (groups : List (List α)) : List α := groups.filterMap List.head?

theorem heads_sublist (groups : List (List α)) : (heads groups).Sublist groups.flatten := by
  induction groups with
  | nil => exact .slnil
  | cons g groups ih =>
      cases g with
      | nil => exact ih
      | cons a g =>
          simp only [heads, List.filterMap_cons, List.head?_cons, List.flatten_cons, List.cons_append] at ih ⊢
          exact (ih.trans (List.sublist_append_right _ _)).cons_cons a

theorem length_heads {groups : List (List α)} (h : ∀ g ∈ groups, g ≠ []) : (heads groups).length = groups.length := by
  induction groups with
  | nil => rfl
  | cons g groups ih =>
      cases g with
      | nil => exact absurd rfl (h [] List.mem_cons_self)
      | cons a g =>
          have hrest := ih fun g' hg' => h g' (List.mem_cons_of_mem _ hg')
          simp only [heads, List.filterMap_cons, List.head?_cons, List.length_cons] at hrest ⊢
          rw [hrest]

/-- No other grouping into parts of elements that are close to each other has fewer groups. -/
theorem clusters_fewest {parts : List (List α)} (hsorted : l.Pairwise le)
    (hmono : ∀ a b c, le b c → near a c = true → near a b = true) (hparts : parts.flatten.Perm l)
    (hclose : ∀ p ∈ parts, p.Pairwise (Close near le)) : (clusters near l).length ≤ parts.length := by
  have hsub : (heads (clusters near l)).Sublist l := by
    have hheads := heads_sublist (clusters near l)
    rwa [flatten_clusters] at hheads
  have hfar : (heads (clusters near l)).Pairwise fun a b => ¬ Close near le a b := by
    have hfar' : (heads (clusters near l)).Pairwise fun a b => near a b = false := by
      refine List.pairwise_filterMap.mpr ((apart_clusters hsorted hmono).imp ?_)
      rintro g g' ⟨f, hf, hg'⟩ a ha b hb
      rw [Option.mem_def.mp hf] at ha
      cases ha
      exact hg' b (List.mem_of_mem_head? hb)
    refine ((hsorted.sublist hsub).and hfar').imp ?_
    rintro a b ⟨hle, hnear⟩ hab
    cases hnear.symm.trans (hab.1 hle)
  obtain ⟨l', hperm, hl'⟩ := (hsub.subperm.trans hparts.symm.subperm)
  have hsymm : ∀ {a b : α}, ¬ Close near le a b → ¬ Close near le b a := fun h hba => h ⟨hba.2, hba.1⟩
  have hne : ∀ g ∈ clusters near l, g ≠ [] := by
    intro g hg
    obtain ⟨f, r, rfl, -⟩ := near_clusters hg
    exact List.cons_ne_nil f r
  rw [← length_heads hne, ← hperm.length_eq]
  exact length_le_parts ((hperm.pairwise_iff hsymm).mpr hfar) hclose hl'

end NetWatch.Lib.Clusters
