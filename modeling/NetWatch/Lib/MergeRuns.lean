import NetWatch.Lib.Buckets

namespace NetWatch.Lib.MergeRuns

open Buckets

variable {A C B M : Type} [DecidableEq C]

def mergeStep (key : A → C) (join : A → A → A) (acc : List A) (x : A) : List A :=
  match acc.getLast? with
  | some a => if key a = key x then acc.dropLast ++ [join a x] else acc ++ [x]
  | none => acc ++ [x]

/-- A list with each run of one key in one element. -/
def mergeRuns (key : A → C) (join : A → A → A) (l : List A) : List A := l.foldl (mergeStep key join) []

variable {key : A → C} {join : A → A → A} {l acc : List A} {x : A}

theorem mergeRuns_snoc (l : List A) (x : A) : mergeRuns key join (l ++ [x]) = mergeStep key join (mergeRuns key join l) x := by
  rw [mergeRuns, List.foldl_append]
  rfl

theorem mergeStep_cases (key : A → C) (join : A → A → A) (acc : List A) (x : A) :
    (∃ init a, acc = init ++ [a] ∧ key a = key x ∧ mergeStep key join acc x = init ++ [join a x]) ∨
      (∀ init a, acc = init ++ [a] → key a ≠ key x) ∧ mergeStep key join acc x = acc ++ [x] := by
  obtain rfl | ⟨init, a, rfl⟩ := acc.eq_nil_or_concat'
  · exact .inr ⟨fun init a h => absurd h.symm (List.append_ne_nil_of_right_ne_nil init (List.cons_ne_nil a [])), rfl⟩
  · rw [mergeStep, List.getLast?_concat, List.dropLast_concat]
    by_cases hkey : key a = key x
    · exact .inl ⟨init, a, rfl, hkey, if_pos hkey⟩
    · refine .inr ⟨fun init' a' h => ?_, if_neg hkey⟩
      obtain ⟨-, hlast⟩ := List.append_inj' h rfl
      cases hlast
      exact hkey

theorem map_sublist {f : A → B} (hf : ∀ a x, f (join a x) = f a) (l : List A) :
    ((mergeRuns key join l).map f).Sublist (l.map f) := by
  induction l using List.reverseRecOn with
  | nil => exact .slnil
  | append_singleton l x ih =>
      rw [mergeRuns_snoc, List.map_append]
      obtain ⟨init, a, hacc, -, hstep⟩ | ⟨-, hstep⟩ := mergeStep_cases key join (mergeRuns key join l) x
      · rw [hacc, List.map_append] at ih
        rw [hstep, List.map_append, List.map_singleton, hf]
        exact ih.trans (List.sublist_append_left _ _)
      · rw [hstep, List.map_append]
        exact ih.append (.refl _)

theorem total_mergeRuns [AddCommMonoid M] {value : A → M} (hvalue : ∀ a x, value (join a x) = value a + value x) (l : List A) :
    total value (mergeRuns key join l) = total value l := by
  induction l using List.reverseRecOn with
  | nil => rfl
  | append_singleton l x ih =>
      rw [mergeRuns_snoc, total_append, ← ih, total_cons, total_nil, add_zero]
      obtain ⟨init, a, hacc, -, hstep⟩ | ⟨-, hstep⟩ := mergeStep_cases key join (mergeRuns key join l) x
      · rw [hstep, hacc, total_append, total_append, total_cons, total_nil, total_cons, total_nil, hvalue, add_zero, add_zero,
          add_assoc]
      · rw [hstep, total_append, total_cons, total_nil, add_zero]

theorem mem_keys (hkey : ∀ a x, key (join a x) = key a) (l : List A) (k : C) :
    k ∈ (mergeRuns key join l).map key ↔ k ∈ l.map key := by
  induction l using List.reverseRecOn with
  | nil => rfl
  | append_singleton l x ih =>
      rw [mergeRuns_snoc, List.map_append, List.mem_append, ← ih]
      obtain ⟨init, a, hacc, hsame, hstep⟩ | ⟨-, hstep⟩ := mergeStep_cases key join (mergeRuns key join l) x
      · rw [hstep, hacc, List.map_append, List.map_append, List.mem_append, List.mem_append, List.map_singleton, List.map_singleton,
          List.map_singleton, hkey, hsame]
        tauto
      · rw [hstep, List.map_append, List.mem_append]

theorem keys_increasing [LinearOrder C] (hkey : ∀ a x, key (join a x) = key a) (h : l.Pairwise fun a b => key a ≤ key b) :
    (mergeRuns key join l).Pairwise fun a b => key a < key b := by
  induction l using List.reverseRecOn with
  | nil => exact .nil
  | append_singleton l x ih =>
      obtain ⟨hl, -, hx⟩ := List.pairwise_append.mp h
      have hrest := ih hl
      rw [mergeRuns_snoc]
      obtain ⟨init, a, hacc, -, hstep⟩ | ⟨hdiff, hstep⟩ := mergeStep_cases key join (mergeRuns key join l) x
      · rw [hacc] at hrest
        rw [hstep]
        obtain ⟨hinit, -, ha⟩ := List.pairwise_append.mp hrest
        refine List.pairwise_append.mpr ⟨hinit, List.pairwise_singleton _ _, fun b hb c hc => ?_⟩
        cases List.mem_singleton.mp hc
        rw [hkey]
        exact ha b hb a List.mem_cons_self
      · rw [hstep]
        refine List.pairwise_append.mpr ⟨hrest, List.pairwise_singleton _ _, fun b hb c hc => ?_⟩
        cases List.mem_singleton.mp hc
        -- the last key is below the new one, and the others are below the last
        obtain hnil | ⟨init, a, hacc⟩ := (mergeRuns key join l).eq_nil_or_concat'
        · rw [hnil] at hb
          cases hb
        · obtain ⟨a', ha', hsame⟩ := List.mem_map.mp ((mem_keys hkey l (key a)).mp
            (List.mem_map_of_mem (hacc ▸ List.mem_append_right _ List.mem_cons_self)))
          have hle : key a ≤ key x := hsame ▸ hx a' ha' x List.mem_cons_self
          have hlt : key a < key x := lt_of_le_of_ne hle (hdiff init a hacc)
          rw [hacc] at hb hrest
          obtain hb | hb := List.mem_append.mp hb
          · exact ((List.pairwise_append.mp hrest).2.2 b hb a List.mem_cons_self).trans hlt
          · cases List.mem_singleton.mp hb
            exact hlt

end NetWatch.Lib.MergeRuns
