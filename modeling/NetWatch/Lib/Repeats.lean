import Mathlib.Data.List.Dedup
import Mathlib.Data.List.Destutter
import Mathlib.Data.List.Perm.Subperm

namespace NetWatch.Lib.Repeats

variable {A : Type} [DecidableEq A]

def Returns (l : List A) : Prop := ∃ a b, a ≠ b ∧ [a, b, a].Sublist l

theorem sublist_destutter' {s : List A} {a : A} {l : List A} (hs : s.IsChain (· ≠ ·)) (h : s.Sublist (a :: l)) :
    s.Sublist (l.destutter' (· ≠ ·) a) := by
  induction l generalizing s a with
  | nil => exact h
  | cons b l ih =>
      by_cases hab : a ≠ b
      · rw [List.destutter'_cons_pos _ hab]
        cases h with
        | cons _ hrest => exact (ih hs hrest).cons a
        | cons_cons _ hrest => exact (ih hs.tail hrest).cons_cons a
      · rw [List.destutter'_cons_neg _ hab]
        obtain rfl := not_not.mp hab
        cases h with
        | cons _ hrest => exact ih hs hrest
        | cons_cons _ hrest =>
            -- The second of two equal neighbours is not needed.
            refine ih hs ?_
            cases hrest with
            | cons _ hrest => exact hrest.cons_cons a
            | cons_cons _ _ => exact absurd rfl (List.isChain_cons_cons.mp hs).1

theorem sublist_destutter {s l : List A} (hs : s.IsChain (· ≠ ·)) (h : s.Sublist l) : s.Sublist (l.destutter (· ≠ ·)) := by
  cases l with
  | nil => exact h
  | cons a l => exact sublist_destutter' hs h

theorem mem_destutter {a : A} {l : List A} : a ∈ l.destutter (· ≠ ·) ↔ a ∈ l := by
  constructor
  · exact fun ha => (List.destutter_sublist _ l).subset ha
  · intro ha
    exact List.singleton_sublist.mp (sublist_destutter (List.isChain_singleton a) (List.singleton_sublist.mpr ha))

omit [DecidableEq A] in
theorem returns_of_pair {l : List A} (hchain : l.IsChain (· ≠ ·)) {a : A} (hpair : [a, a].Sublist l) : Returns l := by
  induction l with
  | nil => cases hpair
  | cons c l ih =>
      cases hpair with
      | cons _ hrest =>
          obtain ⟨x, b, hne, hsub⟩ := ih hchain.tail hrest
          exact ⟨x, b, hne, hsub.cons c⟩
      | cons_cons _ hrest =>
          cases l with
          | nil => cases hrest
          | cons b l =>
              have hab : a ≠ b := (List.isChain_cons_cons.mp hchain).1
              have hmem : a ∈ l := (List.mem_cons.mp (List.singleton_sublist.mp hrest)).resolve_left hab
              exact ⟨a, b, hab, ((List.singleton_sublist.mpr hmem).cons_cons b).cons_cons a⟩

/-- The runs of a list are distinct just when no element comes back. -/
theorem nodup_destutter_iff {l : List A} : (l.destutter (· ≠ ·)).Nodup ↔ ¬ Returns l := by
  constructor
  · rintro hnodup ⟨a, b, hab, hsub⟩
    have hchain : [a, b, a].IsChain (· ≠ ·) := by simp [hab, hab.symm]
    have hpair : [a, a].Sublist [a, b, a] := by simp
    exact List.nodup_iff_sublist.mp hnodup a (hpair.trans (sublist_destutter hchain hsub))
  · intro hreturns
    rw [List.nodup_iff_sublist]
    intro a hpair
    obtain ⟨x, b, hne, hsub⟩ := returns_of_pair (List.isChain_destutter _ l) hpair
    exact hreturns ⟨x, b, hne, hsub.trans (List.destutter_sublist _ l)⟩

section Counts

variable {C : Type} [DecidableEq C]

/-- Counting the runs of each class counts its elements just when the runs are
distinct. -/
theorem count_runs_iff (f : A → C) (l : List A) :
    (∀ c, (l.destutter (· ≠ ·)).countP (fun a => f a = c) = l.dedup.countP fun a => f a = c) ↔ ¬ Returns l := by
  rw [← nodup_destutter_iff]
  constructor
  · intro hcount
    have hsub : l.dedup.Subperm (l.destutter (· ≠ ·)) :=
      (List.nodup_dedup l).subperm fun a ha => mem_destutter.mpr (List.mem_dedup.mp ha)
    obtain ⟨l', hperm, hsub⟩ := hsub
    obtain ⟨rest, hrest⟩ := hsub.exists_perm_append
    cases rest with
    | nil =>
        rw [List.append_nil] at hrest
        exact (hrest.trans hperm).nodup_iff.mpr (List.nodup_dedup l)
    | cons a rest =>
        have hmore := hcount (f a)
        rw [hrest.countP_eq, List.countP_append, hperm.countP_eq, List.countP_cons_of_pos (by simp)] at hmore
        omega
  · intro hnodup c
    apply List.Perm.countP_eq
    rw [List.perm_ext_iff_of_nodup hnodup (List.nodup_dedup l)]
    intro a
    rw [mem_destutter, List.mem_dedup]

end Counts

end NetWatch.Lib.Repeats
