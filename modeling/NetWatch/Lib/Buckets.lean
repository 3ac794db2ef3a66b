import Mathlib.Algebra.BigOperators.Group.Finset.Basic
import Mathlib.Algebra.BigOperators.Group.Finset.Piecewise
import Mathlib.Data.List.Basic
import Mathlib.Data.List.Dedup

namespace NetWatch.Lib.Buckets

variable {R G M : Type} [AddCommMonoid M]

def total (value : R → M) (rows : List R) : M := (rows.map value).sum

@[simp] theorem total_nil (value : R → M) : total value [] = 0 := rfl

@[simp] theorem total_cons (value : R → M) (r : R) (rows : List R) : total value (r :: rows) = value r + total value rows :=
  List.sum_cons

@[simp] theorem total_append (value : R → M) (rows rows' : List R) :
    total value (rows ++ rows') = total value rows + total value rows' := by
  rw [total, List.map_append, List.sum_append]
  rfl

theorem total_perm {rows rows' : List R} (h : rows.Perm rows') (value : R → M) : total value rows = total value rows' :=
  (h.map value).sum_eq

theorem total_map {S : Type} (value : R → M) (f : S → R) (rows : List S) :
    total value (rows.map f) = total (fun s => value (f s)) rows := by
  rw [total, List.map_map]
  rfl

theorem total_ite (q : R → Prop) [DecidablePred q] (value : R → M) (rows : List R) :
    total (fun r => if q r then value r else 0) rows = total value (rows.filter q) := by
  induction rows with
  | nil => rfl
  | cons r rows ih => by_cases hr : q r <;> simp [hr, ih]

theorem total_fst {N : Type} [AddCommMonoid N] (value : R → M × N) (rows : List R) :
    (total value rows).1 = total (fun r => (value r).1) rows := by
  induction rows with
  | nil => rfl
  | cons r rows ih => rw [total_cons, total_cons, Prod.fst_add, ih]

theorem total_snd {N : Type} [AddCommMonoid N] (value : R → M × N) (rows : List R) :
    (total value rows).2 = total (fun r => (value r).2) rows := by
  induction rows with
  | nil => rfl
  | cons r rows ih => rw [total_cons, total_cons, Prod.snd_add, ih]

def inBucket (index : R → Option ℕ) (i : ℕ) (rows : List R) : List R := rows.filter fun r => index r = some i

def fill (index : R → Option ℕ) (value : R → M) (n : ℕ) (rows : List R) : List M :=
  rows.foldl (fun acc r => (index r).elim acc fun i => acc.modify i (· + value r)) (List.replicate n 0)

section Fill

variable {index : R → Option ℕ} {value : R → M} {n i : ℕ} {rows : List R}

theorem fill_snoc (rows : List R) (r : R) : fill index value n (rows ++ [r]) =
    (index r).elim (fill index value n rows) fun i => (fill index value n rows).modify i (· + value r) := by
  rw [fill, List.foldl_append]
  rfl

@[simp] theorem length_fill : (fill index value n rows).length = n := by
  induction rows using List.reverseRecOn with
  | nil => exact List.length_replicate
  | append_singleton rows r ih =>
      rw [fill_snoc]
      cases index r with
      | none => exact ih
      | some i => rw [Option.elim_some, List.length_modify, ih]

theorem inBucket_snoc (rows : List R) (r : R) :
    inBucket index i (rows ++ [r]) = inBucket index i rows ++ if index r = some i then [r] else [] := by
  rw [inBucket, List.filter_append]
  by_cases hr : index r = some i <;> simp [inBucket, hr]

theorem getElem?_fill (hi : i < n) : (fill index value n rows)[i]? = some (total value (inBucket index i rows)) := by
  induction rows using List.reverseRecOn with
  | nil => simp [fill, inBucket, hi]
  | append_singleton rows r ih =>
      rw [fill_snoc, inBucket_snoc, total_append]
      cases hr : index r with
      | none => simp [ih]
      | some j =>
          rw [Option.elim_some, List.getElem?_modify, ih]
          by_cases hj : j = i
          · subst hj
            simp
          · simp [hj]

theorem sum_modify {l : List M} {v : M} (hi : i < l.length) : (l.modify i (· + v)).sum = l.sum + v := by
  induction l generalizing i with
  | nil => cases hi
  | cons a l ih =>
      cases i with
      | zero => rw [List.modify_zero_cons, List.sum_cons, List.sum_cons, add_right_comm]
      | succ i =>
          rw [List.modify_succ_cons, List.sum_cons, List.sum_cons, ih (Nat.lt_of_succ_lt_succ hi), add_assoc]

theorem sum_fill (h : ∀ r ∈ rows, ∃ i, i < n ∧ index r = some i) : (fill index value n rows).sum = total value rows := by
  induction rows using List.reverseRecOn with
  | nil => simp [fill]
  | append_singleton rows r ih =>
      obtain ⟨i, hi, hr⟩ := h r (by simp)
      have hrest := ih fun r' hr' => h r' (List.mem_append_left _ hr')
      rw [fill_snoc, hr, Option.elim_some, total_append, ← hrest]
      rw [sum_modify (by rwa [length_fill]), total_cons, total_nil, add_zero]

end Fill

section Overwrite

variable {A : Type} {index : R → Option ℕ} {value : ℕ → R → A} {zero : A} {n i : ℕ} {rows : List R}

def overwrite (index : R → Option ℕ) (value : ℕ → R → A) (zero : A) (n : ℕ) (rows : List R) : List A :=
  rows.foldl (fun acc r => (index r).elim acc fun i => acc.set i (value i r)) (List.replicate n zero)

theorem overwrite_snoc (rows : List R) (r : R) : overwrite index value zero n (rows ++ [r]) =
    (index r).elim (overwrite index value zero n rows) fun i => (overwrite index value zero n rows).set i (value i r) := by
  rw [overwrite, List.foldl_append]
  rfl

@[simp] theorem length_overwrite : (overwrite index value zero n rows).length = n := by
  induction rows using List.reverseRecOn with
  | nil => exact List.length_replicate
  | append_singleton rows r ih =>
      rw [overwrite_snoc]
      cases index r with
      | none => exact ih
      | some i => rw [Option.elim_some, List.length_set, ih]

theorem getElem?_overwrite (hi : i < n) : (overwrite index value zero n rows)[i]? =
    some ((inBucket index i rows).getLast?.elim zero (value i)) := by
  induction rows using List.reverseRecOn with
  | nil => simp [overwrite, inBucket, hi]
  | append_singleton rows r ih =>
      rw [overwrite_snoc, inBucket_snoc]
      cases hr : index r with
      | none => simp [ih]
      | some j =>
          rw [Option.elim_some, List.getElem?_set, length_overwrite]
          by_cases hj : j = i
          · subst hj
            simp [hi]
          · simp [hj, ih]

end Overwrite

section Groups

variable [DecidableEq G] (group : R → G) (value : R → M)

/-- `GROUP BY group`: the groups of some rows, each with the sum of a column. -/
def groupSums (rows : List R) : List (G × M) :=
  (rows.map group).dedup.map fun g => (g, total value (rows.filter fun r => group r = g))

theorem sum_fibers (S : Finset G) {rows : List R} (h : ∀ r ∈ rows, group r ∈ S) :
    ∑ g ∈ S, total value (rows.filter fun r => group r = g) = total value rows := by
  induction rows with
  | nil => simp
  | cons r rows ih =>
      have hsplit : ∀ g, total value ((r :: rows).filter fun r' => group r' = g) =
          (if group r = g then value r else 0) + total value (rows.filter fun r' => group r' = g) := by
        intro g
        by_cases hr : group r = g <;> simp [hr]
      simp only [hsplit]
      rw [Finset.sum_add_distrib, ih fun r' hr' => h r' (List.mem_cons_of_mem r hr'), Finset.sum_ite_eq,
        if_pos (h r List.mem_cons_self), total_cons]

/-- The groups that satisfy something add up to the rows whose group does. -/
theorem total_groups (p : G → Bool) (rows : List R) :
    total Prod.snd ((groupSums group value rows).filter fun e => p e.1) = total value (rows.filter fun r => p (group r)) := by
  have hfilter : (groupSums group value rows).filter (fun e => p e.1) =
      ((rows.map group).dedup.filter p).map fun g => (g, total value (rows.filter fun r => group r = g)) := by
    rw [groupSums, List.filter_map]
    rfl
  have hsum : total Prod.snd ((groupSums group value rows).filter fun e => p e.1) =
      ∑ g ∈ ((rows.map group).dedup.filter p).toFinset, total value (rows.filter fun r => group r = g) := by
    rw [hfilter, total, List.map_map, List.sum_toFinset _ ((List.nodup_dedup _).filter p)]
    rfl
  have hfiber : ∀ g ∈ ((rows.map group).dedup.filter p).toFinset,
      total value (rows.filter fun r => group r = g) =
        total value ((rows.filter fun r => p (group r)).filter fun r => group r = g) := by
    intro g hg
    have hpg := (List.mem_filter.mp (List.mem_toFinset.mp hg)).2
    rw [List.filter_filter]
    congr 1
    apply List.filter_congr
    intro r _
    by_cases hr : group r = g <;> simp [hr, hpg]
  rw [hsum, Finset.sum_congr rfl hfiber]
  apply sum_fibers
  intro r hr
  obtain ⟨hmem, hpr⟩ := List.mem_filter.mp hr
  rw [List.mem_toFinset, List.mem_filter, List.mem_dedup]
  exact ⟨List.mem_map_of_mem hmem, hpr⟩

variable {group value}

theorem mem_groupSums {rows : List R} {e : G × M} :
    e ∈ groupSums group value rows ↔ e.1 ∈ rows.map group ∧ e.2 = total value (rows.filter fun r => group r = e.1) := by
  rw [groupSums, List.mem_map]
  constructor
  · rintro ⟨g, hg, rfl⟩
    exact ⟨List.mem_dedup.mp hg, rfl⟩
  · rintro ⟨hg, hm⟩
    exact ⟨e.1, List.mem_dedup.mpr hg, Prod.ext rfl hm.symm⟩

theorem keys_groupSums (rows : List R) : (groupSums group value rows).map Prod.fst = (rows.map group).dedup := by
  rw [groupSums, List.map_map]
  exact List.map_id _

theorem nodup_keys_groupSums (rows : List R) : ((groupSums group value rows).map Prod.fst).Nodup := by
  rw [keys_groupSums]
  exact List.nodup_dedup _

theorem groupSums_perm {rows rows' : List R} (h : rows.Perm rows') :
    (groupSums group value rows).Perm (groupSums group value rows') := by
  have hnodup : ∀ rows : List R, (groupSums group value rows).Nodup := fun rows => (nodup_keys_groupSums rows).of_map
  refine (List.perm_ext_iff_of_nodup (hnodup rows) (hnodup rows')).mpr fun e => ?_
  rw [mem_groupSums, mem_groupSums, (h.map group).mem_iff, total_perm (h.filter _)]

/-- Rows of two kinds with the same sums have the same groups, but for those that
sum up to nothing. -/
theorem groupSums_filter_perm {R' : Type} {group' : R' → G} {value' : R' → M} {rows : List R} {rows' : List R'} (q : M → Bool)
    (h : ∀ g, total value (rows.filter fun r => group r = g) = total value' (rows'.filter fun r => group' r = g))
    (hq : q 0 = false) :
    ((groupSums group value rows).filter fun e => q e.2).Perm ((groupSums group' value' rows').filter fun e => q e.2) := by
  have hnodup : ((groupSums group value rows).filter fun e => q e.2).Nodup := (nodup_keys_groupSums rows).of_map.filter _
  have hnodup' : ((groupSums group' value' rows').filter fun e => q e.2).Nodup := (nodup_keys_groupSums rows').of_map.filter _
  have hpresent : ∀ {S : Type} {grp : S → G} {val : S → M} {rs : List S} {g : G},
      q (total val (rs.filter fun r => grp r = g)) = true → g ∈ rs.map grp := by
    intro S grp val rs g htrue
    by_contra habsent
    have hnone : (rs.filter fun r => grp r = g) = [] := by
      apply List.filter_eq_nil_iff.mpr
      intro r hr heq
      exact habsent (List.mem_map.mpr ⟨r, hr, of_decide_eq_true heq⟩)
    rw [hnone, total_nil, hq] at htrue
    cases htrue
  refine (List.perm_ext_iff_of_nodup hnodup hnodup').mpr fun e => ?_
  rw [List.mem_filter, List.mem_filter, mem_groupSums, mem_groupSums, ← h]
  refine and_congr_left fun htrue => and_congr_left fun hm => ?_
  rw [hm] at htrue
  exact iff_of_true (hpresent htrue) (hpresent (h e.1 ▸ htrue))

theorem total_groupSums {N : Type} [AddCommMonoid N] (weigh : G → M →+ N) (p : G → Bool) (rows : List R) :
    total (fun e => weigh e.1 e.2) ((groupSums group value rows).filter fun e => p e.1) =
      total (fun r => weigh (group r) (value r)) (rows.filter fun r => p (group r)) := by
  have hweighed : (groupSums group value rows).map (fun e => (e.1, weigh e.1 e.2)) =
      groupSums group (fun r => weigh (group r) (value r)) rows := by
    rw [groupSums, groupSums, List.map_map]
    refine List.map_congr_left fun g _ => Prod.ext rfl ?_
    change weigh g (total value _) = total _ _
    rw [total, map_list_sum, List.map_map, total]
    refine congrArg List.sum (List.map_congr_left fun r hr => ?_)
    rw [Function.comp_apply, of_decide_eq_true (List.mem_filter.mp hr).2]
  rw [← total_groups group fun r => weigh (group r) (value r), ← hweighed, List.filter_map, total_map]
  rfl

end Groups

end NetWatch.Lib.Buckets
