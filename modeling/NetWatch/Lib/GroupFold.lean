import NetWatch.Lib.Assoc
import NetWatch.Lib.Buckets

namespace NetWatch.Lib.GroupFold

open Assoc Buckets

variable {R K V M : Type} [DecidableEq K]

def into (key : R → K) (fresh : R → V) (add : V → R → V) (d : Dict K V) (r : R) : Dict K V :=
  d.insert (key r) (add ((d.get? (key r)).getD (fresh r)) r)

/-- Rows in groups by a key, each group folded. -/
def groupFold (key : R → K) (fresh : R → V) (add : V → R → V) (rows : List R) : Dict K V :=
  rows.foldl (into key fresh add) .empty

def ofKey (key : R → K) (k : K) (rows : List R) : List R := rows.filter fun r => key r = k

def ofKeys (key : R → K) (ks : List K) (rows : List R) : List R := rows.filter fun r => key r ∈ ks

def collect (fresh : R → V) (add : V → R → V) : List R → Option V
  | [] => none
  | r :: rows => some ((r :: rows).foldl add (fresh r))

section Groups

variable {key : R → K} {fresh : R → V} {add : V → R → V} {rows rows' : List R} {k : K} {v : V}

theorem groupFold_snoc (key : R → K) (fresh : R → V) (add : V → R → V) (rows : List R) (r : R) :
    groupFold key fresh add (rows ++ [r]) = into key fresh add (groupFold key fresh add rows) r := by
  rw [groupFold, List.foldl_append]
  rfl

theorem ofKey_append (rows rows' : List R) : ofKey key k (rows ++ rows') = ofKey key k rows ++ ofKey key k rows' :=
  List.filter_append ..

theorem mem_ofKey {r : R} : r ∈ ofKey key k rows ↔ r ∈ rows ∧ key r = k := by
  rw [ofKey, List.mem_filter, decide_eq_true_iff]

theorem mem_ofKeys {ks : List K} {r : R} : r ∈ ofKeys key ks rows ↔ r ∈ rows ∧ key r ∈ ks := by
  rw [ofKeys, List.mem_filter, decide_eq_true_iff]

theorem ofKey_perm (h : rows.Perm rows') : (ofKey key k rows).Perm (ofKey key k rows') := h.filter _

theorem ofKey_ne_nil : ofKey key k rows ≠ [] ↔ k ∈ rows.map key := by
  constructor
  · intro h
    obtain ⟨r, hr⟩ := List.exists_mem_of_ne_nil _ h
    exact List.mem_map.mpr ⟨r, mem_ofKey.mp hr⟩
  · intro h
    obtain ⟨r, hr, hk⟩ := List.mem_map.mp h
    exact List.ne_nil_of_mem (mem_ofKey.mpr ⟨hr, hk⟩)

theorem collect_snoc (rows : List R) (r : R) :
    collect fresh add (rows ++ [r]) = some (add ((collect fresh add rows).getD (fresh r)) r) := by
  cases rows with
  | nil => rfl
  | cons r' rows =>
      rw [List.cons_append, collect, ← List.cons_append, List.foldl_append]
      rfl

/-- Each key has what its own rows give. -/
theorem get?_groupFold (k : K) : (groupFold key fresh add rows).get? k = collect fresh add (ofKey key k rows) := by
  induction rows using List.reverseRecOn with
  | nil => rfl
  | append_singleton rows r ih =>
      rw [groupFold_snoc, into, Dict.get?_insert, ofKey_append]
      by_cases hk : k = key r
      · subst hk
        have hone : ofKey key (key r) [r] = [r] := by simp [ofKey]
        rw [if_pos rfl, hone, collect_snoc, ih]
      · have hnone : ofKey key k [r] = [] := by simp [ofKey, Ne.symm hk]
        rw [if_neg hk, hnone, List.append_nil, ih]

theorem collect_const {init : V} : collect (fun _ => init) add rows = if rows = [] then none else some (rows.foldl add init) := by
  cases rows with
  | nil => rfl
  | cons r rows => rfl

theorem collect_isSome (fresh : R → V) (add : V → R → V) (rows : List R) : (collect fresh add rows).isSome ↔ rows ≠ [] := by
  cases rows with
  | nil => exact iff_of_false nofun fun h => h rfl
  | cons r rows => exact iff_of_true rfl (List.cons_ne_nil _ _)

theorem mem_keys_groupFold : k ∈ (groupFold key fresh add rows).entries.map Prod.fst ↔ k ∈ rows.map key := by
  have hsome := collect_isSome fresh add (ofKey key k rows)
  rw [Dict.mem_keys, ← ofKey_ne_nil, ← hsome, Option.isSome_iff_exists, get?_groupFold]

theorem keys_groupFold_perm (rows : List R) :
    ((groupFold key fresh add rows).entries.map Prod.fst).Perm (rows.map key).dedup := by
  apply (List.perm_ext_iff_of_nodup (groupFold key fresh add rows).nodup (List.nodup_dedup _)).mpr
  intro k
  rw [mem_keys_groupFold, List.mem_dedup]

theorem values_map {W : Type} (d : Dict K V) (f : V → W) (g : K → W) (h : ∀ k v, d.get? k = some v → f v = g k) :
    d.values.map f = (d.entries.map Prod.fst).map g := by
  rw [Dict.values, List.map_map, List.map_map]
  apply List.map_congr_left
  intro e he
  exact h e.1 e.2 ((d.mem_iff_get? e.1 e.2).mp he)

theorem values_perm {W : Type} (f : V → W) (g : K → W)
    (h : ∀ k v, (groupFold key fresh add rows).get? k = some v → f v = g k) :
    ((groupFold key fresh add rows).values.map f).Perm ((rows.map key).dedup.map g) := by
  rw [values_map _ f g h]
  exact (keys_groupFold_perm rows).map g

theorem entries_perm {d : Dict K V} {g : K → V} (h : ∀ k, d.get? k = if ofKey key k rows = [] then none else some (g k)) :
    d.entries.Perm ((rows.map key).dedup.map fun k => (k, g k)) := by
  have hkeys : (d.entries.map Prod.fst).Perm (rows.map key).dedup := by
    apply (List.perm_ext_iff_of_nodup d.nodup (List.nodup_dedup _)).mpr
    intro k
    rw [Dict.mem_keys, List.mem_dedup, ← ofKey_ne_nil, h]
    constructor
    · rintro ⟨v, hv⟩
      exact (Option.ite_none_left_eq_some.mp hv).1
    · intro hk
      exact ⟨g k, if_neg hk⟩
  have hentries : d.entries = (d.entries.map Prod.fst).map fun k => (k, g k) := by
    rw [List.map_map]
    refine (List.map_id d.entries).symm.trans (List.map_congr_left fun e he => Prod.ext rfl ?_)
    have hv := (d.mem_iff_get? e.1 e.2).mp he
    rw [h] at hv
    exact (Option.some.inj (Option.ite_none_left_eq_some.mp hv).2).symm
  rw [hentries]
  exact hkeys.map _

theorem groups_perm {ks : List K} (hks : ks.Nodup) (rows : List R) : (ks.flatMap fun k => ofKey key k rows).Perm (ofKeys key ks rows) := by
  induction ks with
  | nil => exact .of_eq (List.filter_eq_nil_iff.mpr fun r _ => by simp).symm
  | cons k ks ih =>
      obtain ⟨hk, hks⟩ := List.nodup_cons.mp hks
      have hfirst : (ofKeys key (k :: ks) rows).filter (fun r => key r = k) = ofKey key k rows := by
        rw [ofKeys, List.filter_filter]
        apply List.filter_congr
        intro r _
        by_cases hr : key r = k <;> simp [hr]
      have hrest : (ofKeys key (k :: ks) rows).filter (fun r => ! decide (key r = k)) = ofKeys key ks rows := by
        rw [ofKeys, List.filter_filter]
        apply List.filter_congr
        intro r _
        by_cases hr : key r = k
        · simp [hr, hk]
        · simp [hr]
      have hsplit := List.filter_append_perm (fun r => decide (key r = k)) (ofKeys key (k :: ks) rows)
      rw [hfirst, hrest] at hsplit
      rw [List.flatMap_cons]
      exact ((ih hks).append_left _).trans hsplit

theorem ofKeys_eq_self {ks : List K} (h : ∀ r ∈ rows, key r ∈ ks) : ofKeys key ks rows = rows := by
  apply List.filter_eq_self.mpr
  intro r hr
  exact decide_eq_true (h r hr)

theorem ofKeys_all (rows : List R) : ofKeys key (rows.map key).dedup rows = rows :=
  ofKeys_eq_self fun _ hr => List.mem_dedup.mpr (List.mem_map_of_mem hr)

theorem get?_groupFold_first {A : Type} {attr : V → A} {r : R} {l : List R} (hadd : ∀ v r, attr (add v r) = attr v)
    (hrows : ofKey key k rows = r :: l) : ∃ v, (groupFold key fresh add rows).get? k = some v ∧ attr v = attr (fresh r) := by
  have hfold : ∀ (l : List R) (w : V), attr (l.foldl add w) = attr w := by
    intro l
    induction l with
    | nil => exact fun _ => rfl
    | cons r l ih => exact fun w => (ih _).trans (hadd w r)
  rw [get?_groupFold, hrows]
  exact ⟨_, rfl, hfold _ _⟩

theorem get?_groupFold_fresh {A : Type} {attr : V → A} (hadd : ∀ v r, attr (add v r) = attr v)
    (h : (groupFold key fresh add rows).get? k = some v) : ∃ r ∈ rows, key r = k ∧ attr v = attr (fresh r) := by
  cases hrows : ofKey key k rows with
  | nil =>
      rw [get?_groupFold, hrows] at h
      cases h
  | cons r l =>
      obtain ⟨w, hw, hattr⟩ : ∃ w, (groupFold key fresh add rows).get? k = some w ∧ attr w = attr (fresh r) :=
        get?_groupFold_first hadd hrows
      have hmem : r ∈ ofKey key k rows := by
        rw [hrows]
        exact List.mem_cons_self
      obtain ⟨hr, hk⟩ := mem_ofKey.mp hmem
      cases h.symm.trans hw
      exact ⟨r, hr, hk, hattr⟩

theorem get?_groupFold_total [AddCommMonoid M] {val : V → M} {value : R → M} (hfresh : ∀ r ∈ rows, val (fresh r) = 0)
    (hadd : ∀ v r, val (add v r) = val v + value r) (h : (groupFold key fresh add rows).get? k = some v) :
    val v = total value (ofKey key k rows) := by
  rw [get?_groupFold] at h
  have hfold : ∀ (l : List R) (w : V), val (l.foldl add w) = val w + total value l := by
    intro l
    induction l with
    | nil => exact fun w => (add_zero (val w)).symm
    | cons r l ih =>
        intro w
        rw [List.foldl_cons, ih, hadd, total_cons, add_assoc]
  cases hrows : ofKey key k rows with
  | nil =>
      rw [hrows] at h
      cases h
  | cons r l =>
      have hmem : r ∈ ofKey key k rows := by
        rw [hrows]
        exact List.mem_cons_self
      rw [hrows] at h
      rw [← Option.some.inj h, hfold, hfresh r (mem_ofKey.mp hmem).1, zero_add]

/-- The order of the rows does not matter when those of one key start alike and are added in any order. -/
theorem get?_groupFold_perm (h : rows.Perm rows') (hfresh : ∀ r ∈ rows, ∀ r' ∈ rows, key r = key r' → fresh r = fresh r')
    (hcomm : ∀ v r r', add (add v r) r' = add (add v r') r) (k : K) :
    (groupFold key fresh add rows).get? k = (groupFold key fresh add rows').get? k := by
  rw [get?_groupFold, get?_groupFold]
  have hperm : (ofKey key k rows).Perm (ofKey key k rows') := ofKey_perm h
  have hmem : ∀ r ∈ ofKey key k rows, r ∈ rows ∧ key r = k := fun r hr => mem_ofKey.mp hr
  generalize ofKey key k rows = l at hperm hmem
  generalize ofKey key k rows' = l' at hperm
  cases l with
  | nil => rw [hperm.nil_eq]
  | cons r l =>
      cases l' with
      | nil => cases hperm.eq_nil
      | cons r' l' =>
          obtain ⟨hr, hk⟩ := hmem r List.mem_cons_self
          obtain ⟨hr', hk'⟩ := hmem r' (hperm.mem_iff.mpr List.mem_cons_self)
          rw [collect, collect, hfresh r hr r' hr' (hk.trans hk'.symm)]
          exact congrArg some (hperm.foldl_eq' (fun r _ r' _ v => hcomm v r r') _)

end Groups

section Sums

variable [AddCommMonoid M] {key : R → K} {value : R → M} {rows : List R}

theorem sum_some_keys {ks : List K} (hks : ks.Nodup) (rows : List R) :
    (ks.map fun k => total value (ofKey key k rows)).sum = total value (ofKeys key ks rows) := by
  have hfiber : ∀ k ∈ ks.toFinset, total value (ofKey key k rows) =
      total value ((ofKeys key ks rows).filter fun r => key r = k) := by
    intro k hk
    rw [ofKeys, List.filter_filter]
    congr 1
    apply List.filter_congr
    intro r _
    by_cases hr : key r = k <;> simp [hr, List.mem_toFinset.mp hk]
  rw [← List.sum_toFinset _ hks, Finset.sum_congr rfl hfiber]
  apply sum_fibers
  intro r hr
  exact List.mem_toFinset.mpr (mem_ofKeys.mp hr).2

theorem sum_keys (rows : List R) :
    ((rows.map key).dedup.map fun k => total value (ofKey key k rows)).sum = total value rows := by
  rw [sum_some_keys (List.nodup_dedup _), ofKeys_all]

theorem total_ofKey_nodup (h : (rows.map key).Nodup) (k : K) (g : K → M) (hg : ∀ r ∈ rows, value r = g (key r)) :
    total value (ofKey key k rows) = if k ∈ rows.map key then g k else 0 := by
  induction rows with
  | nil => rfl
  | cons r rows ih =>
      obtain ⟨hr, hrows⟩ := List.nodup_cons.mp h
      have hrest := ih hrows fun r' hr' => hg r' (List.mem_cons_of_mem r hr')
      by_cases hk : key r = k
      · subst hk
        rw [if_neg hr] at hrest
        have hone : ofKey key (key r) (r :: rows) = r :: ofKey key (key r) rows := List.filter_cons_of_pos (decide_eq_true rfl)
        rw [hone, total_cons, hrest, add_zero, hg r List.mem_cons_self]
        exact (if_pos List.mem_cons_self).symm
      · have hnone : ofKey key k (r :: rows) = ofKey key k rows := List.filter_cons_of_neg (by simpa using hk)
        have hmem : k ∈ (r :: rows).map key ↔ k ∈ rows.map key := by
          rw [List.map_cons, List.mem_cons]
          exact or_iff_right (Ne.symm hk)
        rw [hnone, hrest]
        exact (if_congr hmem rfl rfl).symm

theorem foldl_add (rows : List R) (m : M) : rows.foldl (fun m r => m + value r) m = m + total value rows := by
  induction rows generalizing m with
  | nil => exact (add_zero m).symm
  | cons r rows ih => rw [List.foldl_cons, ih, total_cons, add_assoc]

def sumBy (key : R → K) (value : R → M) (rows : List R) : Dict K M := groupFold key (fun _ => 0) (fun m r => m + value r) rows

theorem get?_sumBy (k : K) :
    (sumBy key value rows).get? k = if ofKey key k rows = [] then none else some (total value (ofKey key k rows)) := by
  rw [sumBy, get?_groupFold, collect_const, foldl_add, zero_add]

end Sums

section Values

variable [AddCommMonoid M] {key : R → K} {value : R → M} {rows : List R} {d : Dict K V} {val : V → M}

theorem total_values_filter {q : V → Bool} {q' : R → Bool} (hkeys : ∀ k, k ∈ d.entries.map Prod.fst ↔ k ∈ rows.map key)
    (hval : ∀ k v, d.get? k = some v → val v = total value (ofKey key k rows))
    (hq : ∀ r ∈ rows, ∀ v, d.get? (key r) = some v → q v = q' r) :
    total val (d.values.filter q) = total value (rows.filter q') := by
  have hgroup : ∀ e ∈ d.entries.filter fun e => q e.2, val e.2 = total value (ofKey key e.1 rows) := by
    intro e he
    exact hval e.1 e.2 ((d.mem_iff_get? _ _).mp (List.mem_of_mem_filter he))
  have hrows : rows.filter q' = ofKeys key ((d.entries.filter fun e => q e.2).map Prod.fst) rows := by
    apply List.filter_congr
    intro r hr
    obtain ⟨v, hv⟩ := (d.mem_keys (key r)).mp ((hkeys _).mpr (List.mem_map_of_mem hr))
    rw [← hq r hr v hv, Bool.eq_iff_iff, decide_eq_true_iff, List.mem_map]
    constructor
    · intro hqv
      exact ⟨(key r, v), List.mem_filter.mpr ⟨(d.mem_iff_get? _ _).mpr hv, hqv⟩, rfl⟩
    · rintro ⟨e, he, hk⟩
      obtain ⟨he, hqe⟩ := List.mem_filter.mp he
      have hget := (d.mem_iff_get? e.1 e.2).mp he
      rw [hk, hv] at hget
      rwa [Option.some.inj hget]
  have hnodup : ((d.entries.filter fun e => q e.2).map Prod.fst).Nodup := d.nodup.sublist (List.filter_sublist.map _)
  rw [hrows, ← sum_some_keys hnodup rows, List.map_map, Dict.values, List.filter_map, total_map]
  exact congrArg List.sum (List.map_congr_left hgroup)

end Values

end NetWatch.Lib.GroupFold
