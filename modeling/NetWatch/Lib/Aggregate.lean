import Mathlib.Data.List.Dedup
import Mathlib.Data.List.MinMax
import Mathlib.Data.List.Sort

namespace NetWatch.Lib.Aggregate

variable {R K V O B α : Type} [DecidableEq K] [LinearOrder V]

section Latest

variable (version : R → V)

/-- The value that a column has in the first row of the greatest version. -/
def argMax [Inhabited α] (column : R → α) (rows : List R) : α :=
  ((rows.argmax version).map column).getD default

/-- An aggregate of a nullable column passes over the rows in which it is NULL. -/
def argMaxNullable (column : R → Option α) (rows : List R) : Option α :=
  ((rows.filter fun r => (column r).isSome).argmax version).bind column

variable {version} {rows : List R} {r t : R}

theorem argmax_split (h : rows.argmax version = some t) :
    ∃ l r, rows = l ++ t :: r ∧ (∀ a ∈ l, version a < version t) ∧ ∀ a ∈ r, version a ≤ version t := by
  induction rows generalizing t with
  | nil => cases h
  | cons a rows ih =>
      rw [List.argmax_cons] at h
      cases hc : rows.argmax version with
      | none =>
          rw [hc] at h
          cases h
          exact ⟨[], [], by rw [List.argmax_eq_none.mp hc]; rfl, nofun, nofun⟩
      | some c =>
          obtain ⟨l, r, hrows, hl, hr⟩ := ih hc
          simp only [hc] at h
          split at h
          case isTrue hlt =>
            cases h
            refine ⟨a :: l, r, by rw [hrows]; rfl, ?_, hr⟩
            intro b hb
            rcases List.mem_cons.mp hb with rfl | hb
            · exact hlt
            · exact hl b hb
          case isFalse hle =>
            cases h
            refine ⟨[], rows, rfl, nofun, fun b hb => ?_⟩
            exact (List.le_of_mem_argmax hb hc).trans (not_lt.mp hle)

theorem argmax_of_split {l r : List R} (hl : ∀ a ∈ l, version a < version t) (hr : ∀ a ∈ r, version a ≤ version t) :
    (l ++ t :: r).argmax version = some t := by
  induction l with
  | nil =>
      rw [List.nil_append, List.argmax_cons]
      cases hc : r.argmax version with
      | none => rfl
      | some c => exact if_neg (not_lt.mpr (hr c (List.argmax_mem hc)))
  | cons a l ih =>
      rw [List.cons_append, List.argmax_cons, ih fun b hb => hl b (List.mem_cons_of_mem a hb)]
      exact if_pos (hl a List.mem_cons_self)

variable (version) in
theorem exists_argmax (hr : r ∈ rows) : ∃ t, rows.argmax version = some t := by
  cases h : rows.argmax version with
  | none =>
      rw [List.argmax_eq_none.mp h] at hr
      cases hr
  | some t => exact ⟨t, rfl⟩

theorem argMax_eq [Inhabited α] {column : R → α} (h : rows.argmax version = some t) :
    argMax version column rows = column t := by
  rw [argMax, h]
  rfl

/-- The latest row decides a nullable column as well, if its value is not NULL or
the column is NULL throughout. -/
theorem argMaxNullable_eq {column : R → Option α} (h : rows.argmax version = some t)
    (hnull : column t = none → ∀ r ∈ rows, column r = none) :
    argMaxNullable version column rows = column t := by
  rw [argMaxNullable]
  cases ht : column t with
  | none =>
      have hempty : rows.filter (fun r => (column r).isSome) = [] := by
        rw [List.filter_eq_nil_iff]
        intro r hr
        simp [hnull ht r hr]
      rw [hempty]
      rfl
  | some a =>
      obtain ⟨l, r, rfl, hl, hr⟩ := argmax_split h
      rw [List.filter_append, List.filter_cons_of_pos (by simp [ht]),
        argmax_of_split (fun b hb => hl b (List.mem_of_mem_filter hb)) fun b hb => hr b (List.mem_of_mem_filter hb)]
      exact ht

theorem argMaxNullable_ne_none {column : R → Option α} (hr : r ∈ rows) (hc : column r ≠ none) :
    argMaxNullable version column rows ≠ none := by
  have hmem : r ∈ rows.filter fun r => (column r).isSome :=
    List.mem_filter.mpr ⟨hr, Option.isSome_iff_ne_none.mpr hc⟩
  obtain ⟨t, ht⟩ := exists_argmax version hmem
  rw [argMaxNullable, ht]
  exact Option.isSome_iff_ne_none.mp (List.mem_filter.mp (List.argmax_mem ht)).2

end Latest

section Merged

variable (key : R → K) (version : R → V)

def current (rows : List R) (k : K) : Option R := (rows.filter fun r => key r = k).argmax version

def Superseded (rows : List R) (r : R) : Prop := ∃ s ∈ rows, key s = key r ∧ version r < version s

inductive Drops (may : R → Prop) : List R → List R → Prop
  | nil : Drops may [] []
  | keep {r rows rows'} : Drops may rows rows' → Drops may (r :: rows) (r :: rows')
  | drop {r rows rows'} : may r → Drops may rows rows' → Drops may (r :: rows) rows'

/-- A table after merges: rows with a newer version of the same key are dropped, at
any places. -/
def Merged (rows rows' : List R) : Prop := Drops (Superseded key version rows) rows rows'

variable {key version} {rows rows' : List R} {r t : R} {k : K} {may : R → Prop}

theorem Drops.sublist (h : Drops may rows rows') : rows'.Sublist rows := by
  induction h with
  | nil => exact .slnil
  | keep _ ih => exact ih.cons_cons _
  | drop _ _ ih => exact ih.cons _

theorem Drops.filter (p : R → Bool) (h : Drops may rows rows') : Drops may (rows.filter p) (rows'.filter p) := by
  induction h with
  | nil => exact .nil
  | @keep r _ _ _ ih =>
      rw [List.filter_cons, List.filter_cons]
      split
      · exact .keep ih
      · exact ih
  | @drop r _ _ hr _ ih =>
      rw [List.filter_cons]
      split
      · exact .drop hr ih
      · exact ih

theorem Drops.split {l r : List R} (h : Drops may (l ++ t :: r) rows') (ht : ¬ may t) :
    ∃ l' r', rows' = l' ++ t :: r' ∧ l'.Sublist l ∧ r'.Sublist r := by
  induction l generalizing rows' with
  | nil =>
      cases h with
      | keep h => exact ⟨[], _, rfl, .slnil, h.sublist⟩
      | drop hmay h => exact absurd hmay ht
  | cons a l ih =>
      cases h with
      | keep h =>
          obtain ⟨l', r', rfl, hl, hr⟩ := ih h
          exact ⟨a :: l', r', rfl, hl.cons_cons a, hr⟩
      | drop hmay h =>
          obtain ⟨l', r', rfl, hl, hr⟩ := ih h
          exact ⟨l', r', rfl, hl.cons a, hr⟩

theorem current_mem (h : current key version rows k = some t) : t ∈ rows ∧ key t = k := by
  obtain ⟨hmem, hkey⟩ := List.mem_filter.mp (List.argmax_mem h)
  exact ⟨hmem, of_decide_eq_true hkey⟩

variable (key version) in
theorem exists_current (hr : r ∈ rows) : ∃ t, current key version rows (key r) = some t :=
  exists_argmax version (List.mem_filter.mpr ⟨hr, by simp⟩)

theorem current_merged (h : Merged key version rows rows') (k : K) :
    current key version rows' k = current key version rows k := by
  cases hc : current key version rows k with
  | none =>
      have hempty : rows.filter (fun r => key r = k) = [] := List.argmax_eq_none.mp hc
      have hsub := hempty ▸ h.sublist.filter fun r => key r = k
      rw [current, List.sublist_nil.mp hsub]
      rfl
  | some t =>
      obtain ⟨-, hkey⟩ := current_mem hc
      have hlast : ¬ Superseded key version rows t := by
        rintro ⟨s, hs, hks, hlt⟩
        have hle := List.le_of_mem_argmax (List.mem_filter.mpr ⟨hs, by simp [hks, hkey]⟩) hc
        exact absurd hle (not_le.mpr hlt)
      obtain ⟨l, r, hsplit, hl, hr⟩ := argmax_split hc
      obtain ⟨l', r', hrows, hl', hr'⟩ := (hsplit ▸ h.filter fun r => key r = k).split hlast
      rw [current, hrows]
      exact argmax_of_split (fun a ha => hl a (hl'.subset ha)) fun a ha => hr a (hr'.subset ha)

end Merged

section Select

/-- A query that filters rows, groups them by key, makes one row of each group,
filters these and returns the first ones in an order. -/
structure Select (R K O B : Type) where
  passes : R → Bool
  group : K → List R → O
  having : O → Bool
  order : O → B
  limit : Nat

variable (key : R → K)

def groups (q : Select R K O B) (rows : List R) : List O :=
  let passed := rows.filter q.passes
  (passed.map key).dedup.map fun k => q.group k (passed.filter fun r => key r = k)

def select [LinearOrder B] (q : Select R K O B) (rows : List R) : List O :=
  (((groups key q rows).filter q.having).insertionSort fun a b => q.order a ≤ q.order b).take q.limit

variable {key} {version : R → V} {q : Select R K O B} {out : R → O} {rows rows' : List R} {r t : R} {o : O}

/-- Rows of one key pass together, and a group is made into what its latest row
says. -/
structure Faithful (key : R → K) (version : R → V) (q : Select R K O B) (out : R → O) (rows : List R) : Prop where
  passes : ∀ r ∈ rows, ∀ s ∈ rows, key r = key s → q.passes r = q.passes s
  group : ∀ k t, current key version rows k = some t → q.group k (rows.filter fun r => key r = k) = out t

theorem Faithful.groups_eq (h : Faithful key version q out rows) : groups key q rows =
    ((rows.filter q.passes).map key).dedup.filterMap fun k => (current key version rows k).map out := by
  have hone : ∀ k ∈ ((rows.filter q.passes).map key).dedup,
      (current key version rows k).map out =
        some (q.group k ((rows.filter q.passes).filter fun r => key r = k)) := by
    intro k hk
    obtain ⟨r, hr, rfl⟩ := List.mem_map.mp (List.mem_dedup.mp hk)
    obtain ⟨hmem, hpass⟩ := List.mem_filter.mp hr
    obtain ⟨t, ht⟩ := exists_current key version hmem
    have hall : (rows.filter q.passes).filter (fun s => key s = key r) = rows.filter fun s => key s = key r := by
      rw [List.filter_filter]
      apply List.filter_congr
      intro s hs
      rw [Bool.and_eq_left_iff_imp]
      intro hkey
      rw [h.passes s hs r hmem (of_decide_eq_true hkey), hpass]
    rw [ht, hall, h.group _ t ht]
    rfl
  rw [groups, List.filterMap_congr hone, List.filterMap_eq_map']

theorem Faithful.keys_perm (h : Faithful key version q out rows) (hm : Merged key version rows rows') :
    (((rows'.filter q.passes).map key).dedup).Perm ((rows.filter q.passes).map key).dedup := by
  rw [List.perm_ext_iff_of_nodup (List.nodup_dedup _) (List.nodup_dedup _)]
  intro k
  simp only [List.mem_dedup, List.mem_map, List.mem_filter]
  constructor
  · rintro ⟨r, ⟨hr, hpass⟩, hk⟩
    exact ⟨r, ⟨hm.sublist.subset hr, hpass⟩, hk⟩
  · rintro ⟨r, ⟨hr, hpass⟩, rfl⟩
    obtain ⟨t, ht⟩ := exists_current key version hr
    obtain ⟨htmem, htkey⟩ := current_mem ht
    obtain ⟨htmem', -⟩ := current_mem ((current_merged hm _).trans ht)
    exact ⟨t, ⟨htmem', (h.passes t htmem r hr htkey).trans hpass⟩, htkey⟩

theorem mem_groups (hr : r ∈ rows) (hp : q.passes r = true) :
    q.group (key r) ((rows.filter q.passes).filter fun s => key s = key r) ∈ groups key q rows :=
  List.mem_map.mpr ⟨key r, List.mem_dedup.mpr (List.mem_map.mpr ⟨r, List.mem_filter.mpr ⟨hr, hp⟩, rfl⟩), rfl⟩

theorem Faithful.current_of_mem_groups (h : Faithful key version q out rows) (ho : o ∈ groups key q rows) :
    ∃ t, current key version rows (key t) = some t ∧ o = out t := by
  rw [h.groups_eq, List.mem_filterMap] at ho
  obtain ⟨k, -, hk⟩ := ho
  obtain ⟨t, ht, rfl⟩ := Option.map_eq_some_iff.mp hk
  obtain ⟨-, rfl⟩ := current_mem ht
  exact ⟨t, ht, rfl⟩

variable [LinearOrder B]

theorem mem_groups_of_mem_select (h : o ∈ select key q rows) : o ∈ groups key q rows ∧ q.having o = true :=
  List.mem_filter.mp ((List.mem_insertionSort _).mp (List.mem_of_mem_take h))

theorem mem_select_of_mem_groups (h : o ∈ groups key q rows) (ho : q.having o = true) (hlimit : rows.length ≤ q.limit) :
    o ∈ select key q rows := by
  rw [select, List.take_of_length_le]
  · exact (List.mem_insertionSort _).mpr (List.mem_filter.mpr ⟨h, ho⟩)
  · rw [List.length_insertionSort]
    calc ((groups key q rows).filter q.having).length
        ≤ (groups key q rows).length := List.length_filter_le _ _
      _ ≤ ((rows.filter q.passes).map key).length := by
          rw [groups, List.length_map]
          exact (List.dedup_sublist _).length_le
      _ ≤ rows.length := by
          rw [List.length_map]
          exact List.length_filter_le _ _
      _ ≤ q.limit := hlimit

theorem Faithful.select_current (h : Faithful key version q out rows) (ho : o ∈ select key q rows) :
    ∃ t, current key version rows (key t) = some t ∧ o = out t :=
  h.current_of_mem_groups (mem_groups_of_mem_select ho).1

/-- If the order tells keys apart, merges of the table cannot be seen. -/
theorem Faithful.select_merged (h : Faithful key version q out rows) (h' : Faithful key version q out rows')
    (horder : ∀ r s, q.order (out r) = q.order (out s) → key r = key s) (hm : Merged key version rows rows') :
    select key q rows' = select key q rows := by
  have : Std.Total fun a b : O => q.order a ≤ q.order b := ⟨fun a b => le_total _ _⟩
  have : IsTrans O fun a b => q.order a ≤ q.order b := ⟨fun _ _ _ => le_trans⟩
  have hperm : (groups key q rows').Perm (groups key q rows) := by
    rw [h.groups_eq, h'.groups_eq]
    simp only [current_merged hm]
    exact (h.keys_perm hm).filterMap _
  have hmem : ∀ {a : O} {xs : List O},
      a ∈ (xs.filter q.having).insertionSort (fun a b => q.order a ≤ q.order b) → a ∈ xs :=
    fun hx => List.mem_of_mem_filter ((List.mem_insertionSort _).mp hx)
  have hsorted : (((groups key q rows').filter q.having).insertionSort fun a b => q.order a ≤ q.order b) =
      ((groups key q rows).filter q.having).insertionSort fun a b => q.order a ≤ q.order b := by
    refine List.Perm.eq_of_pairwise ?_ (List.pairwise_insertionSort _ _) (List.pairwise_insertionSort _ _) ?_
    · intro a b ha hb hab hba
      obtain ⟨s, hs, rfl⟩ := h.current_of_mem_groups (hperm.subset (hmem ha))
      obtain ⟨t, ht, rfl⟩ := h.current_of_mem_groups (hmem hb)
      rw [← horder s t (le_antisymm hab hba), hs] at ht
      rw [Option.some.inj ht]
    · exact ((List.perm_insertionSort _ _).trans (hperm.filter _)).trans (List.perm_insertionSort _ _).symm
  rw [select, select, hsorted]

end Select

end NetWatch.Lib.Aggregate
