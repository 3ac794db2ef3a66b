import Mathlib.Data.List.Nodup
import Mathlib.Algebra.BigOperators.Group.List.Basic
import Mathlib.Tactic.Abel

namespace NetWatch.Lib.Assoc

variable {K V W M : Type}

/-- A finite map as a list of entries with distinct keys. The order of the
entries stands for the unspecified iteration order of a hash map. -/
structure Dict (K V : Type) where
  entries : List (K × V)
  nodup : (entries.map Prod.fst).Nodup

def upsert [DecidableEq K] (k : K) (v : V) : List (K × V) → List (K × V)
  | [] => [(k, v)]
  | e :: es => if e.1 = k then (k, v) :: es else e :: upsert k v es

theorem keys_upsert [DecidableEq K] (k : K) (v : V) (es : List (K × V)) :
    (upsert k v es).map Prod.fst = if k ∈ es.map Prod.fst then es.map Prod.fst else es.map Prod.fst ++ [k] := by
  induction es with
  | nil => rfl
  | cons e es ih =>
      by_cases he : e.1 = k
      · simp [upsert, he]
      · have hk : k ≠ e.1 := Ne.symm he
        by_cases hm : k ∈ es.map Prod.fst
        · rw [if_pos hm] at ih
          simp [upsert, he, ih, hk, hm]
        · rw [if_neg hm] at ih
          simp [upsert, he, ih, hk, hm]

namespace Dict

def empty : Dict K V := ⟨[], List.nodup_nil⟩

def values (d : Dict K V) : List V := d.entries.map Prod.snd

def get? [DecidableEq K] (d : Dict K V) (k : K) : Option V :=
  (d.entries.find? fun e => e.1 = k).map Prod.snd

def insert [DecidableEq K] (d : Dict K V) (k : K) (v : V) : Dict K V where
  entries := upsert k v d.entries
  nodup := by
    rw [keys_upsert]
    split
    · exact d.nodup
    · rename_i hk
      exact List.nodup_append.mpr ⟨d.nodup, List.nodup_singleton k, by
        rintro a ha b hb rfl
        exact hk (List.mem_singleton.mp hb ▸ ha)⟩

def mapVals (f : K → V → W) (d : Dict K V) : Dict K W where
  entries := d.entries.map fun e => (e.1, f e.1 e.2)
  nodup := by simpa [List.map_map, Function.comp_def] using d.nodup

def filter (p : K → V → Bool) (d : Dict K V) : Dict K V where
  entries := d.entries.filter fun e => p e.1 e.2
  nodup := d.nodup.sublist (List.filter_sublist.map _)

theorem entry_inj {d : Dict K V} {a b : K × V} (ha : a ∈ d.entries) (hb : b ∈ d.entries) (h : a.1 = b.1) : a = b :=
  List.inj_on_of_nodup_map d.nodup ha hb h

variable [DecidableEq K]

theorem mem_iff_get? (d : Dict K V) (k : K) (v : V) : (k, v) ∈ d.entries ↔ d.get? k = some v := by
  rcases d with ⟨es, hn⟩
  simp only [get?]
  induction es with
  | nil => simp
  | cons e es ih =>
      rcases e with ⟨a, b⟩
      have h : a ∉ es.map Prod.fst ∧ (es.map Prod.fst).Nodup := by simpa using hn
      by_cases he : a = k
      · subst he
        rw [List.find?_cons_of_pos (by simp), List.mem_cons]
        constructor
        · rintro (hv | hm)
          · exact congrArg some (Prod.mk.inj hv).2.symm
          · exact absurd (List.mem_map_of_mem (f := Prod.fst) hm) h.1
        · intro hv
          exact .inl (Prod.ext rfl (Option.some.inj hv).symm)
      · rw [List.find?_cons_of_neg (by simpa using he), ← ih h.2, List.mem_cons]
        constructor
        · rintro (hv | hm)
          · exact absurd (Prod.mk.inj hv).1.symm he
          · exact hm
        · exact .inr

theorem mem_values (d : Dict K V) (v : V) : v ∈ d.values ↔ ∃ k, d.get? k = some v := by
  constructor
  · intro h
    obtain ⟨⟨k, w⟩, hm, rfl⟩ := List.mem_map.mp h
    exact ⟨k, (d.mem_iff_get? k w).mp hm⟩
  · rintro ⟨k, h⟩
    exact List.mem_map.mpr ⟨(k, v), (d.mem_iff_get? k v).mpr h, rfl⟩

theorem mem_keys (d : Dict K V) (k : K) : k ∈ d.entries.map Prod.fst ↔ ∃ v, d.get? k = some v := by
  rw [List.mem_map]
  constructor
  · rintro ⟨⟨k, v⟩, he, rfl⟩
    exact ⟨v, (d.mem_iff_get? k v).mp he⟩
  · rintro ⟨v, hv⟩
    exact ⟨(k, v), (d.mem_iff_get? k v).mpr hv, rfl⟩

theorem entries_perm_of_get? {d d' : Dict K V} (h : ∀ k, d.get? k = d'.get? k) : d.entries.Perm d'.entries := by
  apply (List.perm_ext_iff_of_nodup d.nodup.of_map d'.nodup.of_map).mpr
  rintro ⟨k, v⟩
  rw [mem_iff_get?, mem_iff_get?, h]

@[simp] theorem get?_empty (k : K) : (empty : Dict K V).get? k = none := rfl

theorem get?_upsert (k j : K) (v : V) (es : List (K × V)) :
    ((upsert k v es).find? fun e => e.1 = j).map Prod.snd =
      if j = k then some v else (es.find? fun e => e.1 = j).map Prod.snd := by
  induction es with
  | nil =>
      by_cases hj : j = k
      · simp [upsert, hj]
      · simp [upsert, hj, Ne.symm hj]
  | cons e es ih =>
      by_cases he : e.1 = k
      · by_cases hj : j = k
        · simp [upsert, he, hj]
        · simp [upsert, he, hj, Ne.symm hj]
      · rw [upsert, if_neg he]
        by_cases hj : e.1 = j
        · have hjk : j ≠ k := fun h => he (hj.trans h)
          simp [hj, hjk]
        · simpa [hj] using ih

@[simp] theorem get?_insert (d : Dict K V) (k j : K) (v : V) :
    (d.insert k v).get? j = if j = k then some v else d.get? j := get?_upsert k j v d.entries

@[simp] theorem get?_mapVals (f : K → V → W) (d : Dict K V) (k : K) :
    (d.mapVals f).get? k = (d.get? k).map (f k) := by
  rcases d with ⟨es, hn⟩
  simp only [get?, mapVals]
  clear hn
  induction es with
  | nil => rfl
  | cons e es ih =>
      by_cases he : e.1 = k
      · subst he; simp
      · simpa [he] using ih

@[simp] theorem get?_filter (p : K → V → Bool) (d : Dict K V) (k : K) :
    (d.filter p).get? k = (d.get? k).filter (p k) := by
  apply Option.ext
  intro v
  have hm : (d.filter p).get? k = some v ↔ (k, v) ∈ (d.filter p).entries := ((d.filter p).mem_iff_get? k v).symm
  rw [hm, Option.filter_eq_some_iff, ← d.mem_iff_get? k v]
  exact List.mem_filter

def Rel (R : V → W → Prop) (d : Dict K V) (d' : Dict K W) : Prop := ∀ k, Option.Rel R (d.get? k) (d'.get? k)

variable {R : V → W → Prop} {d : Dict K V} {d' : Dict K W} {k : K}

theorem Rel.of_some (h : d.Rel R d') {v : V} (hv : d.get? k = some v) : ∃ w, d'.get? k = some w ∧ R v w := by
  have hk := h k
  rw [hv] at hk
  cases hk' : d'.get? k with
  | none => rw [hk'] at hk; cases hk
  | some w =>
      rw [hk'] at hk
      cases hk with
      | some hr => exact ⟨w, rfl, hr⟩

theorem Rel.to_some (h : d.Rel R d') {w : W} (hw : d'.get? k = some w) : ∃ v, d.get? k = some v ∧ R v w := by
  have hk := h k
  rw [hw] at hk
  cases hk' : d.get? k with
  | none => rw [hk'] at hk; cases hk
  | some v =>
      rw [hk'] at hk
      cases hk with
      | some hr => exact ⟨v, rfl, hr⟩

theorem Rel.none_iff (h : d.Rel R d') : d.get? k = none ↔ d'.get? k = none := by
  constructor
  · intro hn
    by_contra hs
    obtain ⟨w, hw⟩ := Option.ne_none_iff_exists'.mp hs
    obtain ⟨v, hv, -⟩ := h.to_some hw
    exact absurd (hn.symm.trans hv) nofun
  · intro hn
    by_contra hs
    obtain ⟨v, hv⟩ := Option.ne_none_iff_exists'.mp hs
    obtain ⟨w, hw, -⟩ := h.of_some hv
    exact absurd (hn.symm.trans hw) nofun

theorem rel_refl {R : V → V → Prop} (hr : ∀ v, R v v) (d : Dict K V) : d.Rel R d := by
  intro k
  cases d.get? k with
  | none => exact .none
  | some v => exact .some (hr v)

theorem Rel.trans {R : V → V → Prop} {d d' d'' : Dict K V} (hr : ∀ u v w, R u v → R v w → R u w)
    (h : d.Rel R d') (h' : d'.Rel R d'') : d.Rel R d'' := by
  intro k
  cases hk : d.get? k with
  | none => rw [h'.none_iff.mp (h.none_iff.mp hk)]; exact .none
  | some u =>
      obtain ⟨v, hv, huv⟩ := h.of_some hk
      obtain ⟨w, hw, hvw⟩ := h'.of_some hv
      rw [hw]
      exact .some (hr u v w huv hvw)

theorem rel_mapVals {f : K → V → W} (hr : ∀ k v, R v (f k v)) (d : Dict K V) : d.Rel R (d.mapVals f) := by
  intro k
  rw [get?_mapVals]
  cases d.get? k with
  | none => exact .none
  | some v => exact .some (hr k v)

theorem rel_insert {R : V → V → Prop} (hr : ∀ v, R v v) {v w : V} (hv : d.get? k = some v) (hw : R v w) :
    d.Rel R (d.insert k w) := by
  intro j
  rw [get?_insert]
  by_cases hj : j = k
  · rw [if_pos hj, hj, hv]
    exact .some hw
  · rw [if_neg hj]
    exact rel_refl hr d j

end Dict

/-- An upsert exchanges the share of the replaced entry for the new one. -/
theorem sum_upsert [DecidableEq K] [AddCommMonoid M] (f : V → M) (k : K) (v : V) (es : List (K × V)) :
    ((upsert k v es).map fun e => f e.2).sum + (((es.find? fun e => e.1 = k).map fun e => f e.2).getD 0) =
      (es.map fun e => f e.2).sum + f v := by
  induction es with
  | nil => simp [upsert]
  | cons e es ih =>
      by_cases he : e.1 = k
      · simp only [upsert, he, if_true, List.map_cons, List.sum_cons, List.find?_cons, decide_true,
          Option.map_some, Option.getD_some]
        abel
      · rw [upsert, if_neg he, List.find?_cons_of_neg (by simpa using he)]
        simp only [List.map_cons, List.sum_cons, add_assoc, ih]

theorem Dict.sum_insert [DecidableEq K] [AddCommMonoid M] (f : V → M) (d : Dict K V) (k : K) (v : V) :
    ((d.insert k v).values.map f).sum + ((d.get? k).map f).getD 0 = (d.values.map f).sum + f v := by
  simpa only [Dict.values, Dict.get?, Dict.insert, List.map_map, Function.comp_def, Option.map_map] using
    sum_upsert f k v d.entries

end NetWatch.Lib.Assoc
