import NetWatch.Lib.Assoc
import Mathlib.Data.List.Dedup
import Mathlib.Data.List.Induction
import Mathlib.Data.List.Perm.Subperm

namespace NetWatch.Lib.Lru

open Assoc

variable {K V : Type} [DecidableEq K]

structure Entry (V : Type) where
  v : V
  exp : ℤ

/-- A map in insertion order, the entry used last at its end. -/
abbrev Cache (K V : Type) := Dict K (Entry V)

def remove (k : K) (c : Cache K V) : Cache K V := c.filter fun j _ => j ≠ k

def toEnd (k : K) (e : Entry V) (c : Cache K V) : Cache K V := (remove k c).insert k e

def get (now : ℤ) (k : K) (c : Cache K V) : Option V × Cache K V :=
  match c.get? k with
  | none => (none, c)
  | some e => if e.exp ≤ now then (none, remove k c) else (some e.v, toEnd k e c)

def evict (max : ℕ) (c : Cache K V) : Cache K V where
  entries := c.entries.drop (c.entries.length - max)
  nodup := c.nodup.sublist ((List.drop_sublist _ _).map _)

def set (max : ℕ) (ttl now : ℤ) (k : K) (v : V) (c : Cache K V) : Cache K V := evict max (toEnd k ⟨v, now + ttl⟩ c)

inductive Op (K V : Type)
  | get (k : K) (now : ℤ)
  | set (k : K) (v : V) (now : ℤ)

def Op.now : Op K V → ℤ
  | .get _ now | .set _ _ now => now

def step (max : ℕ) (ttl : ℤ) (c : Cache K V) : Op K V → Cache K V
  | .get k now => (get now k c).2
  | .set k v now => set max ttl now k v c

def uses (c : Cache K V) : Op K V → List K
  | .get k now => if (get now k c).1.isSome then [k] else []
  | .set k _ _ => [k]

def trace (max : ℕ) (ttl : ℤ) (ops : List (Op K V)) : Cache K V × List K :=
  ops.foldl (fun s op => (step max ttl s.1 op, s.2 ++ uses s.1 op)) (.empty, [])

def run (max : ℕ) (ttl : ℤ) (ops : List (Op K V)) : Cache K V := ops.foldl (step max ttl) .empty

def since (k : K) (used : List K) : List K := used.reverse.takeWhile (· ≠ k)

def lastSet (k : K) (ops : List (Op K V)) : Option (V × ℤ) :=
  ops.reverse.findSome? fun op => match op with
    | .get _ _ => none
    | .set j v now => if j = k then some (v, now) else none

section Steps

variable {c : Cache K V} {k j : K} {e : Entry V} {now : ℤ} {max : ℕ} {ttl : ℤ} {ops : List (Op K V)} {op : Op K V}

theorem upsert_absent {W : Type} {w : W} {es : List (K × W)} (h : k ∉ es.map Prod.fst) : upsert k w es = es ++ [(k, w)] := by
  induction es with
  | nil => rfl
  | cons a es ih =>
      rw [List.map_cons, List.mem_cons, not_or] at h
      rw [upsert, if_neg (Ne.symm h.1), ih h.2, List.cons_append]

theorem get?_remove : (remove k c).get? j = some e ↔ c.get? j = some e ∧ j ≠ k := by
  rw [remove, Dict.get?_filter, Option.filter_eq_some_iff, decide_eq_true_iff]

theorem entries_toEnd (k : K) (e : Entry V) (c : Cache K V) :
    (toEnd k e c).entries = c.entries.filter (fun a => a.1 ≠ k) ++ [(k, e)] := by
  apply upsert_absent
  intro hmem
  obtain ⟨a, ha, heq⟩ := List.mem_map.mp hmem
  exact absurd heq (of_decide_eq_true (List.mem_filter.mp ha).2)

theorem get?_toEnd : (toEnd k e c).get? j = if j = k then some e else c.get? j := by
  rw [toEnd, Dict.get?_insert]
  split
  · rfl
  · rename_i hjk
    apply Option.ext
    intro e'
    rw [get?_remove]
    exact and_iff_left hjk

theorem get_cases (now : ℤ) (k : K) (c : Cache K V) : (c.get? k = none ∧ get now k c = (none, c)) ∨
    (∃ e, c.get? k = some e ∧ e.exp ≤ now ∧ get now k c = (none, remove k c)) ∨
    ∃ e, c.get? k = some e ∧ now < e.exp ∧ get now k c = (some e.v, toEnd k e c) := by
  unfold get
  cases hget : c.get? k with
  | none => exact .inl ⟨rfl, rfl⟩
  | some e =>
      by_cases hexp : e.exp ≤ now
      · exact .inr (.inl ⟨e, rfl, hexp, if_pos hexp⟩)
      · exact .inr (.inr ⟨e, rfl, Int.lt_of_not_ge hexp, if_neg hexp⟩)

theorem mem_evict (h : (evict max c).get? k = some e) : c.get? k = some e :=
  (c.mem_iff_get? k e).mp (List.mem_of_mem_drop (((evict max c).mem_iff_get? k e).mpr h))

omit [DecidableEq K] in
theorem length_evict : (evict max c).entries.length ≤ max := by
  rw [evict, List.length_drop]
  omega

theorem length_toEnd (h : c.get? k = some e) (e' : Entry V) : (toEnd k e' c).entries.length ≤ c.entries.length := by
  have hmem := (c.mem_iff_get? k e).mpr h
  have hlt : (c.entries.filter fun a => a.1 ≠ k).length < c.entries.length :=
    List.length_filter_lt_length_iff_exists.mpr ⟨(k, e), hmem, by simp⟩
  rw [entries_toEnd, List.length_append, List.length_singleton]
  exact hlt

theorem run_snoc (ops : List (Op K V)) (op : Op K V) : run max ttl (ops ++ [op]) = step max ttl (run max ttl ops) op := by
  rw [run, List.foldl_append]
  rfl

theorem trace_snoc (ops : List (Op K V)) (op : Op K V) : trace max ttl (ops ++ [op]) =
    (step max ttl (trace max ttl ops).1 op, (trace max ttl ops).2 ++ uses (trace max ttl ops).1 op) := by
  rw [trace, List.foldl_append]
  rfl

theorem trace_fst (ops : List (Op K V)) : (trace max ttl ops).1 = run max ttl ops := by
  induction ops using List.reverseRecOn with
  | nil => rfl
  | append_singleton ops op ih => rw [trace_snoc, run_snoc, ih]

theorem length_run (ops : List (Op K V)) : (run max ttl ops).entries.length ≤ max := by
  induction ops using List.reverseRecOn with
  | nil => exact Nat.zero_le max
  | append_singleton ops op ih =>
      rw [run_snoc]
      cases op with
      | set k v now => exact length_evict
      | get k now =>
          rw [step]
          obtain ⟨-, heq⟩ | ⟨e, -, -, heq⟩ | ⟨e, hget, -, heq⟩ := get_cases now k (run max ttl ops)
          · rwa [heq]
          · rw [heq]
            exact (List.length_filter_le _ _).trans ih
          · rw [heq]
            exact (length_toEnd hget e).trans ih

theorem lastSet_get (ops : List (Op K V)) (j : K) (now : ℤ) : lastSet k (ops ++ [.get j now]) = lastSet k ops := by
  rw [lastSet, List.reverse_append, List.reverse_singleton, List.singleton_append, List.findSome?_cons]
  rfl

theorem lastSet_set (ops : List (Op K V)) (j : K) (v : V) (now : ℤ) :
    lastSet k (ops ++ [.set j v now]) = if j = k then some (v, now) else lastSet k ops := by
  rw [lastSet, List.reverse_append, List.reverse_singleton, List.singleton_append, List.findSome?_cons]
  by_cases hj : j = k
  · simp only [hj, if_true]
  · simp only [hj, if_false]
    rfl

theorem run_lastSet (ops : List (Op K V)) : ∀ {k e}, (run max ttl ops).get? k = some e →
    ∃ t, lastSet k ops = some (e.v, t) ∧ e.exp = t + ttl := by
  induction ops using List.reverseRecOn with
  | nil => exact nofun
  | append_singleton ops op ih =>
      intro k e h
      rw [run_snoc] at h
      cases op with
      | get j now =>
          rw [lastSet_get]
          rw [step] at h
          obtain ⟨-, heq⟩ | ⟨e', -, -, heq⟩ | ⟨e', hget, -, heq⟩ := get_cases now j (run max ttl ops)
          · rw [heq] at h
            exact ih h
          · rw [heq] at h
            exact ih (get?_remove.mp h).1
          · rw [heq] at h
            dsimp only at h
            rw [get?_toEnd] at h
            split at h
            · rename_i hk
              subst hk
              cases h
              exact ih hget
            · exact ih h
      | set j v now =>
          have h := mem_evict h
          rw [lastSet_set]
          rw [get?_toEnd] at h
          split at h
          · rename_i hk
            cases h
            exact ⟨now, if_pos hk.symm, rfl⟩
          · rename_i hk
            rw [if_neg (Ne.symm hk)]
            exact ih h

/-- A hit gives what was stored last, less than `ttl` ago. -/
theorem get_lastSet {v : V} (h : (get now k (run max ttl ops)).1 = some v) :
    ∃ t, lastSet k ops = some (v, t) ∧ now - t < ttl := by
  obtain ⟨-, heq⟩ | ⟨e, -, -, heq⟩ | ⟨e, hget, hexp, heq⟩ := get_cases now k (run max ttl ops)
  · rw [heq] at h
    cases h
  · rw [heq] at h
    cases h
  · rw [heq] at h
    cases h
    obtain ⟨t, ht, hplus⟩ := run_lastSet ops hget
    exact ⟨t, ht, by omega⟩

/-- Of two entries the second was used after the last use of the first. -/
def Recent (c : Cache K V) (used : List K) : Prop := (c.entries.map Prod.fst).Pairwise fun k j => j ∈ since k used

theorem since_snoc (used : List K) (j : K) : since k (used ++ [j]) = if j = k then [] else j :: since k used := by
  rw [since, List.reverse_append, List.reverse_singleton, List.singleton_append, List.takeWhile_cons]
  by_cases hj : j = k
  · simp [hj]
  · simp [hj, since]

theorem Recent.sublist {c' : Cache K V} {used : List K} (h : Recent c used) (hsub : c'.entries.Sublist c.entries) : Recent c' used :=
  List.Pairwise.sublist (hsub.map Prod.fst) h

theorem Recent.toEnd {used : List K} (h : Recent c used) (k : K) (e : Entry V) : Recent (toEnd k e c) (used ++ [k]) := by
  have hother : ∀ {i}, i ∈ (c.entries.filter fun a => a.1 ≠ k).map Prod.fst → k ≠ i := by
    intro i hi
    obtain ⟨a, ha, rfl⟩ := List.mem_map.mp hi
    exact Ne.symm (of_decide_eq_true (List.mem_filter.mp ha).2)
  have hkept : Recent (remove k c) used := h.sublist List.filter_sublist
  rw [Recent, entries_toEnd, List.map_append, List.pairwise_append]
  refine ⟨hkept.imp_of_mem fun {i j} hi _ hij => ?_, List.pairwise_singleton _ _, fun i hi j hj => ?_⟩
  · rw [since_snoc, if_neg (hother hi)]
    exact List.mem_cons_of_mem k hij
  · rw [since_snoc, if_neg (hother hi), List.mem_singleton.mp hj]
    exact List.mem_cons_self

theorem recent_trace (ops : List (Op K V)) : Recent (trace max ttl ops).1 (trace max ttl ops).2 := by
  induction ops using List.reverseRecOn with
  | nil => exact .nil
  | append_singleton ops op ih =>
      rw [trace_snoc]
      cases op with
      | set k v now => exact (ih.toEnd k ⟨v, now + ttl⟩).sublist (List.drop_sublist _ _)
      | get k now =>
          rw [step, uses]
          obtain ⟨-, heq⟩ | ⟨e, -, -, heq⟩ | ⟨e, -, -, heq⟩ := get_cases now k (trace max ttl ops).1
          · rw [heq]
            simpa using ih
          · rw [heq]
            have hkept : Recent (remove k (trace max ttl ops).1) (trace max ttl ops).2 := ih.sublist List.filter_sublist
            simpa using hkept
          · rw [heq]
            exact ih.toEnd k e

theorem evicted {used : List K} (hrecent : Recent c used) (hget : c.get? k = some e) (hgone : (evict max c).get? k = none) :
    max ≤ (since k used).dedup.length := by
  have hmem := (c.mem_iff_get? k e).mpr hget
  rw [← List.take_append_drop (c.entries.length - max) c.entries, List.mem_append] at hmem
  have htake : (k, e) ∈ c.entries.take (c.entries.length - max) := by
    refine hmem.resolve_right fun hdrop => ?_
    cases (((evict max c).mem_iff_get? k e).mp hdrop).symm.trans hgone
  have hlen : (c.entries.drop (c.entries.length - max)).length = max := by
    have hpos := List.length_pos_of_mem htake
    rw [List.length_take] at hpos
    rw [List.length_drop]
    omega
  have hafter : (c.entries.drop (c.entries.length - max)).map Prod.fst ⊆ (since k used).dedup := by
    intro i hi
    rw [Recent, ← List.take_append_drop (c.entries.length - max) c.entries, List.map_append, List.pairwise_append] at hrecent
    exact List.mem_dedup.mpr (hrecent.2.2 k (List.mem_map_of_mem (f := Prod.fst) htake) i hi)
  have hnodup : ((c.entries.drop (c.entries.length - max)).map Prod.fst).Nodup :=
    c.nodup.sublist ((List.drop_sublist _ _).map _)
  have hle := (hnodup.subperm hafter).length_le
  rwa [List.length_map, hlen] at hle

/-- An entry whose time is not over goes only when `max` other keys were used after it. -/
theorem dropped (hget : (run max ttl ops).get? k = some e) (hgone : (run max ttl (ops ++ [op])).get? k = none)
    (hexp : op.now < e.exp) : max ≤ (since k (trace max ttl (ops ++ [op])).2).dedup.length := by
  rw [run_snoc] at hgone
  cases op with
  | get j now =>
      rw [step] at hgone
      obtain ⟨-, heq⟩ | ⟨e', hget', hle, heq⟩ | ⟨e', -, -, heq⟩ := get_cases now j (run max ttl ops)
      · rw [heq] at hgone
        exact absurd (hget.symm.trans hgone) nofun
      · have hkj : k ≠ j := by
          rintro rfl
          cases hget.symm.trans hget'
          exact absurd hexp (Int.not_lt.mpr hle)
        rw [heq] at hgone
        exact absurd ((get?_remove.mpr ⟨hget, hkj⟩).symm.trans hgone) nofun
      · rw [heq] at hgone
        dsimp only at hgone
        rw [get?_toEnd] at hgone
        split at hgone
        · cases hgone
        · exact absurd (hget.symm.trans hgone) nofun
  | set j v now =>
      have hrecent : Recent (toEnd j ⟨v, now + ttl⟩ (trace max ttl ops).1) ((trace max ttl ops).2 ++ [j]) := (recent_trace ops).toEnd j _
      rw [trace_fst] at hrecent
      rw [trace_snoc]
      change max ≤ (since k ((trace max ttl ops).2 ++ [j])).dedup.length
      generalize (trace max ttl ops).2 ++ [j] = used at hrecent
      rw [step, set] at hgone
      have hpresent : ∃ e', (toEnd j ⟨v, now + ttl⟩ (run max ttl ops)).get? k = some e' := by
        rw [get?_toEnd]
        by_cases hkj : k = j
        · exact ⟨_, if_pos hkj⟩
        · exact ⟨e, by rw [if_neg hkj, hget]⟩
      generalize hc : toEnd j ⟨v, now + ttl⟩ (run max ttl ops) = c at hgone hrecent hpresent
      obtain ⟨e', hpresent⟩ := hpresent
      exact evicted hrecent hpresent hgone

end Steps

end NetWatch.Lib.Lru
