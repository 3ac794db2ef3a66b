import NetWatch.Lib.Lru

namespace NetWatch.Lib.Recent

open Assoc

variable {K V : Type} [DecidableEq K]

def dropFirst (d : Dict K V) : Dict K V where
  entries := d.entries.tail
  nodup := d.nodup.sublist ((List.tail_sublist _).map _)

/-- Stores a value at the end of a map, which then holds at most `max` entries. -/
def put (max : ℕ) (k : K) (v : V) (d : Dict K V) : Dict K V :=
  let set := (d.filter fun j _ => j ≠ k).insert k v
  if max < set.entries.length then dropFirst set else set

def puts (max : ℕ) (ps : List (K × V)) : Dict K V := ps.foldl (fun d p => put max p.1 p.2 d) .empty

def latest : List (K × V) → List (K × V)
  | [] => []
  | p :: ps => if p.1 ∈ ps.map Prod.fst then latest ps else p :: latest ps

def others (k : K) (es : List (K × V)) : List (K × V) := es.filter fun e => e.1 ≠ k

variable {k : K} {v : V} {es ps : List (K × V)} {p : K × V} {max : ℕ}

theorem others_absent (h : k ∉ es.map Prod.fst) : others k es = es := by
  apply List.filter_eq_self.mpr
  intro e he
  apply decide_eq_true
  rintro rfl
  exact h (List.mem_map_of_mem he)

theorem length_others (hn : (es.map Prod.fst).Nodup) (h : k ∈ es.map Prod.fst) : (others k es).length + 1 = es.length := by
  induction es with
  | nil => simp at h
  | cons e es ih =>
      rw [List.map_cons, List.nodup_cons] at hn
      by_cases he : e.1 = k
      · subst he
        have habsent := others_absent hn.1
        simp only [others, List.filter_cons, ne_eq, not_true_eq_false, decide_false, Bool.false_eq_true, if_false,
          List.length_cons] at habsent ⊢
        rw [habsent]
      · have hmem : k ∈ es.map Prod.fst := by
          rw [List.map_cons, List.mem_cons] at h
          exact h.resolve_left (Ne.symm he)
        have hlen := ih hn.2 hmem
        simp only [others, List.filter_cons, ne_eq, he, not_false_eq_true, decide_true, if_true, List.length_cons] at hlen ⊢
        omega

theorem mem_latest (h : p ∈ latest ps) : p ∈ ps := by
  induction ps with
  | nil => exact h
  | cons q ps ih =>
      rw [latest] at h
      split at h
      · exact List.mem_cons_of_mem q (ih h)
      · obtain rfl | h := List.mem_cons.mp h
        · exact List.mem_cons_self
        · exact List.mem_cons_of_mem q (ih h)

theorem nodup_latest (ps : List (K × V)) : ((latest ps).map Prod.fst).Nodup := by
  induction ps with
  | nil => exact .nil
  | cons q ps ih =>
      rw [latest]
      split
      · exact ih
      · rename_i hq
        rw [List.map_cons, List.nodup_cons]
        refine ⟨fun hmem => hq ?_, ih⟩
        obtain ⟨p, hp, heq⟩ := List.mem_map.mp hmem
        exact heq ▸ List.mem_map_of_mem (mem_latest hp)

theorem latest_snoc (ps : List (K × V)) (p : K × V) : latest (ps ++ [p]) = others p.1 (latest ps) ++ [p] := by
  induction ps with
  | nil => simp [latest, others]
  | cons q ps ih =>
      rw [List.cons_append, latest, latest, ih]
      by_cases hq : q.1 ∈ ps.map Prod.fst
      · rw [if_pos hq, if_pos]
        simp only [List.map_append, List.mem_append]
        exact .inl hq
      · rw [if_neg hq]
        by_cases hp : q.1 = p.1
        · rw [if_pos]
          · simp [others, hp]
          · simp [hp]
        · rw [if_neg]
          · simp [others, hp]
          · simp only [List.map_append, List.mem_append, List.map_cons, List.map_nil, List.mem_singleton]
            rintro (h | h)
            · exact hq h
            · exact hp h

theorem entries_put (max : ℕ) (k : K) (v : V) (d : Dict K V) : (put max k v d).entries =
    if max < (others k d.entries).length + 1 then (others k d.entries ++ [(k, v)]).tail else others k d.entries ++ [(k, v)] := by
  have hset : ((d.filter fun j _ => j ≠ k).insert k v).entries = others k d.entries ++ [(k, v)] := by
    apply Lru.upsert_absent
    intro hmem
    obtain ⟨a, ha, heq⟩ := List.mem_map.mp hmem
    exact absurd heq (of_decide_eq_true (List.mem_filter.mp ha).2)
  have hlen := congrArg List.length hset
  rw [List.length_append, List.length_singleton] at hlen
  rw [put]
  split
  · rename_i h
    rw [hlen] at h
    rw [if_pos h]
    exact congrArg List.tail hset
  · rename_i h
    rw [hlen] at h
    rw [if_neg h, hset]

theorem put_suffix {d : Dict K V} {l : List (K × V)} (hn : (l.map Prod.fst).Nodup) (hd : d.entries = l.drop (l.length - max)) :
    (put max k v d).entries = (others k l ++ [(k, v)]).drop ((others k l ++ [(k, v)]).length - max) := by
  have hl : l = l.take (l.length - max) ++ d.entries := by rw [hd, List.take_append_drop]
  have hlen : (l.take (l.length - max)).length = l.length - max := by
    rw [List.length_take]
    omega
  generalize l.take (l.length - max) = front at hl hlen
  rw [entries_put]
  generalize d.entries = es at hl
  subst hl
  rw [List.map_append, List.nodup_append] at hn
  rw [List.length_append] at hlen
  have hsplit : others k (front ++ es) = others k front ++ others k es := List.filter_append _ _
  have hdrop : ∀ m, (others k front ++ (others k es ++ [(k, v)])).drop ((others k front).length + m) =
      (others k es ++ [(k, v)]).drop m := by
    intro m
    exact List.drop_length_add_append m
  rw [hsplit, List.append_assoc, List.length_append, List.length_append, List.length_singleton]
  by_cases hk : k ∈ es.map Prod.fst
  · have hfront : others k front = front := others_absent fun hmem => hn.2.2 k hmem k hk rfl
    have hone := length_others hn.2.1 hk
    have hzero := hdrop 0
    rw [if_neg (by omega), show (others k front).length + ((others k es).length + 1) - max = (others k front).length + 0 by
      rw [hfront]
      omega]
    exact hzero.symm
  · rw [others_absent hk] at hdrop ⊢
    by_cases hfull : max < es.length + 1
    · have hone := hdrop 1
      rw [if_pos hfull, show (others k front).length + (es.length + 1) - max = (others k front).length + 1 by omega]
      rw [List.drop_one] at hone
      exact hone.symm
    · have hnil : front = [] := by
        apply List.eq_nil_of_length_eq_zero
        omega
      subst hnil
      rw [if_neg hfull]
      simp only [others, List.filter_nil, List.length_nil, List.nil_append, Nat.zero_add]
      rw [show es.length + 1 - max = 0 by omega, List.drop_zero]

/-- The map holds the last `max` keys that were put, each with what was put last. -/
theorem entries_puts (max : ℕ) (ps : List (K × V)) :
    (puts max ps).entries = (latest ps).drop ((latest ps).length - max) := by
  induction ps using List.reverseRecOn with
  | nil => simp [puts, latest, Dict.empty]
  | append_singleton ps p ih =>
      rw [puts, List.foldl_append, List.foldl_cons, List.foldl_nil, latest_snoc]
      exact put_suffix (nodup_latest ps) ih

theorem puts_snoc (ps : List (K × V)) (p : K × V) : puts max (ps ++ [p]) = put max p.1 p.2 (puts max ps) := by
  rw [puts, List.foldl_append]
  rfl

theorem mem_puts (h : (puts max ps).get? k = some v) : (k, v) ∈ ps := by
  have hmem := ((puts max ps).mem_iff_get? k v).mpr h
  rw [entries_puts] at hmem
  exact mem_latest (List.mem_of_mem_drop hmem)

end NetWatch.Lib.Recent
