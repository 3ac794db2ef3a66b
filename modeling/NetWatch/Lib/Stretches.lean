import Mathlib.Data.List.Basic
import Mathlib.Order.Nat

namespace NetWatch.Lib.Stretches

variable (flag : ℕ → Bool)

/-- A run of set flags from `i` up to `j` that goes on from no earlier one. -/
structure Run (i j : ℕ) : Prop where
  lt : i < j
  inside : ∀ k, i ≤ k → k < j → flag k = true
  before : i = 0 ∨ flag (i - 1) = false

/-- A run below `n` that no longer one contains. -/
structure Stretch (n i j : ℕ) : Prop extends Run flag i j where
  le : j ≤ n
  after : j = n ∨ flag j = false

def opened : ℕ → Option ℕ
  | 0 => none
  | n + 1 => if flag n then some ((opened n).getD n) else none

def closed : ℕ → List (ℕ × ℕ)
  | 0 => []
  | n + 1 => if flag n then closed n else closed n ++ (opened flag n).toList.map fun i => (i, n)

def stretches (n : ℕ) : List (ℕ × ℕ) := closed flag n ++ (opened flag n).toList.map fun i => (i, n)

variable {flag} {n i i' j : ℕ}

theorem Run.unique (h : Run flag i j) (h' : Run flag i' j) : i = i' := by
  have hle : ∀ {i i'}, Run flag i j → Run flag i' j → i ≤ i' := by
    intro i i' h h'
    by_contra hgt
    obtain rfl | hbefore := h.before
    · exact hgt (Nat.zero_le i')
    · have hlt := h.lt
      exact Bool.false_ne_true (hbefore.symm.trans (h'.inside (i - 1) (by omega) (by omega)))
  exact le_antisymm (hle h h') (hle h' h)

theorem opened_run (h : opened flag n = some i) : Run flag i n := by
  induction n generalizing i with
  | zero => cases h
  | succ n ih =>
      rw [opened] at h
      split at h
      · rename_i hflag
        cases hopen : opened flag n with
        | none =>
            rw [hopen] at h
            obtain rfl : n = i := Option.some.inj h
            refine ⟨Nat.lt_succ_self n, fun k hk hlt => ?_, ?_⟩
            · obtain rfl : k = n := by omega
              exact hflag
            · cases n with
              | zero => exact .inl rfl
              | succ n =>
                  refine .inr (Bool.eq_false_iff.mpr fun hprev => ?_)
                  rw [Nat.add_sub_cancel] at hprev
                  rw [opened, if_pos hprev] at hopen
                  cases hopen
        | some i' =>
            rw [hopen] at h
            obtain rfl := Option.some.inj h
            have hrun := ih hopen
            refine ⟨Nat.lt_succ_of_lt hrun.lt, fun k hk hlt => ?_, hrun.before⟩
            obtain hlt | rfl := Nat.lt_succ_iff_lt_or_eq.mp hlt
            · exact hrun.inside k hk hlt
            · exact hflag
      · cases h

theorem opened_eq_some : opened flag n = some i ↔ Run flag i n := by
  refine ⟨opened_run, fun h => ?_⟩
  cases n with
  | zero => exact absurd h.lt (Nat.not_lt_zero i)
  | succ n =>
      have hflag : flag n = true := h.inside n (Nat.le_of_lt_succ h.lt) (Nat.lt_succ_self n)
      have hopen : opened flag (n + 1) = some ((opened flag n).getD n) := by rw [opened, if_pos hflag]
      rw [hopen, (opened_run hopen).unique h]

theorem mem_opened : (i, j) ∈ (opened flag n).toList.map (fun i => (i, n)) ↔ j = n ∧ Run flag i n := by
  rw [← opened_eq_some]
  cases opened flag n <;> simp [eq_comm, and_comm]

theorem mem_closed : (i, j) ∈ closed flag n ↔ j < n ∧ flag j = false ∧ Run flag i j := by
  induction n with
  | zero => simp [closed]
  | succ n ih =>
      rw [closed]
      split
      · rename_i hflag
        rw [ih]
        refine and_congr_left fun ⟨hafter, _⟩ => ⟨Nat.lt_succ_of_lt, fun hlt => ?_⟩
        obtain hlt | rfl := Nat.lt_succ_iff_lt_or_eq.mp hlt
        · exact hlt
        · exact absurd (hafter.symm.trans hflag) Bool.false_ne_true
      · rename_i hflag
        rw [List.mem_append, ih, mem_opened]
        constructor
        · rintro (⟨hlt, hrest⟩ | ⟨rfl, hrun⟩)
          · exact ⟨Nat.lt_succ_of_lt hlt, hrest⟩
          · exact ⟨Nat.lt_succ_self j, Bool.eq_false_iff.mpr hflag, hrun⟩
        · rintro ⟨hlt, hafter, hrun⟩
          obtain hlt | rfl := Nat.lt_succ_iff_lt_or_eq.mp hlt
          · exact .inl ⟨hlt, hafter, hrun⟩
          · exact .inr ⟨rfl, hrun⟩

theorem mem_stretches : (i, j) ∈ stretches flag n ↔ Stretch flag n i j := by
  rw [stretches, List.mem_append, mem_closed, mem_opened]
  constructor
  · rintro (⟨hlt, hafter, hrun⟩ | ⟨rfl, hrun⟩)
    · exact ⟨hrun, hlt.le, .inr hafter⟩
    · exact ⟨hrun, le_rfl, .inl rfl⟩
  · rintro ⟨hrun, hle, hafter⟩
    obtain hlt | rfl := hle.lt_or_eq
    · exact .inl ⟨hlt, hafter.resolve_left hlt.ne, hrun⟩
    · exact .inr ⟨rfl, hrun⟩

theorem closed_before_run {a : ℕ × ℕ} (ha : a ∈ closed flag n) (h : Run flag i n) : a.2 < i := by
  obtain ⟨hlt, hafter, -⟩ := mem_closed.mp ha
  by_contra hle
  exact Bool.false_ne_true (hafter.symm.trans (h.inside a.2 (not_lt.mp hle) hlt))

theorem pairwise_opened (h : (closed flag n).Pairwise fun a b => a.2 < b.1) : (stretches flag n).Pairwise fun a b => a.2 < b.1 := by
  rw [stretches, List.pairwise_append]
  refine ⟨h, ?_, fun a ha b hb => ?_⟩
  · cases opened flag n with
    | none => exact .nil
    | some i => exact List.pairwise_singleton _ _
  · exact closed_before_run ha (mem_opened.mp hb).2

theorem closed_pairwise : (closed flag n).Pairwise fun a b => a.2 < b.1 := by
  induction n with
  | zero => exact .nil
  | succ n ih =>
      rw [closed]
      split
      · exact ih
      · exact pairwise_opened ih

theorem stretches_pairwise : (stretches flag n).Pairwise fun a b => a.2 < b.1 := pairwise_opened closed_pairwise

end NetWatch.Lib.Stretches
