import Mathlib.Data.List.Basic
import Mathlib.Order.Lattice

namespace NetWatch.Lib.Replacing

variable {R K V : Type} [DecidableEq K] [LinearOrder V] (key : R → K) (version : R → V)

def replace (k : K) (best : Option R) (r : R) : Option R :=
  if key r = k then
    match best with
    | none => some r
    | some b => if version b ≤ version r then some r else some b
  else best

/-- The row that a table which replaces rows of equal key keeps for `k`: the one
of the greatest version, and among those the one inserted last. -/
def kept (k : K) (rows : List R) : Option R := rows.foldl (replace key version k) none

variable {key version}

theorem foldl_mem (k : K) (rows : List R) (best : Option R) {r : R}
    (h : rows.foldl (replace key version k) best = some r) : best = some r ∨ r ∈ rows := by
  induction rows generalizing best with
  | nil => exact .inl h
  | cons s rows ih =>
      rcases ih _ h with hbest | hmem
      · unfold replace at hbest
        split_ifs at hbest with hk
        · cases best with
          | none => exact .inr (Option.some.inj hbest ▸ List.mem_cons_self)
          | some b =>
              dsimp only at hbest
              split_ifs at hbest
              · exact .inr (Option.some.inj hbest ▸ List.mem_cons_self)
              · exact .inl hbest
        · exact .inl hbest
      · exact .inr (List.mem_cons_of_mem s hmem)

theorem kept_mem {k : K} {rows : List R} {r : R} (h : kept key version k rows = some r) : r ∈ rows := by
  rcases foldl_mem k rows none h with hnone | hmem
  · cases hnone
  · exact hmem

theorem foldl_newer {k : K} {v : V} {rows : List R} {best : Option R} (hrows : ∀ r ∈ rows, version r = v)
    (hbest : ∀ b, best = some b → version b ≤ v) :
    rows.foldl (replace key version k) best = ((rows.filter fun r => key r = k).getLast?).or best := by
  induction rows generalizing best with
  | nil => simp
  | cons r rows ih =>
      have hr : version r = v := hrows r List.mem_cons_self
      have hrest : ∀ s ∈ rows, version s = v := fun s hs => hrows s (List.mem_cons_of_mem r hs)
      rw [List.foldl_cons]
      by_cases hk : key r = k
      · have hstep : replace key version k best r = some r := by
          unfold replace
          rw [if_pos hk]
          cases best with
          | none => rfl
          | some b => exact if_pos (hr ▸ hbest b rfl)
        have hnew : ∀ b, some r = some b → version b ≤ v := by
          intro b hb
          rw [← Option.some.inj hb, hr]
        rw [hstep, ih hrest hnew, List.filter_cons_of_pos (by simpa using hk), List.getLast?_cons]
        cases (rows.filter fun r => key r = k).getLast? with
        | none => rfl
        | some s => rfl
      · have hstep : replace key version k best r = best := if_neg hk
        rw [hstep, ih hrest hbest, List.filter_cons_of_neg (by simpa using hk)]

/-- A batch of rows of one version that is not below the versions before it
replaces what was kept. -/
theorem kept_append {k : K} {v : V} {rows batch : List R} (hrows : ∀ r ∈ rows, version r ≤ v)
    (hbatch : ∀ r ∈ batch, version r = v) :
    kept key version k (rows ++ batch) =
      ((batch.filter fun r => key r = k).getLast?).or (kept key version k rows) := by
  rw [kept, List.foldl_append]
  exact foldl_newer hbatch fun b hb => hrows b (kept_mem hb)

end NetWatch.Lib.Replacing
