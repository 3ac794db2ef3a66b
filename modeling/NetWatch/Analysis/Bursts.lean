import Mathlib.Algebra.Order.Floor.Ring
import Mathlib.Algebra.Order.Field.Basic
import Mathlib.Algebra.BigOperators.Group.List.Basic
import Mathlib.Data.List.GetD
import Mathlib.Data.List.Induction
import Mathlib.Data.List.Sort
import Mathlib.Data.Rat.Floor
import Mathlib.Tactic.Linarith
import Mathlib.Tactic.Ring

namespace NetWatch.Analysis.Bursts

variable {K : Type} [Field K] [LinearOrder K] {ts : List K} {intervalMs t c : K} {i : ℕ}

/-- A gap that goes on with a burst, which is one of at most 1.5 intervals. -/
def continues (gap intervalMs : K) : Bool := gap ≤ intervalMs * (3 / 2)

def tick (ts : List K) (i : ℕ) : K := ts.getD i 0

def burstStarts (ts : List K) (intervalMs : K) : List ℕ :=
  (List.range ts.length).filter fun i => i = 0 || !continues (tick ts i - tick ts (i - 1)) intervalMs

def gapStep (ts : List K) (intervalMs : K) (s : List (Option K) × Option K) (i : ℕ) : List (Option K) × Option K :=
  if 0 < i ∧ continues (tick ts i - tick ts (i - 1)) intervalMs then (s.1 ++ [some 0], s.2)
  else (s.1 ++ [s.2.map fun start => tick ts i - start], some (tick ts i))

def burstGaps (ts : List K) (intervalMs : K) : List (Option K) :=
  ((List.range ts.length).foldl (gapStep ts intervalMs) ([], none)).1

def median (xs : List K) : K :=
  let s := xs.insertionSort (· ≤ ·)
  let m := s.length / 2
  if s.length % 2 = 1 then s.getD m 0 else (s.getD (m - 1) 0 + s.getD m 0) / 2

section Summary

variable [FloorRing K]

def round (x : K) (digits : ℕ) : K := ⌊x * 10 ^ digits + 1 / 2⌋ / 10 ^ digits

structure Periodicity (K : Type) where
  periodS : Option K
  cv : Option K
  bursts : ℕ
  score : K

def minBursts : ℕ := 6

def maxCv : K := 15 / 100

def diffs (l : List K) : List K := List.zipWith (fun t s => t - s) l.tail l

def startTimes (ts : List K) (intervalMs : K) : List K := (burstStarts ts intervalMs).map (tick ts)

/-- `sqrt` is the square root, of which nothing is used here. -/
def periodicity (sqrt : K → K) (ts : List K) (intervalMs : K) : Periodicity K :=
  let starts := startTimes ts intervalMs
  let gaps := diffs starts
  if gaps.length = 0 then ⟨none, none, starts.length, 0⟩
  else
    let periodS := round (median gaps / 1000) 3
    if gaps.length < 2 then ⟨some periodS, none, starts.length, 0⟩
    else
      let mean := gaps.sum / gaps.length
      let sd := sqrt ((gaps.map fun g => (g - mean) ^ 2).sum / gaps.length)
      let cv := round (sd / mean) 4
      let score := if minBursts ≤ starts.length ∧ cv < maxCv then round (1 - cv) 4 else 0
      ⟨some periodS, some cv, starts.length, score⟩

end Summary

section Diffs

omit [LinearOrder K]

variable {l : List K} {x : K}

theorem diffs_snoc (h : l ≠ []) (x : K) : diffs (l ++ [x]) = diffs l ++ [x - l.getLast h] := by
  induction l with
  | nil => exact absurd rfl h
  | cons a l ih =>
      cases l with
      | nil => rfl
      | cons b l =>
          have hrest := ih (List.cons_ne_nil b l)
          have hcons : ∀ l : List K, diffs (a :: b :: l) = (b - a) :: diffs (b :: l) := fun _ => rfl
          have hend : (a :: b :: l).getLast h = (b :: l).getLast (List.cons_ne_nil b l) := List.getLast_cons (List.cons_ne_nil b l)
          rw [hend, hcons]
          exact congrArg (List.cons (b - a)) hrest

theorem sum_diffs (h : l ≠ []) : (diffs l).sum = l.getLast h - l.head h := by
  induction l using List.reverseRecOn with
  | nil => exact absurd rfl h
  | append_singleton l x ih =>
      by_cases hl : l = []
      · subst hl
        exact (sub_self x).symm
      · rw [diffs_snoc hl, List.sum_append, ih hl, List.getLast_concat, List.head_append_left hl, List.sum_singleton]
        ring

theorem diffs_map_add (l : List K) (c : K) : diffs (l.map (· + c)) = diffs l := by
  rw [diffs, diffs, ← List.map_tail, List.zipWith_map]
  congr 1
  funext t s
  exact add_sub_add_right_eq_sub t s c

end Diffs

section Snoc

/-- A tick that begins a burst, by the tick before it. -/
def begins (intervalMs : K) (prev : Option K) (t : K) : Bool := prev.all fun p => !continues (t - p) intervalMs

omit [LinearOrder K] in
theorem tick_append_left (h : i < ts.length) (t : K) : tick (ts ++ [t]) i = tick ts i := by
  rw [tick, tick, List.getD_append _ _ _ _ h]

omit [LinearOrder K] in
theorem tick_length (ts : List K) (t : K) : tick (ts ++ [t]) ts.length = t := by
  rw [tick, List.getD_append_right _ _ _ _ le_rfl, Nat.sub_self]
  rfl

theorem continues_last (h : ts ≠ []) (t intervalMs : K) :
    continues (tick (ts ++ [t]) ts.length - tick (ts ++ [t]) (ts.length - 1)) intervalMs = !begins intervalMs ts.getLast? t := by
  have hpos := List.length_pos_of_ne_nil h
  rw [tick_length, tick_append_left (by omega), List.getLast?_eq_some_getLast h, begins, Option.all_some, Bool.not_not, tick,
    List.getLast_eq_getElem, List.getD_eq_getElem _ _ (by omega)]

theorem burstStarts_snoc (ts : List K) (t intervalMs : K) : burstStarts (ts ++ [t]) intervalMs =
    burstStarts ts intervalMs ++ if begins intervalMs ts.getLast? t then [ts.length] else [] := by
  rw [burstStarts, List.length_append, List.length_singleton, List.range_succ, List.filter_append]
  congr 1
  · apply List.filter_congr
    intro i hi
    have hlt := List.mem_range.mp hi
    rw [tick_append_left hlt, tick_append_left (by omega)]
  · by_cases h : ts = []
    · subst h
      rfl
    · have hpos := List.length_pos_of_ne_nil h
      rw [List.filter_singleton, continues_last h, Bool.not_not, decide_eq_false (by omega), Bool.false_or]
      cases begins intervalMs ts.getLast? t <;> rfl

def gapState (ts : List K) (intervalMs : K) : List (Option K) × Option K :=
  (List.range ts.length).foldl (gapStep ts intervalMs) ([], none)

theorem gapState_snoc (ts : List K) (t intervalMs : K) : gapState (ts ++ [t]) intervalMs =
    if begins intervalMs ts.getLast? t then
      ((gapState ts intervalMs).1 ++ [(gapState ts intervalMs).2.map fun start => t - start], some t)
    else ((gapState ts intervalMs).1 ++ [some 0], (gapState ts intervalMs).2) := by
  have hsame : (List.range ts.length).foldl (gapStep (ts ++ [t]) intervalMs) ([], none) = gapState ts intervalMs := by
    apply List.foldl_ext
    intro s i hi
    have hlt := List.mem_range.mp hi
    rw [gapStep, gapStep, tick_append_left hlt, tick_append_left (by omega)]
  rw [gapState, List.length_append, List.length_singleton, List.range_succ, List.foldl_append, hsame, List.foldl_cons,
    List.foldl_nil, gapStep, tick_length]
  by_cases h : ts = []
  · subst h
    rfl
  · have hpos := List.length_pos_of_ne_nil h
    have hlast := continues_last h t intervalMs
    rw [tick_length] at hlast
    rw [hlast]
    cases begins intervalMs ts.getLast? t with
    | true => exact if_neg fun hc => nomatch hc.2
    | false => exact if_pos ⟨hpos, rfl⟩

theorem startTimes_snoc (ts : List K) (t intervalMs : K) : startTimes (ts ++ [t]) intervalMs =
    startTimes ts intervalMs ++ if begins intervalMs ts.getLast? t then [t] else [] := by
  rw [startTimes, burstStarts_snoc, List.map_append]
  congr 1
  · apply List.map_congr_left
    intro i hi
    exact tick_append_left (List.mem_range.mp (List.mem_filter.mp hi).1) t
  · split
    · rw [List.map_singleton, tick_length]
    · rfl

theorem length_gapState (ts : List K) (intervalMs : K) : (gapState ts intervalMs).1.length = ts.length := by
  induction ts using List.reverseRecOn with
  | nil => rfl
  | append_singleton ts t ih =>
      rw [gapState_snoc, List.length_append, List.length_singleton, ← ih]
      split <;> exact List.length_append

theorem length_burstGaps (ts : List K) (intervalMs : K) : (burstGaps ts intervalMs).length = ts.length :=
  length_gapState ts intervalMs

end Snoc

section Segments

variable [IsStrictOrderedRing K]

/-- What stands at the burst starts: nothing at the first, then the gaps between them. -/
def markers : List K → List (Option K)
  | [] => []
  | l => none :: (diffs l).map some

omit [LinearOrder K] [IsStrictOrderedRing K] in
theorem markers_snoc (l : List K) (t : K) : markers (l ++ [t]) = markers l ++ [l.getLast?.map fun s => t - s] := by
  cases l with
  | nil => rfl
  | cons a l =>
      have hne := List.cons_ne_nil a l
      have hmarkers : ∀ l : List K, markers (a :: l) = none :: (diffs (a :: l)).map some := fun _ => rfl
      rw [List.cons_append, hmarkers, ← List.cons_append, diffs_snoc hne, List.map_append, hmarkers, List.getLast?_eq_some_getLast hne]
      rfl

structure Segmented (ts : List K) (intervalMs : K) : Prop where
  start : (gapState ts intervalMs).2 = (startTimes ts intervalMs).getLast?
  before : ∀ s, (gapState ts intervalMs).2 = some s → ∃ p, ts.getLast? = some p ∧ s ≤ p
  indexes : (List.range ts.length).filter (fun i => (gapState ts intervalMs).1[i]? ≠ some (some 0)) = burstStarts ts intervalMs
  gaps : (gapState ts intervalMs).1.filter (· ≠ some 0) = markers (startTimes ts intervalMs)

omit [IsStrictOrderedRing K] in
theorem indexes_snoc (gaps : List (Option K)) (g : Option K) :
    (List.range (gaps.length + 1)).filter (fun i => (gaps ++ [g])[i]? ≠ some (some 0)) =
      (List.range gaps.length).filter (fun i => gaps[i]? ≠ some (some 0)) ++ if g ≠ some 0 then [gaps.length] else [] := by
  rw [List.range_succ, List.filter_append]
  congr 1
  · apply List.filter_congr
    intro i hi
    rw [List.getElem?_append_left (List.mem_range.mp hi)]
  · by_cases hg : g = some 0 <;> simp [hg]

theorem segmented_begins (h : Segmented ts intervalMs) (hpos : 0 < intervalMs) (hbegins : begins intervalMs ts.getLast? t = true) :
    Segmented (ts ++ [t]) intervalMs := by
  have hstate := gapState_snoc ts t intervalMs
  have hstarts := startTimes_snoc ts t intervalMs
  have hindexes := burstStarts_snoc ts t intervalMs
  rw [if_pos hbegins] at hstate hstarts hindexes
  -- the way from the last start is longer than the gap from the last tick
  have hne : (gapState ts intervalMs).2.map (fun start => t - start) ≠ some 0 := by
    intro hzero
    obtain ⟨s, hs, hst⟩ := Option.map_eq_some_iff.mp hzero
    obtain ⟨p, hp, hle⟩ := h.before s hs
    rw [hp, begins, Option.all_some, continues, Bool.not_eq_true', decide_eq_false_iff_not, not_le] at hbegins
    linarith
  refine ⟨?_, ?_, ?_, ?_⟩
  · rw [hstate, hstarts, List.getLast?_concat]
  · intro s hs
    rw [hstate] at hs
    cases hs
    exact ⟨t, List.getLast?_concat, le_rfl⟩
  · have hsnoc := indexes_snoc (gapState ts intervalMs).1 ((gapState ts intervalMs).2.map fun start => t - start)
    rw [length_gapState, h.indexes, if_pos hne] at hsnoc
    rw [hstate, hindexes, List.length_append, List.length_singleton]
    exact hsnoc
  · rw [hstate, hstarts, markers_snoc, List.filter_append, h.gaps, h.start]
    rw [h.start] at hne
    rw [List.filter_singleton, decide_eq_true hne]
    rfl

omit [IsStrictOrderedRing K] in
theorem segmented_continues (h : Segmented ts intervalMs) (hle : ∀ p, ts.getLast? = some p → p ≤ t)
    (hbegins : begins intervalMs ts.getLast? t = false) : Segmented (ts ++ [t]) intervalMs := by
  have hstate := gapState_snoc ts t intervalMs
  have hstarts := startTimes_snoc ts t intervalMs
  have hindexes := burstStarts_snoc ts t intervalMs
  have hif : ¬ begins intervalMs ts.getLast? t = true := by rw [hbegins]; exact Bool.false_ne_true
  rw [if_neg hif, List.append_nil] at hstarts hindexes
  rw [if_neg hif] at hstate
  refine ⟨?_, ?_, ?_, ?_⟩
  · rw [hstate, hstarts, h.start]
  · intro s hs
    rw [hstate] at hs
    obtain ⟨p, hp, hsp⟩ := h.before s hs
    exact ⟨t, List.getLast?_concat, hsp.trans (hle p hp)⟩
  · have hsnoc := indexes_snoc (gapState ts intervalMs).1 (some 0)
    rw [length_gapState, h.indexes, if_neg (not_not.mpr rfl), List.append_nil] at hsnoc
    rw [hstate, hindexes, List.length_append, List.length_singleton]
    exact hsnoc
  · rw [hstate, hstarts, List.filter_append, h.gaps, List.filter_singleton, decide_eq_false (not_not.mpr rfl)]
    exact List.append_nil _

theorem segmented (hsorted : ts.Pairwise (· ≤ ·)) (hpos : 0 < intervalMs) : Segmented ts intervalMs := by
  induction ts using List.reverseRecOn with
  | nil => exact ⟨rfl, fun s hs => (by cases hs), rfl, rfl⟩
  | append_singleton ts t ih =>
      obtain ⟨hts, -, hlast⟩ := List.pairwise_append.mp hsorted
      cases hbegins : begins intervalMs ts.getLast? t with
      | true => exact segmented_begins (ih hts) hpos hbegins
      | false =>
          exact segmented_continues (ih hts) (fun p hp => hlast p (List.mem_of_getLast? hp) t List.mem_cons_self) hbegins

end Segments

section Bursts

def burstOf (ts : List K) (intervalMs : K) (i : ℕ) : ℕ := ((burstStarts ts intervalMs).filter fun j => j ≤ i).length

theorem filter_range (n i : ℕ) : (List.range n).filter (fun j => j ≤ i) = List.range (min n (i + 1)) := by
  induction n with
  | zero => rw [Nat.zero_min]; rfl
  | succ n ih =>
      rw [List.range_succ, List.filter_append, ih, List.filter_singleton]
      by_cases hn : n ≤ i
      · rw [decide_eq_true hn, min_eq_left (by omega), min_eq_left (by omega), List.range_succ]
        rfl
      · rw [decide_eq_false hn, min_eq_right (by omega), min_eq_right (by omega)]
        exact List.append_nil _

theorem burstOf_eq (h : i < ts.length) : burstOf ts intervalMs i =
    ((List.range (i + 1)).filter fun j => j = 0 || !continues (tick ts j - tick ts (j - 1)) intervalMs).length := by
  rw [burstOf, burstStarts, List.filter_comm, filter_range, min_eq_right h]

theorem same_burst (hi : 0 < i) (h : i < ts.length) : burstOf ts intervalMs (i - 1) = burstOf ts intervalMs i ↔
    tick ts i - tick ts (i - 1) ≤ intervalMs * (3 / 2) := by
  rw [burstOf_eq h, burstOf_eq (by omega), Nat.sub_add_cancel hi, List.range_succ, List.filter_append, List.length_append,
    List.filter_singleton, decide_eq_false hi.ne', Bool.false_or, continues]
  by_cases hle : tick ts i - tick ts (i - 1) ≤ intervalMs * (3 / 2)
  · simp [hle]
  · simp [hle]

end Bursts

section Median

variable {xs : List K} {m : K}

/-- The middle of some numbers in order, or the mean of the two middle ones. -/
def IsMedian (xs : List K) (m : K) : Prop :=
  ∃ s : List K, s.Perm xs ∧ s.Pairwise (· ≤ ·) ∧
    ((∃ k, s.length = 2 * k + 1 ∧ s[k]? = some m) ∨
      ∃ k a b, s.length = 2 * (k + 1) ∧ s[k]? = some a ∧ s[k + 1]? = some b ∧ m = (a + b) / 2)

theorem median_isMedian (hxs : xs ≠ []) : IsMedian xs (median xs) := by
  have hperm := List.perm_insertionSort (· ≤ ·) xs
  have hsorted := List.pairwise_insertionSort (· ≤ ·) xs
  have hpos := List.length_pos_of_ne_nil hxs
  rw [← hperm.length_eq] at hpos
  refine ⟨_, hperm, hsorted, ?_⟩
  unfold median
  generalize xs.insertionSort (· ≤ ·) = s at hpos
  have hat : ∀ i < s.length, s[i]? = some (s.getD i 0) := by
    intro i hi
    rw [List.getD_eq_getElem _ _ hi, List.getElem?_eq_getElem hi]
  by_cases hodd : s.length % 2 = 1
  · refine .inl ⟨s.length / 2, by omega, ?_⟩
    rw [if_pos hodd]
    exact hat _ (by omega)
  · refine .inr ⟨s.length / 2 - 1, _, _, by omega, hat _ (by omega), hat _ (by omega), ?_⟩
    have hsucc : s.length / 2 - 1 + 1 = s.length / 2 := by omega
    rw [if_neg hodd, hsucc]

end Median

section Shift

theorem begins_shift (prev : Option K) (t c : K) : begins intervalMs (prev.map (· + c)) (t + c) = begins intervalMs prev t := by
  cases prev with
  | none => rfl
  | some p => rw [Option.map_some, begins, begins, Option.all_some, Option.all_some, add_sub_add_right_eq_sub]

theorem burstStarts_shift (ts : List K) (c : K) : burstStarts (ts.map (· + c)) intervalMs = burstStarts ts intervalMs := by
  induction ts using List.reverseRecOn with
  | nil => rfl
  | append_singleton ts t ih =>
      rw [List.map_append, List.map_singleton, burstStarts_snoc, burstStarts_snoc, ih, List.getLast?_map, begins_shift, List.length_map]

theorem startTimes_shift (ts : List K) (c : K) : startTimes (ts.map (· + c)) intervalMs = (startTimes ts intervalMs).map (· + c) := by
  induction ts using List.reverseRecOn with
  | nil => rfl
  | append_singleton ts t ih =>
      rw [List.map_append, List.map_singleton, startTimes_snoc, startTimes_snoc, ih, List.getLast?_map, begins_shift, List.map_append]
      split <;> rfl

theorem gapState_shift (ts : List K) (c : K) : gapState (ts.map (· + c)) intervalMs =
    ((gapState ts intervalMs).1, (gapState ts intervalMs).2.map (· + c)) := by
  induction ts using List.reverseRecOn with
  | nil => rfl
  | append_singleton ts t ih =>
      have hgap : ∀ start : Option K, (start.map (· + c)).map (fun s => t + c - s) = start.map fun s => t - s := by
        intro start
        cases start with
        | none => rfl
        | some s => exact congrArg some (add_sub_add_right_eq_sub t s c)
      rw [List.map_append, List.map_singleton, gapState_snoc, gapState_snoc, ih, List.getLast?_map, begins_shift, hgap]
      split <;> rfl

theorem burstGaps_shift (ts : List K) (c : K) : burstGaps (ts.map (· + c)) intervalMs = burstGaps ts intervalMs := by
  have h : burstGaps (ts.map (· + c)) intervalMs = (gapState (ts.map (· + c)) intervalMs).1 := rfl
  rw [h, gapState_shift]
  rfl

theorem periodicity_shift [FloorRing K] (sqrt : K → K) (ts : List K) (c : K) :
    periodicity sqrt (ts.map (· + c)) intervalMs = periodicity sqrt ts intervalMs := by
  unfold periodicity
  dsimp only
  rw [startTimes_shift, diffs_map_add, List.length_map]

end Shift

section Agreement

variable [IsStrictOrderedRing K] [FloorRing K]

/-- The gaps of the dots and the summary speak of the same bursts. -/
theorem bursts_agree (sqrt : K → K) (hsorted : ts.Pairwise (· ≤ ·)) (hpos : 0 < intervalMs) :
    ((burstGaps ts intervalMs).length = ts.length ∧
      (List.range ts.length).filter (fun i => (burstGaps ts intervalMs)[i]? ≠ some (some 0)) = burstStarts ts intervalMs ∧
      (burstGaps ts intervalMs).filter (· ≠ some 0) = markers (startTimes ts intervalMs)) ∧
    let gaps := diffs (startTimes ts intervalMs)
    (∀ h : startTimes ts intervalMs ≠ [], gaps.sum = (startTimes ts intervalMs).getLast h - (startTimes ts intervalMs).head h) ∧
    (∀ i, 0 < i → i < ts.length → (burstOf ts intervalMs (i - 1) = burstOf ts intervalMs i ↔
      tick ts i - tick ts (i - 1) ≤ intervalMs * (3 / 2))) ∧
    (periodicity sqrt ts intervalMs).bursts = (burstStarts ts intervalMs).length ∧
    (gaps = [] → (periodicity sqrt ts intervalMs).periodS = none) ∧
    (gaps ≠ [] → ∃ m, IsMedian gaps m ∧ (periodicity sqrt ts intervalMs).periodS = some (round (m / 1000) 3)) ∧
    ∀ c, burstStarts (ts.map (· + c)) intervalMs = burstStarts ts intervalMs ∧
      burstGaps (ts.map (· + c)) intervalMs = burstGaps ts intervalMs ∧
      periodicity sqrt (ts.map (· + c)) intervalMs = periodicity sqrt ts intervalMs := by
  have h := segmented hsorted hpos
  refine ⟨⟨length_burstGaps ts intervalMs, h.indexes, h.gaps⟩, ?_⟩
  intro gaps
  refine ⟨sum_diffs, fun i => same_burst, ?_, fun hnil => ?_, fun hne => ?_, fun c => ?_⟩
  · have hlen : (startTimes ts intervalMs).length = (burstStarts ts intervalMs).length := List.length_map _
    rw [← hlen]
    unfold periodicity
    dsimp only
    split
    · rfl
    · split <;> rfl
  · unfold periodicity
    exact congrArg Periodicity.periodS (if_pos (congrArg List.length hnil))
  · refine ⟨median gaps, median_isMedian hne, ?_⟩
    unfold periodicity
    dsimp only
    rw [if_neg (List.length_eq_zero_iff.not.mpr hne)]
    split <;> rfl
  · exact ⟨burstStarts_shift ts c, burstGaps_shift ts c, periodicity_shift sqrt ts c⟩

/-- Three ticks in a burst, and two bursts after it. -/
theorem bursts_agree_sample : (periodicity id [0, 1000, 2000, 30000, 31000, 60000] (1000 : ℚ)).bursts = 3 ∧
    (burstGaps [0, 1000, 2000, 30000, 31000, 60000] (1000 : ℚ)).filter (· ≠ some 0) = [none, some 30000, some 30000] := by
  have hsorted : ([0, 1000, 2000, 30000, 31000, 60000] : List ℚ).Pairwise (· ≤ ·) := by decide +kernel
  have hpos : (0 : ℚ) < 1000 := by norm_num
  have h := bursts_agree id hsorted hpos
  exact ⟨h.2.2.2.1.trans (by decide +kernel), h.1.2.2.trans (by decide +kernel)⟩

/-- The median of two gaps is shown in whole milliseconds. -/
theorem period_rounded : ∃ (ts : List ℚ) (m : ℚ), ts.Pairwise (· ≤ ·) ∧ IsMedian (diffs (startTimes ts 1000)) m ∧
    (periodicity id ts 1000).periodS ≠ some (m / 1000) := by
  refine ⟨[0, 3000, 6001], 6001 / 2, by decide +kernel, ?_, by decide +kernel⟩
  have hgaps : diffs (startTimes [0, 3000, 6001] (1000 : ℚ)) = [3000, 3001] := by decide +kernel
  rw [hgaps]
  exact ⟨_, .refl _, by decide +kernel, .inr ⟨0, 3000, 3001, rfl, rfl, rfl, by norm_num⟩⟩

end Agreement

end NetWatch.Analysis.Bursts
