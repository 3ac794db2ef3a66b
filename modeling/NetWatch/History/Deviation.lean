import NetWatch.History.Ghost
import NetWatch.Lib.Stretches

namespace NetWatch.History.Deviation

open Lib Lib.Assoc Lib.JsNumber Lib.JsValue Lib.Stretches Ranges Throughput Grid Ghost

inductive Stack
  | tx
  | rx
  | sum
  deriving DecidableEq

abbrev Point := ℤ × Option ℚ

def stacksOf : ThroughputDir → List Stack
  | .both => [.tx, .rx]
  | .total => [.sum]
  | .tx => [.tx]
  | .rx => [.rx]

/-- Below zero, but for zero. -/
def mirrored (v : ℚ) : ℚ := if v ≠ 0 then -v else 0

section Totals

variable {L : Type} (res : ThroughputResponse L) (dir : ThroughputDir)

def values (key : Units) : Stack → List ℚ
  | .tx => (res.tx.get? key).getD []
  | .rx => if dir = .both then ((res.rx.get? key).getD []).map mirrored else (res.rx.get? key).getD []
  | .sum => ((res.tx.get? key).getD []).zipIdx.map fun v => Binary64.add v.1 ((((res.rx.get? key).getD [])[v.2]?).getD 0)

def totalAt (s : Stack) (i : ℕ) : ℚ :=
  round3 (res.keys.foldl (fun sum key => Binary64.add sum (((values res dir key s)[i]?).getD 0)) 0)

/-- The totals of `buildSeries`. Under `__proto__` it finds the prototype, which
has no `map`, and throws. -/
def totals : Option (Stack → List Point) :=
  if units "__proto__" ∈ res.keys ∧ (dir = .both ∨ dir = .total) then none
  else some fun s => if s ∈ stacksOf dir then res.t.zipIdx.map fun e => (e.1, some (totalAt res dir s e.2)) else []

end Totals

section Runs

variable (c : ThroughputCompare)

def ghostIn (i : ℕ) : Stack → Option ℚ
  | .tx => (c.tx[i]?).bind id
  | .rx => (c.rx[i]?).bind id
  | .sum => ((c.tx[i]?).bind id).bind fun tx => ((c.rx[i]?).bind id).map fun rx => Binary64.add tx rx

def ghostAt (stack : Stack) (ts : ℤ) : Option ℚ :=
  c.t.head?.bind fun first =>
    let i := floorDiv (fl (ts - first)) (fl (c.step * 1000))
    if 0 ≤ i ∧ i < c.t.length then ghostIn c i.toNat stack else none

def deviationFactor : ℚ := 2

def deviationBuckets : ℤ := 3

def current (lines : List (List Point)) (i : ℕ) : ℚ :=
  lines.foldl (fun cur l => Binary64.add cur |((l[i]?).bind Prod.snd).getD 0|) 0

def addGhost (ghost g : Option ℚ) : Option ℚ := ghost.bind fun ghost => g.map fun g => Binary64.add ghost g

def ghostSum (stackList : List Stack) (ghost : Stack → Option ℚ) : Option ℚ := stackList.foldl (fun g s => addGhost g (ghost s)) (some 0)

def exceeds (cur : ℚ) (ghost : Option ℚ) : Bool :=
  match ghost with
  | none => false
  | some g => 0 < cur && Binary64.mul deviationFactor g < cur

/-- The run that goes on, and those that were long enough. -/
structure Areas where
  start : Option ℤ
  out : List (ℤ × ℤ)

def Areas.close (minSpan : ℤ) (a : Areas) (stop : ℤ) : Areas where
  start := none
  out := a.start.elim a.out fun start => if minSpan ≤ fl (stop - start) then a.out ++ [(start, stop)] else a.out

def Areas.visit (minSpan : ℤ) (a : Areas) (t : ℤ) (above : Bool) : Areas :=
  if above then { a with start := some (a.start.getD t) } else a.close minSpan t

/-- The list is not empty, so that there is a first line. -/
def deviationRuns (totals : Stack → List Point) (stackList : List Stack) (stepMs : ℤ) : List (ℤ × ℤ) :=
  let lines := stackList.map totals
  let n := ((lines.map List.length).min?).getD 0
  let time (i : ℕ) : ℤ := ((lines.head?.bind fun l => l[i]?).map Prod.fst).getD 0
  let minSpan := fl (fl (deviationBuckets * c.step) * 1000)
  let above (i : ℕ) : Bool := exceeds (current lines i) (ghostSum stackList fun s => ghostAt c s (time i))
  let a := (List.range n).foldl (fun a i => Areas.visit minSpan a (time i) (above i)) ⟨none, []⟩
  (if 0 < n then a.close minSpan (fl (time (n - 1) + stepMs)) else a).out

end Runs

section Scan

variable {bound : ℕ → ℤ} {above : ℕ → Bool} {minSpan : ℤ}

def longEnough (bound : ℕ → ℤ) (minSpan : ℤ) (p : ℕ × ℕ) : Bool := minSpan ≤ fl (bound p.2 - bound p.1)

def areaOf (bound : ℕ → ℤ) (p : ℕ × ℕ) : ℤ × ℤ := (bound p.1, bound p.2)

theorem close_eq (out : List (ℕ × ℕ)) (start : Option ℕ) (n : ℕ) :
    (Areas.close minSpan ⟨start.map bound, (out.filter (longEnough bound minSpan)).map (areaOf bound)⟩ (bound n)) =
      ⟨none, ((out ++ start.toList.map fun i => (i, n)).filter (longEnough bound minSpan)).map (areaOf bound)⟩ := by
  cases start with
  | none => simp [Areas.close]
  | some i =>
      by_cases hlong : minSpan ≤ fl (bound n - bound i) <;> simp [Areas.close, longEnough, areaOf, hlong, List.filter_append]

/-- The scan has the stretches so far that are over, and the start of the one that goes on. -/
theorem visit_all (n : ℕ) : (List.range n).foldl (fun a i => Areas.visit minSpan a (bound i) (above i)) ⟨none, []⟩ =
    ⟨(opened above n).map bound, ((closed above n).filter (longEnough bound minSpan)).map (areaOf bound)⟩ := by
  induction n with
  | zero => rfl
  | succ n ih =>
      rw [List.range_succ, List.foldl_append, ih, List.foldl_cons, List.foldl_nil, Areas.visit, opened, closed]
      cases above n with
      | true => cases opened above n <;> rfl
      | false => exact close_eq _ _ _

theorem runs_eq (bound : ℕ → ℤ) {c : ThroughputCompare} {lines : Stack → List Point} {stackList : List Stack} {stepMs : ℤ} {n : ℕ}
    (hn : ((stackList.map fun s => (lines s).length).min?).getD 0 = n)
    (htime : ∀ i < n, (((stackList.head?.map lines).bind fun l => l[i]?).map Prod.fst).getD 0 = bound i)
    (hlast : ∀ i < n, i + 1 = n → fl (bound i + stepMs) = bound n)
    (habove : ∀ i < n, exceeds (current (stackList.map lines) i) (ghostSum stackList fun s => ghostAt c s (bound i)) = above i) :
    deviationRuns c lines stackList stepMs =
      ((stretches above n).filter (longEnough bound (fl (fl (deviationBuckets * c.step) * 1000)))).map (areaOf bound) := by
  have hlength : (((stackList.map lines).map List.length).min?).getD 0 = n := by
    rw [List.map_map]
    exact hn
  have hscan := @visit_all bound above (fl (fl (deviationBuckets * c.step) * 1000)) n
  have hloop : (List.range n).foldl (fun a i => Areas.visit (fl (fl (deviationBuckets * c.step) * 1000)) a
      ((((stackList.map lines).head?.bind fun l => l[i]?).map Prod.fst).getD 0)
      (exceeds (current (stackList.map lines) i) (ghostSum stackList fun s =>
        ghostAt c s ((((stackList.map lines).head?.bind fun l => l[i]?).map Prod.fst).getD 0)))) ⟨none, []⟩ = _ :=
    (List.foldl_ext _ _ _ fun a i hi => by
      rw [List.mem_range] at hi
      rw [List.head?_map, htime i hi, habove i hi]).trans hscan
  simp only [deviationRuns, hlength]
  rw [hloop, stretches]
  cases n with
  | zero => rfl
  | succ n =>
      rw [if_pos (Nat.succ_pos n), Nat.add_sub_cancel, List.head?_map, htime n (Nat.lt_succ_self n),
        hlast n (Nat.lt_succ_self n) rfl, close_eq]

end Scan

section Grids

variable {r : Range} {offset : CompareOffset} {first : FirstMinute}

def ghostBucket (r : Range) (i : ℕ) : ℕ := ((r.fromMs + i * (r.step * 1000) - ghostFrom r) / (compareStep r * 1000)).toNat

theorem small_steps : ∀ s ∈ niceSteps, s < 60 → s ∣ 60 := by decide

theorem step_dvd (h : Aligned r) : r.step * 1000 ∣ compareStep r * 1000 := by
  apply mul_dvd_mul_right
  rw [compareStep_eq h]
  obtain hlt | hle := lt_or_ge r.step 60
  · rw [max_eq_left hlt.le]
    obtain hnice | ⟨k, hk, -, hstep⟩ := h.offered
    · exact small_steps r.step hnice hlt
    · omega
  · rw [max_eq_right hle]

theorem bucket_within (h : Aligned r) (i : ℕ) :
    ghostFrom r + ghostBucket r i * (compareStep r * 1000) ≤ r.fromMs + i * (r.step * 1000) ∧
      r.fromMs + i * (r.step * 1000) + r.step * 1000 ≤ ghostFrom r + ghostBucket r i * (compareStep r * 1000) + compareStep r * 1000 := by
  have hS := h.window.pos
  have hG := (ghost_window h).pos
  have hdvd := step_dvd h
  obtain ⟨-, hle, -⟩ := ghostFrom_bounds h
  set S := r.step * 1000
  set G := compareStep r * 1000
  have hprod : 0 ≤ (i : ℤ) * S := mul_nonneg (Int.natCast_nonneg i) hS.le
  set x := r.fromMs + i * S - ghostFrom r with hx
  have hnonneg : 0 ≤ x := by omega
  have hbucket : (ghostBucket r i : ℤ) = x / G := Int.toNat_of_nonneg (Int.ediv_nonneg hnonneg hG.le)
  have hdiv := Int.mul_ediv_add_emod x G
  have hmod := Int.emod_nonneg x hG.ne'
  have hmod' := Int.emod_lt_of_pos x hG
  rw [mul_comm] at hdiv
  have hwhole : S ∣ x := ((h.whole.add (Dvd.intro_left _ rfl)).sub (hdvd.trans (ghost_window h).whole))
  have hrest : S ∣ G - x % G := by
    rw [← hdiv] at hwhole
    exact hdvd.sub ((dvd_add_right (hdvd.mul_left _)).mp hwhole)
  have hroom := Int.le_of_dvd (by omega) hrest
  rw [hbucket]
  constructor <;> omega

theorem compare_grid (h : Aligned r) (hfirst : first.ms < r.toMs - offset.ms) {crows : List CompareRow} {c : ThroughputCompare}
    (hc : buildCompare crows r offset (some first.ms) = some c) : c.step = compareStep r ∧
      c.t = (List.range (windowCount (ghostFrom r) r.toMs (compareStep r)).toNat).map
        fun i : ℕ => ghostFrom r + i * (compareStep r * 1000) := by
  rw [buildCompare, Option.bind_some] at hc
  split_ifs at hc
  obtain rfl := Option.some.inj hc
  exact ⟨by rw [ghost_eq h hfirst], ghost_t h hfirst⟩

theorem bucket_lt (h : Aligned r) {i : ℕ} (hi : (i : ℤ) < windowCount r.fromMs r.toMs r.step) :
    (ghostBucket r i : ℤ) < windowCount (ghostFrom r) r.toMs (compareStep r) := by
  obtain ⟨hlow, -⟩ := bucket_within h i
  obtain ⟨-, -, hcover⟩ := (ghost_window h).count
  have hstart := h.window.start_lt hi
  have hmul : (ghostBucket r i : ℤ) * (compareStep r * 1000) <
      windowCount (ghostFrom r) r.toMs (compareStep r) * (compareStep r * 1000) := by omega
  exact lt_of_mul_lt_mul_right hmul (ghost_window h).pos.le

theorem ghostAt_bound (h : Aligned r) {c : ThroughputCompare} (hstep : c.step = compareStep r)
    (hgrid : c.t = (List.range (windowCount (ghostFrom r) r.toMs (compareStep r)).toNat).map
      fun i : ℕ => ghostFrom r + i * (compareStep r * 1000)) {i : ℕ} (hi : (i : ℤ) < windowCount r.fromMs r.toMs r.step) (s : Stack) :
    ghostAt c s (r.fromMs + i * (r.step * 1000)) = ghostIn c (ghostBucket r i) s := by
  obtain ⟨hone, -, -⟩ := (ghost_window h).count
  obtain ⟨hnonneg, hle, -⟩ := ghostFrom_bounds h
  have hhead : c.t.head? = some (ghostFrom r) := by
    rw [hgrid, List.head?_map, List.head?_range, if_neg (by omega)]
    simp
  have hlength : (c.t.length : ℤ) = windowCount (ghostFrom r) r.toMs (compareStep r) := by
    rw [hgrid, List.length_map, List.length_range]
    omega
  have hprod : 0 ≤ (i : ℤ) * (r.step * 1000) := mul_nonneg (Int.natCast_nonneg i) h.window.pos.le
  have hstart := h.window.start_lt hi
  have hhigh := h.high
  have hx : |r.fromMs + i * (r.step * 1000) - ghostFrom r| < 2 ^ 53 := abs_lt.mpr ⟨by omega, by omega⟩
  have hbucket : (ghostBucket r i : ℤ) = (r.fromMs + i * (r.step * 1000) - ghostFrom r) / (compareStep r * 1000) :=
    Int.toNat_of_nonneg (Int.ediv_nonneg (by omega) (ghost_window h).pos.le)
  have hlt := bucket_lt h hi
  rw [ghostAt, hhead, Option.bind_some, hstep, (compareStep_offered h).fl_stepMs, fl_small hx.le,
    floorDiv_eq hx (ghost_window h).pos]
  simp only [← hbucket, Int.natCast_nonneg, hlength, hlt, and_self, if_true, Int.toNat_natCast]

/-- The least span of an area where the steps are long: it is rounded only above all spans of
two steps. -/
theorem minSpan_days {k : ℤ} (hk : 7 < k) (hle : 84375 * k ≤ 2 ^ 53 - 2 ^ 44) :
    2 * (86400 * k * 1000) < fl (fl (deviationBuckets * (86400 * k)) * 1000) ∧
      (2 * (86400 * k * 1000) < 2 ^ 53 → fl (fl (deviationBuckets * (86400 * k)) * 1000) = 3 * (86400 * k * 1000)) := by
  have hinner : fl (deviationBuckets * (86400 * k)) = 3 * (86400 * k) := by
    have hsplit : deviationBuckets * (86400 * k) = 2025 * k * 2 ^ 7 := by rw [deviationBuckets]; ring
    rw [hsplit, fl_exact (by rw [abs_of_nonneg (by omega)]; omega) 7]
    ring
  rw [hinner]
  constructor
  · have hmin : (((84375 * k + 1 : ℤ) : ℚ) * 2 ^ 11) ≤ ((3 * (86400 * k) * 1000 : ℤ) : ℚ) := by
      have hint : (84375 * k + 1) * 2 ^ 11 ≤ 3 * (86400 * k) * 1000 := by omega
      exact_mod_cast hint
    have hpos : (0 : ℚ) ≤ ((3 * (86400 * k) * 1000 : ℤ) : ℚ) := by exact_mod_cast (by omega : 0 ≤ 3 * (86400 * k) * 1000)
    have hround := le_round (by rw [abs_of_nonneg (by omega)]; omega) hpos hmin
    have hfloor : (84375 * k + 1) * 2 ^ 11 ≤ fl (3 * (86400 * k) * 1000) := by
      rw [fl, Rat.le_floor_iff]
      exact_mod_cast hround
    omega
  · intro hsmall
    have hsplit : 3 * (86400 * k) * 1000 = 253125 * k * 2 ^ 10 := by ring
    rw [hsplit, fl_exact (by rw [abs_of_nonneg (by omega)]; omega) 10]
    ring

theorem enough_iff (h : Aligned r) {i j : ℕ} (hij : i < j) (hj : (j : ℤ) ≤ windowCount r.fromMs r.toMs r.step) :
    longEnough (fun i => r.fromMs + i * (r.step * 1000)) (fl (fl (deviationBuckets * compareStep r) * 1000)) (i, j) = true ↔
      3 * (compareStep r * 1000) ≤ (j - i) * (r.step * 1000) := by
  have hS := h.window.pos
  have hnonneg := h.nonneg
  have hhigh := h.high
  have hspan : r.fromMs + j * (r.step * 1000) - (r.fromMs + i * (r.step * 1000)) = (j - i) * (r.step * 1000) := by ring
  have hlast := @Window.start_lt _ _ _ h.window (j - 1) (by omega)
  have hprev : ((j : ℤ) - 1) * (r.step * 1000) = (j - i) * (r.step * 1000) + i * (r.step * 1000) - r.step * 1000 := by ring
  have hpos : 0 ≤ (i : ℤ) * (r.step * 1000) := mul_nonneg (Int.natCast_nonneg i) hS.le
  have hdiff : 0 ≤ ((j : ℤ) - i) * (r.step * 1000) := mul_nonneg (by omega) hS.le
  have hfl : fl ((j - i) * (r.step * 1000)) = (j - i) * (r.step * 1000) := by
    apply h.offered.fl_mul
    rw [abs_of_nonneg hdiff]
    omega
  rw [longEnough, hspan, hfl, decide_eq_true_iff]
  obtain hnice | ⟨k, hk, hle, hstep⟩ := compareStep_offered h
  · obtain ⟨hlow, hhigh, -⟩ := niceSteps_bounds _ hnice
    have hinner : fl (deviationBuckets * compareStep r) = 3 * compareStep r :=
      fl_small (by rw [deviationBuckets, abs_of_nonneg (by omega)]; omega)
    have houter : fl (3 * compareStep r * 1000) = 3 * compareStep r * 1000 :=
      fl_small (by rw [abs_of_nonneg (by omega)]; omega)
    rw [hinner, houter, mul_assoc]
  · -- The steps of the range are as long, so that a run of three of them is within the exact numbers.
    have hsame : r.step = 86400 * k := by
      have heq := compareStep_eq h
      rw [hstep] at heq
      obtain hmax | hmax := max_choice 60 r.step <;> omega
    rw [hsame] at hS hlast hprev hpos hdiff ⊢
    rw [hstep]
    obtain ⟨hmin, hexact⟩ := minSpan_days hk hle
    obtain hshort | hlong := le_or_gt ((j : ℤ) - i) 2
    · have hmul := mul_le_mul_of_nonneg_right hshort hS.le
      exact iff_of_false (by omega) (by omega)
    · have hmul := mul_le_mul_of_nonneg_right (Int.add_one_le_of_lt hlong) hS.le
      rw [hexact (by omega)]

end Grids

def above (r : Range) (dir : ThroughputDir) (lines : Stack → List Point) (c : ThroughputCompare) (i : ℕ) : Bool :=
  exceeds (current ((stacksOf dir).map lines) i) (ghostSum (stacksOf dir) (ghostIn c (ghostBucket r i)))

/-- The areas over `n` buckets are the longest runs of buckets that are above, as far as
they span three buckets of the ghost. -/
structure Shaded (r : Range) (dir : ThroughputDir) (lines : Stack → List Point) (c : ThroughputCompare) (n : ℕ)
    (out : List (ℤ × ℤ)) : Prop where
  within : ∀ i < n, ∃ t, c.t[ghostBucket r i]? = some t ∧ t ≤ r.fromMs + i * (r.step * 1000) ∧
    r.fromMs + i * (r.step * 1000) + r.step * 1000 ≤ t + c.step * 1000
  apart : out.Pairwise fun a b => a.2 < b.1
  areas : ∀ a, a ∈ out ↔ ∃ i j : ℕ, Stretch (above r dir lines c) n i j ∧
    3 * (c.step * 1000) ≤ (j - i) * (r.step * 1000) ∧ a = (r.fromMs + i * (r.step * 1000), r.fromMs + j * (r.step * 1000))

section Areas

variable {r : Range} {offset : CompareOffset} {first : FirstMinute} {L : Type} {rows : List ThroughputRow} {crows : List CompareRow}
  {dir : ThroughputDir} {labels : Units → Option L} {lines : Stack → List Point} {c : ThroughputCompare}

theorem range_starts (h : Aligned r) : (buildThroughput rows r dir labels).t =
    (List.range (windowCount r.fromMs r.toMs r.step).toNat).map fun i : ℕ => r.fromMs + i * (r.step * 1000) := by
  have hcount : bucketCount r = windowCount r.fromMs r.toMs r.step := by rw [bucketCount, windowCount, h.offered.fl_stepMs]
  have ht : (buildThroughput rows r dir labels).t = bucketStarts r.fromMs (fl (r.step * 1000)) (bucketCount r) := rfl
  rw [ht, hcount, h.offered.fl_stepMs, h.window.starts]

theorem totals_points {res : ThroughputResponse L} (hlines : totals res dir = some lines) {s : Stack} (hs : s ∈ stacksOf dir) :
    (lines s).map Prod.fst = res.t := by
  rw [totals] at hlines
  split at hlines
  · cases hlines
  · obtain rfl := Option.some.inj hlines
    dsimp only
    rw [if_pos hs, List.map_map]
    exact List.zipIdx_map_fst 0 res.t

theorem min_lengths {f : Stack → ℕ} {n : ℕ} (h : ∀ s ∈ stacksOf dir, f s = n) : (((stacksOf dir).map f).min?).getD 0 = n := by
  cases dir <;> simp_all [stacksOf, List.min?_cons]

theorem shaded (h : Aligned r) (hfirst : first.ms < r.toMs - offset.ms)
    (hlines : totals (buildThroughput rows r dir labels) dir = some lines) (hc : buildCompare crows r offset (some first.ms) = some c) :
    Shaded r dir lines c (buildThroughput rows r dir labels).t.length
      (deviationRuns c lines (stacksOf dir) (fl ((buildThroughput rows r dir labels).step * 1000))) := by
  obtain ⟨hone, -, -⟩ := h.window.count
  obtain ⟨hstep, hgrid⟩ := compare_grid h hfirst hc
  have ht := @range_starts r L rows dir labels h
  set N := (windowCount r.fromMs r.toMs r.step).toNat with hN
  have hlength : (buildThroughput rows r dir labels).t.length = N := by rw [ht, List.length_map, List.length_range]
  have hpoints : ∀ s ∈ stacksOf dir, (lines s).length = N := by
    intro s hs
    rw [← hlength, ← totals_points hlines hs, List.length_map]
  have htime : ∀ i < N, ((((stacksOf dir).head?.map lines).bind fun l => l[i]?).map Prod.fst).getD 0 =
      r.fromMs + i * (r.step * 1000) := by
    intro i hi
    obtain ⟨s, hs⟩ : ∃ s, (stacksOf dir).head? = some s := by cases dir <;> exact ⟨_, rfl⟩
    have hpoint := congrArg (fun l : List ℤ => l[i]?) (totals_points hlines (List.mem_of_head? hs))
    rw [ht, List.getElem?_map, List.getElem?_map, List.getElem?_range hi] at hpoint
    rw [hs, Option.map_some, Option.bind_some, hpoint]
    rfl
  have hlast : ∀ i < N, i + 1 = N → fl (r.fromMs + i * (r.step * 1000) + fl ((buildThroughput rows r dir labels).step * 1000)) =
      r.fromMs + (N : ℤ) * (r.step * 1000) := by
    intro i hi hn
    have hres : (buildThroughput rows r dir labels).step = r.step := rfl
    rw [hres, h.offered.fl_stepMs, h.window.fl_end (by omega), ← hn]
    push_cast
    ring
  have habove : ∀ i < N, exceeds (current ((stacksOf dir).map lines) i)
      (ghostSum (stacksOf dir) fun s => ghostAt c s (r.fromMs + i * (r.step * 1000))) = above r dir lines c i := by
    intro i hi
    rw [above]
    congr 2
    funext s
    exact ghostAt_bound h hstep hgrid (by omega) s
  have hruns := runs_eq (fun i => r.fromMs + i * (r.step * 1000)) (min_lengths hpoints) htime hlast habove
  rw [hlength, hruns, hstep]
  refine ⟨fun i hi => ?_, ?_, fun a => ?_⟩
  · have hlt := @bucket_lt r h i (by omega)
    obtain ⟨hlow, hup⟩ := bucket_within h i
    refine ⟨ghostFrom r + ghostBucket r i * (compareStep r * 1000), ?_, hlow, by rw [hstep]; exact hup⟩
    rw [hgrid, List.getElem?_map, List.getElem?_range (by omega)]
    rfl
  · rw [List.pairwise_map]
    refine (stretches_pairwise.filter _).imp fun {p p'} hlt => ?_
    have hmul := mul_lt_mul_of_pos_right (Int.ofNat_lt.mpr hlt) h.window.pos
    simp only [areaOf]
    omega
  · rw [hstep, List.mem_map]
    constructor
    · rintro ⟨⟨i, j⟩, hmem, rfl⟩
      obtain ⟨hmem, hlong⟩ := List.mem_filter.mp hmem
      have hstretch := mem_stretches.mp hmem
      have hle := hstretch.le
      exact ⟨i, j, hstretch, (enough_iff h hstretch.lt (by omega)).mp hlong, rfl⟩
    · rintro ⟨i, j, hstretch, hlong, rfl⟩
      have hle := hstretch.le
      exact ⟨(i, j), List.mem_filter.mpr ⟨mem_stretches.mpr hstretch, (enough_iff h hstretch.lt (by omega)).mpr hlong⟩, rfl⟩

/-- For each request that has a ghost, the areas of the chart. -/
theorem deviation_areas {q : Query} {now : Now} {r₀ : Range} (hparse : parseRange q now = .ok r₀)
    (hlines : totals (buildThroughput rows (alignRange r₀) dir labels) dir = some lines)
    (hc : buildCompare crows (alignRange r₀) offset (some first.ms) = some c) :
    Shaded (alignRange r₀) dir lines c (buildThroughput rows (alignRange r₀) dir labels).t.length
      (deviationRuns c lines (stacksOf dir) (fl ((buildThroughput rows (alignRange r₀) dir labels).step * 1000))) := by
  obtain ⟨hsound, -, -, -⟩ := parseRange_sound hparse
  have hcases := offset_cases offset
  have horder := hsound.order
  have hlow := hsound.low
  have hhigh := hsound.high
  have hto : (alignRange r₀).toMs = r₀.toMs := rfl
  have hwindow : fl ((alignRange r₀).toMs - offset.ms) = (alignRange r₀).toMs - offset.ms :=
    fl_small (abs_le.mpr ⟨by omega, by omega⟩)
  have hfirst : first.ms < (alignRange r₀).toMs - offset.ms := by
    rw [buildCompare, Option.bind_some, hwindow] at hc
    split_ifs at hc with hle
    exact not_le.mp hle
  have hnonneg := first.nonneg
  exact shaded (parse_aligned hparse (parse_nonneg hparse (by omega))) hfirst hlines hc

def burstRows : List ThroughputRow :=
  [⟨1699996440, units "curl", 500000, 0⟩, ⟨1699996500, units "curl", 500000, 0⟩, ⟨1699996560, units "curl", 500000, 0⟩,
    ⟨1699996620, units "curl", 1000, 0⟩]

def oldestMinute : FirstMinute := ⟨1699800000, by decide⟩

def quietRows : List CompareRow :=
  [⟨1699996440, 700, 500⟩, ⟨1699996500, 700, 500⟩, ⟨1699996560, 700, 500⟩, ⟨1699996620, 700, 500⟩]

theorem deviation_areas_sample : ∃ lines c, totals (buildThroughput burstRows (alignRange minuteRange) .tx fun _ => (none : Option Units)) .tx = some lines ∧
    buildCompare quietRows (alignRange minuteRange) .day (some oldestMinute.ms) = some c ∧
    deviationRuns c lines [.tx] 60000 = [(1699996440000, 1699996620000)] ∧
    Shaded (alignRange minuteRange) .tx lines c
      (buildThroughput burstRows (alignRange minuteRange) .tx fun _ => (none : Option Units)).t.length (deviationRuns c lines [.tx] 60000) := by
  have hareas : ((totals (buildThroughput burstRows (alignRange minuteRange) .tx fun _ => (none : Option Units)) .tx).bind fun lines =>
      (buildCompare quietRows (alignRange minuteRange) .day (some oldestMinute.ms)).map fun c => deviationRuns c lines [.tx] 60000) =
        some [(1699996440000, 1699996620000)] := by
    decide +kernel
  obtain ⟨lines, hlines, hareas⟩ := Option.bind_eq_some_iff.mp hareas
  obtain ⟨c, hc, hareas⟩ := Option.map_eq_some_iff.mp hareas
  have hstep : fl ((buildThroughput burstRows (alignRange minuteRange) .tx fun _ => (none : Option Units)).step * 1000) = 60000 := by decide +kernel
  have hshaded := deviation_areas minuteQuery_range hlines hc
  rw [hstep] at hshaded
  exact ⟨lines, c, hlines, hc, hareas, hshaded⟩

end Areas

end NetWatch.History.Deviation
