import Mathlib.Data.Int.Interval
import Mathlib.Data.List.ModifyLast
import NetWatch.Analysis.Bursts
import NetWatch.GeoIp.DestText
import NetWatch.Lib.JsNumber
import NetWatch.Lib.MergeRuns

namespace NetWatch.History.Beacons

open Lib Lib.Buckets Lib.JsNumber Lib.JsValue Lib.MergeRuns
open Analysis.Bursts (Periodicity periodicity burstGaps)
open GeoIp.DestText (destText)

def beaconPointBudget : ℤ := 60000

def beaconMinPoints : ℤ := 1000

def defaultIntervalMs : ℚ := 1000

/-- A destination's ticks with their bytes. The interval is `none` when it is not a number. -/
structure BeaconRow where
  ip : Units
  rport : ℕ
  proto : Units
  app : Units
  tsMs : List ℤ
  bytes : List ℕ
  intervalMs : Option ℚ

inductive BeaconScope
  | ofInstance
  | ofName
  deriving DecidableEq

structure BeaconRange where
  fromMs : ℤ
  toMs : ℤ
  scope : BeaconScope
  capped : Bool

/-- What `t`, `b` and `gap` have at one index. -/
structure Dot where
  t : ℤ
  b : ℕ
  gap : Option ℚ
  deriving DecidableEq

structure BeaconDest where
  dest : Units
  ip : Units
  rport : ℕ
  proto : Units
  app : Units
  ticks : ℕ
  bytes : ℕ
  intervalMs : ℚ
  stats : Periodicity ℚ
  dots : List Dot
  binnedMs : Option ℤ

structure BeaconsResponse where
  fromMs : ℤ
  toMs : ℤ
  scope : BeaconScope
  dests : List BeaconDest
  truncated : Bool
  capped : Bool

def beaconMaxSpanMs : BeaconScope → ℤ
  | .ofInstance => 24 * 3600000
  | .ofName => 6 * 3600000

/-- The last `maxMs` of a longer range. -/
def capSpan (fromMs toMs : ℤ) (scope : BeaconScope) (maxMs : ℤ) : BeaconRange :=
  if maxMs < fl (toMs - fromMs) then ⟨fl (toMs - maxMs), toMs, scope, true⟩ else ⟨fromMs, toMs, scope, false⟩

def Dot.join (d e : Dot) : Dot := { d with b := d.b + e.b }

/-- The bin that was begun last, and the dots so far. -/
def binStep (fromMs binMs : ℤ) (s : Option ℤ × List Dot) (d : Dot) : Option ℤ × List Dot :=
  let k := floorDiv (fl (d.t - fromMs)) binMs
  if s.1 = some k then (s.1, s.2.modifyLast fun e => e.join d) else (some k, s.2 ++ [d])

def binDots (dots : List Dot) (fromMs binMs : ℤ) : List Dot := (dots.foldl (binStep fromMs binMs) (none, [])).2

def addTick (acc : List (ℤ × ℕ)) (p : ℤ × ℕ) : List (ℤ × ℕ) :=
  match acc.getLast? with
  | some last => if last.1 = p.1 then acc.dropLast ++ [(last.1, last.2 + p.2)] else acc ++ [p]
  | none => acc ++ [p]

def pairs (row : BeaconRow) : List (ℤ × ℕ) := row.tsMs.zipIdx.map fun e => (e.1, row.bytes.getD e.2 0)

def ticksOf (row : BeaconRow) : List (ℤ × ℕ) := ((pairs row).mergeSort fun a b => a.1 ≤ b.1).foldl addTick []

def binWidth (r : BeaconRange) (maxDots : ℤ) : ℤ :=
  fl ((Binary64.div (Binary64.div (fl (r.toMs - r.fromMs)) maxDots) 1000).ceil * 1000)

def toBeaconDest (sqrt : ℚ → ℚ) (row : BeaconRow) (r : BeaconRange) (maxDots : ℤ) : BeaconDest :=
  let ticks := ticksOf row
  let t := ticks.map fun p => (p.1 : ℚ)
  let interval := match row.intervalMs with
    | some x => if x = 0 then defaultIntervalMs else x
    | none => defaultIntervalMs
  let dots := List.zipWith (fun p gap => Dot.mk p.1 p.2 gap) ticks (burstGaps t interval)
  let binnedMs := if maxDots < ticks.length then some (binWidth r maxDots) else none
  { dest := destText row.ip row.rport
    ip := row.ip
    rport := row.rport
    proto := row.proto
    app := row.app
    ticks := ticks.length
    bytes := total Prod.snd ticks
    intervalMs := interval
    stats := periodicity sqrt t interval
    dots := match binnedMs with
      | some w => binDots dots r.fromMs w
      | none => dots
    binnedMs := binnedMs }

/-- By the sign of the result: highest score first, then most ticks, then by the texts. -/
def compareDests (localeCompare : Units → Units → ℤ) (a b : BeaconDest) : ℚ :=
  if b.stats.score ≠ a.stats.score then b.stats.score - a.stats.score
  else if b.ticks ≠ a.ticks then b.ticks - a.ticks
  else if localeCompare a.dest b.dest ≠ 0 then localeCompare a.dest b.dest
  else if localeCompare a.app b.app ≠ 0 then localeCompare a.app b.app
  else localeCompare a.proto b.proto

def maxDotsOf (kept : ℕ) : ℤ := max beaconMinPoints (floorDiv beaconPointBudget (max 1 kept))

def buildBeacons (sqrt : ℚ → ℚ) (localeCompare : Units → Units → ℤ) (rows : List BeaconRow) (r : BeaconRange)
    (limit : ℕ) : BeaconsResponse :=
  let kept := rows.take limit
  let maxDots := maxDotsOf kept.length
  let dests := (kept.map fun row => toBeaconDest sqrt row r maxDots).mergeSort fun a b => compareDests localeCompare a b ≤ 0
  ⟨r.fromMs, r.toMs, r.scope, dests, limit < rows.length, r.capped⟩

section Span

variable {n m fromMs toMs : ℤ} {scope : BeaconScope}

theorem le_of_fl_le (h : fl n ≤ m) (hm : 0 ≤ m) (hsmall : m < 2 ^ 53) : n ≤ m := by
  by_contra hlt
  have hexact := fl_safe (fl_nonneg (by omega : 0 ≤ n)) (by omega)
  omega

/-- Every range that is asked for is far below the spans at which a bin could be too narrow. -/
theorem span_capSpan (hto : |toMs| < 2 ^ 52) {r : BeaconRange} (hr : r = capSpan fromMs toMs scope (beaconMaxSpanMs scope)) :
    r.toMs - r.fromMs < 2 ^ 52 := by
  have hmax : 0 ≤ beaconMaxSpanMs scope ∧ beaconMaxSpanMs scope < 2 ^ 51 := by cases scope <;> decide
  have hto' := abs_lt.mp hto
  rw [hr, capSpan]
  split_ifs with hcut
  · rw [fl_small (abs_le.mpr ⟨by omega, by omega⟩)]
    dsimp only
    omega
  · have hle := le_of_fl_le (not_lt.mp hcut) hmax.1 (by omega)
    dsimp only
    omega

end Span

section Width

variable {r : BeaconRange} {maxDots : ℤ}

theorem maxDotsOf_eq {kept : ℕ} (hkept : 0 < kept) : maxDotsOf kept = max 1000 (60000 / (kept : ℤ)) := by
  have hmax : max 1 (kept : ℤ) = kept := max_eq_right (by omega)
  rw [maxDotsOf, beaconMinPoints, beaconPointBudget, hmax, floorDiv_eq (by norm_num) (by omega)]

theorem le_maxDotsOf (kept : ℕ) : 1000 ≤ maxDotsOf kept := le_max_left _ _

/-- Of two quotients, each rounded, the second is off by two roundings of the exact one. -/
theorem div_div_bounds {q : ℚ} (hq : 0 ≤ q) {m n : ℚ} (hm : 0 < m) (hn : 0 < n) :
    q / m / n * (1 - 1 / 2 ^ 52) ≤ Binary64.div (Binary64.div q m) n ∧
      Binary64.div (Binary64.div q m) n ≤ 2 * (q / m / n) := by
  set a := Binary64.div q m with ha
  have hx : 0 ≤ q / m := by positivity
  have hfirst := abs_le.mp (round_error (q / m))
  rw [abs_of_nonneg hx, ← Binary64.div, ← ha] at hfirst
  have ha0 : 0 ≤ a := by linarith
  have hsecond := abs_le.mp (round_error (a / n))
  rw [abs_of_nonneg (by positivity), ← Binary64.div] at hsecond
  have hlow : q / m * (1 - 1 / 2 ^ 53) / n ≤ a / n := by
    gcongr
    linarith
  have hhigh : a / n ≤ q / m * (1 + 1 / 2 ^ 53) / n := by
    gcongr
    linarith
  have hy : 0 ≤ q / m / n := by positivity
  rw [mul_div_right_comm] at hlow hhigh
  constructor <;> linarith

/-- The bins are whole seconds, and as many as there may be dots reach to the end of the range. -/
theorem binWidth_spec (hspan : 0 < r.toMs - r.fromMs) (hsmall : r.toMs - r.fromMs < 2 ^ 52) (hdots : 1000 ≤ maxDots) :
    0 < binWidth r maxDots ∧ 1000 ∣ binWidth r maxDots ∧ r.toMs - r.fromMs ≤ binWidth r maxDots * maxDots := by
  have hexact : fl (r.toMs - r.fromMs) = r.toMs - r.fromMs := fl_small (abs_le.mpr ⟨by omega, by omega⟩)
  rw [binWidth, hexact]
  set s := r.toMs - r.fromMs
  have hs : (0 : ℚ) < s := by exact_mod_cast hspan
  have hm : (1000 : ℚ) ≤ maxDots := by exact_mod_cast hdots
  obtain ⟨hlow, hhigh⟩ := div_div_bounds hs.le (by linarith : (0 : ℚ) < maxDots) (by norm_num : (0 : ℚ) < 1000)
  set b := Binary64.div (Binary64.div s maxDots) 1000
  set q : ℚ := s / maxDots / 1000 with hq
  have hsq : (s : ℚ) = q * 1000 * maxDots := by
    rw [hq]
    field_simp
  have hle : (b : ℚ) ≤ b.ceil := Rat.le_ceil
  have hlt : (b.ceil : ℚ) < b + 1 := by exact_mod_cast Rat.ceil_lt
  have hcover : s ≤ b.ceil * 1000 * maxDots := by
    by_contra hover
    -- the whole seconds are short of the span by a millisecond at least, and two roundings are off by less
    have hgap : ((b.ceil * 1000 * maxDots : ℤ) : ℚ) + 1 ≤ s := by exact_mod_cast not_le.mp hover
    have hsmall' : (s : ℚ) < 2 ^ 52 := by exact_mod_cast hsmall
    push_cast at hgap
    have hbelow : q * (1 - 1 / 2 ^ 52) * 1000 * maxDots ≤ b.ceil * 1000 * maxDots := by
      gcongr
      linarith
    have hspread : q * (1 - 1 / 2 ^ 52) * 1000 * maxDots = s - s / 2 ^ 52 := by
      rw [hsq]
      ring
    have hshare : (s : ℚ) / 2 ^ 52 < 1 := (div_lt_one (by positivity)).mpr hsmall'
    linarith
  have hpos : 0 < b.ceil := by
    by_contra hneg
    have : b.ceil * 1000 * maxDots ≤ 0 := mul_nonpos_of_nonpos_of_nonneg (by omega) (by omega)
    omega
  have hbound : b.ceil * 1000 ≤ 2 ^ 53 := by
    have hq' : q ≤ s / 1000 / 1000 := by
      rw [hq]
      gcongr
    have hsmall' : (s : ℚ) < 2 ^ 52 := by exact_mod_cast hsmall
    have : (b.ceil * 1000 : ℚ) ≤ 2 ^ 53 := by linarith
    exact_mod_cast this
  rw [fl_small (abs_le.mpr ⟨by omega, hbound⟩)]
  exact ⟨by omega, Dvd.intro_left _ rfl, hcover⟩

end Width

section Ticks

variable (row : BeaconRow)

theorem ticksOf_eq : ticksOf row =
    mergeRuns Prod.fst (fun p q => (p.1, p.2 + q.2)) ((pairs row).mergeSort fun a b => a.1 ≤ b.1) := by
  have hstep : addTick = mergeStep Prod.fst fun p q => (p.1, p.2 + q.2) := by
    funext acc p
    rw [addTick, mergeStep]
    cases acc.getLast? <;> rfl
  rw [ticksOf, hstep, mergeRuns]

theorem map_fst_pairs : (pairs row).map Prod.fst = row.tsMs := by
  rw [pairs, List.map_map]
  exact List.zipIdx_map_fst 0 row.tsMs

theorem sum_getD (l : List ℕ) (n : ℕ) : ((List.range n).map fun i => l.getD i 0).sum = (l.take n).sum := by
  induction n with
  | zero => rfl
  | succ n ih =>
      rw [List.range_succ, List.map_append, List.sum_append, ih, List.take_add_one, List.sum_append, List.map_singleton,
        List.sum_singleton, List.getD_eq_getElem?_getD]
      cases l[n]? <;> rfl

theorem total_pairs : total Prod.snd (pairs row) = (row.bytes.take row.tsMs.length).sum := by
  have hidx : row.tsMs.zipIdx.map Prod.snd = List.range row.tsMs.length := by
    rw [List.zipIdx_map_snd, List.range_eq_range']
  rw [← sum_getD, ← hidx, total, pairs, List.map_map, List.map_map]
  rfl

theorem ticks_increasing : ((ticksOf row).map Prod.fst).Pairwise (· < ·) := by
  rw [ticksOf_eq, List.pairwise_map]
  refine keys_increasing (fun a x => rfl) ?_
  exact List.pairwise_mergeSort' (Order.Preimage Prod.fst (· ≤ ·)) (pairs row)

theorem mem_ticks (t : ℤ) : t ∈ (ticksOf row).map Prod.fst ↔ t ∈ row.tsMs := by
  have hkey : ∀ p q : ℤ × ℕ, (p.1, p.2 + q.2).1 = p.1 := fun _ _ => rfl
  have hperm := (List.mergeSort_perm (pairs row) fun a b => a.1 ≤ b.1).map Prod.fst
  rw [ticksOf_eq, mem_keys hkey, hperm.mem_iff, map_fst_pairs]

theorem total_ticks : total Prod.snd (ticksOf row) = (row.bytes.take row.tsMs.length).sum := by
  rw [ticksOf_eq, total_mergeRuns (fun a x => rfl), total_perm (List.mergeSort_perm (pairs row) _), total_pairs]

theorem length_ticks : (ticksOf row).length = row.tsMs.dedup.length := by
  have hnodup : ((ticksOf row).map Prod.fst).Nodup := (ticks_increasing row).imp fun h => h.ne
  have hperm := (List.perm_ext_iff_of_nodup hnodup row.tsMs.nodup_dedup).mpr fun t => by
    rw [mem_ticks, List.mem_dedup]
  rw [← hperm.length_eq, List.length_map]

end Ticks

section Bins

variable {fromMs w : ℤ} {dots : List Dot}

def binOf (fromMs binMs : ℤ) (d : Dot) : ℤ := floorDiv (fl (d.t - fromMs)) binMs

theorem binOf_join (a d : Dot) : binOf fromMs w (a.join d) = binOf fromMs w a := rfl

theorem binStep_concat (init : List Dot) (a d : Dot) : binStep fromMs w (some (binOf fromMs w a), init ++ [a]) d =
    if binOf fromMs w a = binOf fromMs w d then (some (binOf fromMs w a), init ++ [a.join d])
    else (some (binOf fromMs w d), init ++ [a] ++ [d]) := by
  change (if some (binOf fromMs w a) = some (binOf fromMs w d) then _ else _) = _
  rw [List.modifyLast_concat]
  simp only [Option.some.injEq]
  rfl

theorem binStep_mergeStep (acc : List Dot) (d : Dot) : binStep fromMs w (acc.getLast?.map (binOf fromMs w), acc) d =
    ((mergeStep (binOf fromMs w) Dot.join acc d).getLast?.map (binOf fromMs w), mergeStep (binOf fromMs w) Dot.join acc d) := by
  obtain ⟨init, a, rfl, hbin, hstep⟩ | ⟨hother, hstep⟩ := mergeStep_cases (binOf fromMs w) Dot.join acc d
  · rw [hstep, List.getLast?_concat, List.getLast?_concat, Option.map_some, Option.map_some, binStep_concat, if_pos hbin]
    rfl
  · rw [hstep, List.getLast?_concat, Option.map_some]
    obtain rfl | ⟨init, a, rfl⟩ := acc.eq_nil_or_concat'
    · rfl
    · rw [List.getLast?_concat, Option.map_some, binStep_concat, if_neg (hother init a rfl)]

theorem binDots_eq (dots : List Dot) : binDots dots fromMs w = mergeRuns (binOf fromMs w) Dot.join dots := by
  have hstate : dots.foldl (binStep fromMs w) (none, []) =
      ((mergeRuns (binOf fromMs w) Dot.join dots).getLast?.map (binOf fromMs w), mergeRuns (binOf fromMs w) Dot.join dots) := by
    induction dots using List.reverseRecOn with
    | nil => rfl
    | append_singleton dots d ih => rw [List.foldl_concat, ih, binStep_mergeStep, mergeRuns_snoc]
  rw [binDots, hstate]

theorem binOf_eq (hw : 0 < w) {d : Dot} (hfrom : fromMs ≤ d.t) (hto : d.t - fromMs < 2 ^ 52) :
    binOf fromMs w d = (d.t - fromMs) / w := by
  rw [binOf, fl_small (abs_le.mpr ⟨by omega, by omega⟩), floorDiv_eq (abs_lt.mpr ⟨by omega, by omega⟩) hw]

theorem length_le_of_increasing {l : List ℤ} {m : ℤ} (hl : l.Pairwise (· < ·)) (hm : ∀ k ∈ l, 0 ≤ k ∧ k < m) :
    (l.length : ℤ) ≤ max 0 m := by
  have hnodup : l.Nodup := hl.imp fun h => h.ne
  have hsub : l.toFinset ⊆ Finset.Ico 0 m := fun k hk => Finset.mem_Ico.mpr (hm k (List.mem_toFinset.mp hk))
  have hcard := Finset.card_le_card hsub
  rw [List.toFinset_card_of_nodup hnodup, Int.card_Ico, sub_zero] at hcard
  omega

section Spread

variable {maxDots span : ℤ} (hw : 0 < w) (hdots : dots.Pairwise fun a b => a.t < b.t)
  (hspan : span < 2 ^ 52) (hrange : ∀ d ∈ dots, fromMs ≤ d.t ∧ d.t - fromMs < span)
include hw hdots hspan hrange

theorem bins_increasing : (binDots dots fromMs w).Pairwise fun a b => binOf fromMs w a < binOf fromMs w b := by
  rw [binDots_eq]
  refine keys_increasing binOf_join (hdots.imp_of_mem fun {a b} ha hb hlt => ?_)
  obtain ⟨ha, ha'⟩ := hrange a ha
  obtain ⟨hb, hb'⟩ := hrange b hb
  rw [binOf_eq hw ha (by omega), binOf_eq hw hb (by omega)]
  exact Int.ediv_le_ediv hw (by omega)

theorem length_binDots (hcover : span ≤ w * maxDots) : ((binDots dots fromMs w).length : ℤ) ≤ max 0 maxDots := by
  rw [← List.length_map (f := binOf fromMs w)]
  refine length_le_of_increasing (List.pairwise_map.mpr (bins_increasing hw hdots hspan hrange)) fun k hk => ?_
  rw [binDots_eq, mem_keys binOf_join] at hk
  obtain ⟨d, hd, rfl⟩ := List.mem_map.mp hk
  obtain ⟨hfrom, hto⟩ := hrange d hd
  rw [binOf_eq hw hfrom (by omega)]
  constructor
  · exact Int.ediv_nonneg (by omega) hw.le
  · rw [Int.ediv_lt_iff_lt_mul hw, mul_comm]
    omega

end Spread

theorem times_binDots (fromMs w : ℤ) (dots : List Dot) : ((binDots dots fromMs w).map Dot.t).Sublist (dots.map Dot.t) := by
  have hjoin : ∀ a d : Dot, (a.join d).t = a.t := fun _ _ => rfl
  rw [binDots_eq]
  exact map_sublist hjoin dots

theorem total_binDots (dots : List Dot) : total Dot.b (binDots dots fromMs w) = total Dot.b dots := by
  have hjoin : ∀ a d : Dot, (a.join d).b = a.b + d.b := fun _ _ => rfl
  rw [binDots_eq]
  exact total_mergeRuns hjoin dots

end Bins

section Dests

variable {sqrt : ℚ → ℚ} {row : BeaconRow} {r : BeaconRange} {maxDots : ℤ}

theorem map_dots {ticks : List (ℤ × ℕ)} {gaps : List (Option ℚ)} (h : ticks.length = gaps.length) :
    (List.zipWith (fun p gap => Dot.mk p.1 p.2 gap) ticks gaps).map (fun d => (d.t, d.b)) = ticks := by
  induction ticks generalizing gaps with
  | nil => rfl
  | cons p ticks ih =>
      cases gaps with
      | nil => cases h
      | cons gap gaps => rw [List.zipWith_cons_cons, List.map_cons, ih (Nat.succ.inj h)]

def tickDots (row : BeaconRow) (interval : ℚ) : List Dot :=
  List.zipWith (fun p gap => Dot.mk p.1 p.2 gap) (ticksOf row) (burstGaps ((ticksOf row).map fun p => (p.1 : ℚ)) interval)

theorem map_tickDots (interval : ℚ) : (tickDots row interval).map (fun d => (d.t, d.b)) = ticksOf row :=
  map_dots (by rw [Analysis.Bursts.length_burstGaps, List.length_map])

theorem times_tickDots (interval : ℚ) : (tickDots row interval).map Dot.t = (ticksOf row).map Prod.fst := by
  rw [← map_tickDots interval, List.map_map]
  rfl

theorem total_tickDots (interval : ℚ) : total Dot.b (tickDots row interval) = total Prod.snd (ticksOf row) := by
  rw [← map_tickDots interval, total_map]

theorem length_tickDots (interval : ℚ) : (tickDots row interval).length = (ticksOf row).length := by
  rw [← map_tickDots interval, List.length_map]

theorem mem_tickDots {interval : ℚ} {d : Dot} (hd : d ∈ tickDots row interval) : d.t ∈ row.tsMs := by
  rw [← mem_ticks, ← times_tickDots interval]
  exact List.mem_map_of_mem hd

structure Bounded (row : BeaconRow) (r : BeaconRange) (maxDots : ℤ) (d : BeaconDest) : Prop where
  length_le : (d.dots.length : ℤ) ≤ maxDots
  increasing : d.dots.Pairwise fun a b => a.t < b.t
  times : ∀ e ∈ d.dots, e.t ∈ row.tsMs
  bytes : total Dot.b d.dots = (row.bytes.take row.tsMs.length).sum
  ticks : d.ticks = row.tsMs.dedup.length
  binned : ∀ w, d.binnedMs = some w →
    0 < w ∧ 1000 ∣ w ∧ d.dots.Pairwise fun a b => (a.t - r.fromMs) / w ≠ (b.t - r.fromMs) / w

theorem tickDots_increasing (row : BeaconRow) (interval : ℚ) : (tickDots row interval).Pairwise fun a b => a.t < b.t := by
  have h := ticks_increasing row
  rwa [← times_tickDots interval, List.pairwise_map] at h

theorem dots_kept (sqrt : ℚ → ℚ) (r : BeaconRange) (hfew : ¬ maxDots < (ticksOf row).length) :
    (toBeaconDest sqrt row r maxDots).dots = tickDots row (toBeaconDest sqrt row r maxDots).intervalMs := by
  rw [toBeaconDest]
  simp only [if_neg hfew]
  rfl

theorem dots_merged (sqrt : ℚ → ℚ) (r : BeaconRange) (hmany : maxDots < (ticksOf row).length) :
    (toBeaconDest sqrt row r maxDots).dots =
      binDots (tickDots row (toBeaconDest sqrt row r maxDots).intervalMs) r.fromMs (binWidth r maxDots) := by
  rw [toBeaconDest]
  simp only [if_pos hmany]
  rfl

theorem bounded_kept (sqrt : ℚ → ℚ) (r : BeaconRange) (hfew : ¬ maxDots < (ticksOf row).length) :
    Bounded row r maxDots (toBeaconDest sqrt row r maxDots) where
  length_le := by
    rw [dots_kept sqrt r hfew, length_tickDots]
    exact not_lt.mp hfew
  increasing := by
    rw [dots_kept sqrt r hfew]
    exact tickDots_increasing row _
  times := by
    intro e he
    rw [dots_kept sqrt r hfew] at he
    exact mem_tickDots he
  bytes := by rw [dots_kept sqrt r hfew, total_tickDots, total_ticks]
  ticks := length_ticks row
  binned := by
    intro w hw
    have hnone : (toBeaconDest sqrt row r maxDots).binnedMs = none := if_neg hfew
    rw [hnone] at hw
    cases hw

section Merged

variable (hticks : ∀ t ∈ row.tsMs, r.fromMs ≤ t ∧ t < r.toMs)
include hticks

theorem tickDots_range (interval : ℚ) :
    ∀ d ∈ tickDots row interval, r.fromMs ≤ d.t ∧ d.t - r.fromMs < r.toMs - r.fromMs := by
  intro d hd
  obtain ⟨hfrom, hto⟩ := hticks d.t (mem_tickDots hd)
  exact ⟨hfrom, by omega⟩

theorem span_pos (hmany : 0 < (ticksOf row).length) : 0 < r.toMs - r.fromMs := by
  rw [← length_tickDots 0] at hmany
  obtain ⟨d, hd⟩ := List.exists_mem_of_length_pos hmany
  obtain ⟨hfrom, hto⟩ := tickDots_range hticks 0 d hd
  omega

theorem bounded_merged (sqrt : ℚ → ℚ) (hspan : r.toMs - r.fromMs < 2 ^ 52) (hdots : 1000 ≤ maxDots)
    (hmany : maxDots < (ticksOf row).length) : Bounded row r maxDots (toBeaconDest sqrt row r maxDots) := by
  obtain ⟨hw, hsecond, hcover⟩ := binWidth_spec (span_pos hticks (by omega)) hspan hdots
  have hmerged := dots_merged sqrt r hmany
  set interval := (toBeaconDest sqrt row r maxDots).intervalMs
  have hrange := tickDots_range hticks interval
  have hincreasing := tickDots_increasing row interval
  have hsub := times_binDots r.fromMs (binWidth r maxDots) (tickDots row interval)
  have htimes : ∀ e ∈ binDots (tickDots row interval) r.fromMs (binWidth r maxDots), e.t ∈ row.tsMs := by
    intro e he
    rw [← mem_ticks, ← times_tickDots interval]
    exact hsub.subset (List.mem_map_of_mem he)
  exact
    { length_le := by
        rw [hmerged]
        exact (length_binDots hw hincreasing hspan hrange hcover).trans_eq (max_eq_right (by omega))
      increasing := by
        rw [hmerged]
        exact List.pairwise_map.mp ((List.pairwise_map.mpr hincreasing).sublist hsub)
      times := by rwa [hmerged]
      bytes := by rw [hmerged, total_binDots, total_tickDots, total_ticks]
      ticks := length_ticks row
      binned := by
        intro w hw'
        have hsome : (toBeaconDest sqrt row r maxDots).binnedMs = some (binWidth r maxDots) := if_pos hmany
        cases Option.some.inj (hsome.symm.trans hw')
        rw [hmerged]
        refine ⟨hw, hsecond, (bins_increasing hw hincreasing hspan hrange).imp_of_mem fun {a b} ha hb hlt => ?_⟩
        obtain ⟨hfrom, hto⟩ := hticks a.t (htimes a ha)
        obtain ⟨hfrom', hto'⟩ := hticks b.t (htimes b hb)
        rw [binOf_eq hw hfrom (by omega), binOf_eq hw hfrom' (by omega)] at hlt
        exact hlt.ne }

theorem toBeaconDest_bounded (sqrt : ℚ → ℚ) (hspan : r.toMs - r.fromMs < 2 ^ 52) (hdots : 1000 ≤ maxDots) :
    Bounded row r maxDots (toBeaconDest sqrt row r maxDots) := by
  by_cases hmany : maxDots < (ticksOf row).length
  · exact bounded_merged hticks sqrt hspan hdots hmany
  · exact bounded_kept sqrt r hmany

end Merged

variable {rows : List BeaconRow}

theorem mem_dests {localeCompare : Units → Units → ℤ} {limit : ℕ} {d : BeaconDest} :
    d ∈ (buildBeacons sqrt localeCompare rows r limit).dests ↔
      ∃ row ∈ rows.take limit, toBeaconDest sqrt row r (maxDotsOf (rows.take limit).length) = d := by
  rw [buildBeacons, List.mem_mergeSort, List.mem_map]

/-- Each destination is that of a kept row, and its dots are bounded without losing bytes. -/
theorem beacons_bounded (sqrt : ℚ → ℚ) (localeCompare : Units → Units → ℤ) (limit : ℕ)
    (hspan : r.toMs - r.fromMs < 2 ^ 52) (hticks : ∀ row ∈ rows, ∀ t ∈ row.tsMs, r.fromMs ≤ t ∧ t < r.toMs) :
    ∀ d ∈ (buildBeacons sqrt localeCompare rows r limit).dests, ∃ row ∈ rows.take limit,
      d = toBeaconDest sqrt row r (maxDotsOf (rows.take limit).length) ∧
        Bounded row r (max 1000 (60000 / ((rows.take limit).length : ℤ))) d := by
  intro d hd
  obtain ⟨row, hrow, rfl⟩ := mem_dests.mp hd
  have hbounded := toBeaconDest_bounded (hticks row (List.mem_of_mem_take hrow)) sqrt hspan
    (le_maxDotsOf (rows.take limit).length)
  refine ⟨row, hrow, rfl, ?_⟩
  rwa [← maxDotsOf_eq (List.length_pos_of_mem hrow)]

/-- A tick of 100 bytes in each of some seconds. -/
def denseRow (seconds : ℕ) : BeaconRow :=
  ⟨[0x31], 443, [], [], (List.range seconds).map fun i : ℕ => (i : ℤ) * 1000, List.replicate seconds 100, some 1000⟩

theorem mem_denseRow {seconds : ℕ} {t : ℤ} (ht : t ∈ (denseRow seconds).tsMs) : 0 ≤ t ∧ t < seconds * 1000 := by
  obtain ⟨i, hi, rfl⟩ := List.mem_map.mp ht
  rw [List.mem_range] at hi
  constructor <;> omega

theorem beacons_bounded_dense :
    ∃ d ∈ (buildBeacons id (fun _ _ => 0) [denseRow 70000] ⟨0, 70000000, .ofInstance, false⟩ 100).dests,
      Bounded (denseRow 70000) ⟨0, 70000000, .ofInstance, false⟩ (max 1000 (60000 / ((1 : ℕ) : ℤ))) d := by
  have hticks : ∀ row ∈ [denseRow 70000], ∀ t ∈ row.tsMs, 0 ≤ t ∧ t < (70000000 : ℤ) := by
    intro row hrow t ht
    rw [List.mem_singleton.mp hrow] at ht
    exact mem_denseRow ht
  have hall := beacons_bounded (r := ⟨0, 70000000, .ofInstance, false⟩) id (fun _ _ => 0) 100 (by norm_num) hticks
  have hkept : denseRow 70000 ∈ [denseRow 70000].take 100 := List.mem_cons_self
  refine ⟨_, mem_dests.mpr ⟨denseRow 70000, hkept, rfl⟩, ?_⟩
  obtain ⟨row, hrow, -, hbounded⟩ := hall _ (mem_dests.mpr ⟨denseRow 70000, hkept, rfl⟩)
  cases List.mem_singleton.mp hrow
  exact hbounded

end Dests

end NetWatch.History.Beacons
