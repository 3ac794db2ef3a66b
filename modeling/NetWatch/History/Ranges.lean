import NetWatch.Lib.JsNumber
import NetWatch.Lib.JsValue
import NetWatch.Lib.Runs

namespace NetWatch.History.Ranges

open Lib Lib.JsNumber Lib.JsValue
open Lib.Runs (bind_ok)

def hour : ℤ := 3600000

def day : ℤ := 24 * hour

def maxSpan : ℤ := 2 * 366 * day

def maxPoints : ℤ := 1500

def defaultSpan : ℤ := hour

def niceSteps : List ℤ :=
  [1, 2, 5, 10, 15, 30, 60, 120, 300, 600, 900, 1800, 3600, 7200, 10800, 21600, 43200, 86400, 172800, 604800]

inductive Table
  | flows
  | flows1m
  deriving DecidableEq

inductive Col
  | ts
  | minute
  deriving DecidableEq

structure Range where
  fromMs : ℤ
  toMs : ℤ
  step : ℤ
  table : Table
  col : Col
  deriving DecidableEq

inductive Raw
  | undefined
  | str (s : Units)
  | other

abbrev Query := String → Raw

structure BadRequest where
  message : String

def isDigit (u : UInt16) : Bool := 48 ≤ u && u ≤ 57

def decimalOf (ds : Units) : ℕ := ds.foldl (fun n d => 10 * n + (d.toNat - 48)) 0

/-- The integer that a text matching `/^-?\d+$/` denotes. -/
def intText : Units → Option ℤ
  | [] => none
  | d :: ds =>
    if d = 45 then if ds ≠ [] ∧ ds.all isDigit then some (-decimalOf ds) else none
    else if (d :: ds).all isDigit then some (decimalOf (d :: ds)) else none

example : intText (units "-120") = some (-120) := by decide +kernel

/-- A number from such a text, where `none` is NaN. -/
def numberOf : Raw → Option ℤ
  | .str s => (intText s).map fl
  | _ => none

def maxSafe : ℤ := 2 ^ 53 - 1

def intParam (q : Query) (name : String) (min : ℤ) : Except BadRequest (Option ℤ) :=
  match q name with
  | .undefined | .str [] => .ok none
  | raw =>
    match (numberOf raw).filter fun n => |n| ≤ maxSafe && min ≤ n with
    | some n => .ok (some n)
    | none => .error ⟨name ++ ": expected an integer >= " ++ toString min⟩

def defaultStep (span : ℤ) : ℤ :=
  if span ≤ 2 * hour then 10 else if span ≤ 3 * day then 60 else if span ≤ 30 * day then 900 else 3600

/-- `Math.ceil(span / 1000 / MAX_POINTS)`. -/
def pointStep (span : ℤ) : ℤ := (Binary64.div (Binary64.div span 1000) maxPoints).ceil

def wantedStep (span : ℤ) (requested : Option ℤ) : ℤ :=
  max (requested.getD (defaultStep span)) (max (if span ≤ 2 * hour then 1 else 60) (pointStep span))

def roundStep (wanted : ℤ) : ℤ :=
  (niceSteps.find? fun s => wanted ≤ s).getD (fl (ceilDiv wanted 86400 * 86400))

/-- What `Date.now()` may return. -/
structure Now where
  ms : ℤ
  le : |ms| ≤ 8640000000000000

def rangeOf (toMs fromMs : ℤ) (requested : Option ℤ) : Range :=
  let clamped := max fromMs (fl (toMs - maxSpan))
  let span := fl (toMs - clamped)
  let step := roundStep (wantedStep span requested)
  if span ≤ 2 * hour then ⟨clamped, toMs, step, .flows, .ts⟩
  else ⟨clamped, toMs, fl (ceilDiv step 60 * 60), .flows1m, .minute⟩

def parseRange (q : Query) (now : Now) : Except BadRequest Range := do
  let toMs := (← intParam q "to" 0).getD now.ms
  let fromMs := (← intParam q "from" 0).getD (fl (toMs - defaultSpan))
  if toMs ≤ fromMs then throw ⟨"from must be before to"⟩
  return rangeOf toMs fromMs (← intParam q "step" 1)

def requested (q : Query) (name : String) : Option ℤ :=
  match q name with
  | .str s => intText s
  | _ => none

def Malformed (q : Query) (name : String) : Prop :=
  q name ≠ .undefined ∧ q name ≠ .str [] ∧ requested q name = none

section Params

variable {q : Query} {name : String} {min : ℤ} {o : Option ℤ}

theorem intParam_ok (hmin : 0 ≤ min) (h : intParam q name min = .ok o) :
    o = requested q name ∧ ¬ Malformed q name ∧ ∀ n, o = some n → n ≤ maxSafe ∧ min ≤ n := by
  unfold intParam at h
  split at h
  · rename_i hq
    obtain rfl := Except.ok.inj h
    exact ⟨by rw [requested, hq], fun hm => hm.1 hq, nofun⟩
  · rename_i hq
    obtain rfl := Except.ok.inj h
    exact ⟨by rw [requested, hq]; rfl, fun hm => hm.2.1 hq, nofun⟩
  · split at h
    · rename_i n hn
      obtain rfl := Except.ok.inj h
      obtain ⟨hnumber, hbounds⟩ := Option.filter_eq_some_iff.mp hn
      rw [Bool.and_eq_true, decide_eq_true_iff, decide_eq_true_iff] at hbounds
      obtain ⟨s, hs⟩ : ∃ s, q name = .str s := by
        cases hraw : q name with
        | str s => exact ⟨s, rfl⟩
        | _ => rw [hraw] at hnumber; cases hnumber
      rw [hs] at hnumber
      obtain ⟨m, hm, rfl⟩ := Option.map_eq_some_iff.mp hnumber
      have hle : fl m ≤ maxSafe := (le_abs_self _).trans hbounds.1
      have hexact : fl m = m := fl_safe (hmin.trans hbounds.2) (by rw [maxSafe] at hle; omega)
      have hreq : requested q name = some m := by rw [requested, hs]; exact hm
      refine ⟨by rw [hreq, hexact], fun hmal => absurd (hreq.symm.trans hmal.2.2) nofun, fun n hn => ?_⟩
      obtain rfl := Option.some.inj hn
      exact ⟨hle, hbounds.2⟩
    · cases h

theorem parseRange_ok {now : Now} {r : Range} (h : parseRange q now = .ok r) : ∃ to? from? step?,
    intParam q "to" 0 = .ok to? ∧ intParam q "from" 0 = .ok from? ∧ intParam q "step" 1 = .ok step? ∧
      from?.getD (fl (to?.getD now.ms - defaultSpan)) < to?.getD now.ms ∧
      r = rangeOf (to?.getD now.ms) (from?.getD (fl (to?.getD now.ms - defaultSpan))) step? := by
  rw [parseRange] at h
  obtain ⟨to?, hto, h⟩ := bind_ok h
  obtain ⟨from?, hfrom, h⟩ := bind_ok h
  dsimp only at h
  split_ifs at h with hle
  · cases h
  · obtain ⟨step?, hstep, h⟩ := bind_ok h
    exact ⟨to?, from?, step?, hto, hfrom, hstep, not_le.mp hle, (Except.ok.inj h).symm⟩

end Params

section Steps

variable {span wanted step : ℤ}

/-- Both quotients of `pointStep` together are off by far less than a step. -/
theorem pointStep_error (hpos : 0 < span) : (span : ℚ) / 1500000 * (1 - 1 / 2 ^ 53) ^ 2 ≤
      Binary64.div (Binary64.div span 1000) maxPoints ∧
    Binary64.div (Binary64.div span 1000) maxPoints ≤ span / 1500000 * (1 + 1 / 2 ^ 53) ^ 2 := by
  have hspan : (0 : ℚ) < span := by exact_mod_cast hpos
  have hpoints : ((maxPoints : ℤ) : ℚ) = 1500 := by norm_num [maxPoints]
  have hfirst := abs_le.mp (round_error ((span : ℚ) / 1000))
  rw [abs_of_pos (by positivity)] at hfirst
  have hmiddle : (0 : ℚ) < Binary64.div span 1000 := by
    rw [Binary64.div]
    linarith
  have hsecond := abs_le.mp (round_error (Binary64.div span 1000 / 1500))
  rw [abs_of_pos (by positivity)] at hsecond
  rw [hpoints]
  simp only [Binary64.div] at hfirst hsecond ⊢
  constructor <;> linarith

theorem pointStep_bounds (hpos : 0 < span) (hle : span ≤ maxSpan) :
    span ≤ 1500000 * pointStep span ∧ pointStep span ≤ 50000 := by
  obtain ⟨hlower, hupper⟩ := pointStep_error hpos
  have hspan : (span : ℚ) ≤ 63244800000 := by
    have hmax : span ≤ 63244800000 := hle.trans (by decide)
    exact_mod_cast hmax
  have hspan' : (0 : ℚ) < span := by exact_mod_cast hpos
  constructor
  · by_contra hlt
    have hgap : (1500000 * pointStep span + 1 : ℚ) ≤ span := by exact_mod_cast (by omega : 1500000 * pointStep span + 1 ≤ span)
    have hceil : Binary64.div (Binary64.div span 1000) maxPoints ≤ pointStep span := Rat.le_ceil
    linarith
  · rw [pointStep, Rat.ceil_le_iff]
    push_cast
    linarith

/-- The steps that are offered: the nice ones and, beyond them, whole days. -/
def Offered (step : ℤ) : Prop := step ∈ niceSteps ∨ ∃ k, 7 < k ∧ 84375 * k ≤ 2 ^ 53 - 2 ^ 44 ∧ step = 86400 * k

theorem niceSteps_bounds : ∀ s ∈ niceSteps, 1 ≤ s ∧ s ≤ 604800 ∧ (60 ≤ s → 60 ∣ s) := by decide

theorem Offered.pos (h : Offered step) : 1 ≤ step := by
  rcases h with h | ⟨k, hk, -, rfl⟩
  · exact (niceSteps_bounds step h).1
  · omega

theorem Offered.minutes (h : Offered step) (hle : 60 ≤ step) : 60 ∣ step := by
  rcases h with h | ⟨k, hk, -, rfl⟩
  · exact (niceSteps_bounds step h).2.2 hle
  · exact ⟨1440 * k, by ring⟩

theorem Offered.fl_self (h : Offered step) : fl step = step := by
  rcases h with h | ⟨k, hk, hle, rfl⟩
  · obtain ⟨hlow, hhigh, -⟩ := niceSteps_bounds step h
    exact fl_small (by rw [abs_of_nonneg (by omega)]; omega)
  · have hsplit : 86400 * k = 675 * k * 2 ^ 7 := by ring
    rw [hsplit]
    exact fl_exact (by rw [abs_of_nonneg (by omega)]; omega) 7

/-- Multiples of a step in milliseconds are exact a bit beyond the safe integers, as
they have powers of two in them. -/
theorem Offered.fl_mul (h : Offered step) {c : ℤ} (hc : |c * (step * 1000)| ≤ 2 ^ 53 + step * 1000) :
    fl (c * (step * 1000)) = c * (step * 1000) := by
  rcases h with h | ⟨k, hk, hle, rfl⟩
  · obtain ⟨hlow, hhigh, -⟩ := niceSteps_bounds step h
    have hsplit : c * (step * 1000) = c * step * 500 * 2 ^ 1 := by ring
    rw [hsplit] at hc ⊢
    refine fl_exact ?_ 1
    rw [abs_mul _ (2 ^ 1)] at hc
    norm_num at hc ⊢
    omega
  · have hsplit : c * (86400 * k * 1000) = c * (84375 * k) * 2 ^ 10 := by ring
    rw [hsplit] at hc ⊢
    refine fl_exact ?_ 10
    rw [abs_mul _ (2 ^ 10)] at hc
    norm_num at hc hle ⊢
    omega

theorem Offered.fl_stepMs (h : Offered step) : fl (step * 1000) = step * 1000 := by
  have hpos := h.pos
  have hone := h.fl_mul (c := 1) (by rw [one_mul, abs_of_nonneg (by omega)]; omega)
  rwa [one_mul] at hone

theorem roundStep_spec (hlow : 1 ≤ wanted) (hhigh : wanted ≤ maxSafe) :
    wanted ≤ roundStep wanted ∧ Offered (roundStep wanted) := by
  rw [roundStep]
  cases hfind : niceSteps.find? fun s => wanted ≤ s with
  | some s =>
      have hle : wanted ≤ s := by simpa using List.find?_some hfind
      exact ⟨hle, .inl (List.mem_of_find?_eq_some hfind)⟩
  | none =>
      have hlarge : 604800 < wanted := by
        have hall := List.find?_eq_none.mp hfind 604800 (by decide)
        simpa using hall
      have hsafe : |wanted| < 2 ^ 53 := by
        rw [maxSafe] at hhigh
        rw [abs_of_nonneg (by omega)]
        omega
      have hge : wanted ≤ ceilDiv wanted 86400 * 86400 := (ceilDiv_le_iff hsafe (by norm_num)).mp le_rfl
      have hlt : ¬ wanted ≤ (ceilDiv wanted 86400 - 1) * 86400 := by
        rw [← ceilDiv_le_iff hsafe (by norm_num)]
        omega
      have hoffered : Offered (86400 * ceilDiv wanted 86400) := by
        rw [maxSafe] at hhigh
        exact .inr ⟨_, by omega, by omega, rfl⟩
      rw [Option.getD_none, mul_comm, hoffered.fl_self]
      exact ⟨by omega, hoffered⟩

theorem minuteStep_eq (h : Offered step) (hle : 60 ≤ step) : fl (ceilDiv step 60 * 60) = step := by
  obtain ⟨j, rfl⟩ := h.minutes hle
  have hsmall : |j| ≤ 2 ^ 53 := by
    rw [abs_of_nonneg (by omega)]
    rcases h with h | ⟨k, hk, hle', hj⟩
    · have hbound := (niceSteps_bounds _ h).2.1
      omega
    · omega
  have hceil : ceilDiv (60 * j) 60 = j := by
    rw [mul_comm, ceilDiv]
    have hdiv := div_of_mul (b := 60) (by norm_num) hsmall
    push_cast at hdiv ⊢
    rw [hdiv]
    exact Rat.ceil_intCast j
  rw [hceil, mul_comm, h.fl_self]

end Steps

/-- What holds of every parsed range. The bounds keep its arithmetic exact. -/
structure Sound (r : Range) : Prop where
  order : r.fromMs < r.toMs
  span : r.toMs - r.fromMs ≤ maxSpan
  low : -8640000003600000 ≤ r.fromMs
  high : r.toMs < 2 ^ 53
  offered : Offered r.step
  points : r.toMs - r.fromMs ≤ 1500 * (r.step * 1000)
  source : (r.table = .flows ∧ r.col = .ts ∧ r.toMs - r.fromMs ≤ 2 * hour) ∨
    (r.table = .flows1m ∧ r.col = .minute ∧ 2 * hour < r.toMs - r.fromMs ∧ 60 ∣ r.step)

section Parsed

variable {toMs fromMs : ℤ} {step? : Option ℤ}

theorem wantedStep_bounds (span : ℤ) (hpos : 0 < span) (hle : span ≤ maxSpan)
    (hstep : ∀ n, step? = some n → n ≤ maxSafe ∧ 1 ≤ n) :
    (∀ n, step? = some n → n ≤ wantedStep span step?) ∧ 1 ≤ wantedStep span step? ∧
      wantedStep span step? ≤ maxSafe ∧ span ≤ 1500000 * wantedStep span step? ∧
      (2 * hour < span → 60 ≤ wantedStep span step?) := by
  obtain ⟨hpoints, hfew⟩ := pointStep_bounds hpos hle
  have hdefault : 1 ≤ defaultStep span ∧ defaultStep span ≤ 3600 := by
    rw [defaultStep]
    split_ifs <;> omega
  have hasked : 1 ≤ step?.getD (defaultStep span) ∧ step?.getD (defaultStep span) ≤ maxSafe := by
    cases hs : step? with
    | none => exact ⟨hdefault.1, hdefault.2.trans (by decide)⟩
    | some n => exact ⟨(hstep n hs).2, (hstep n hs).1⟩
  have hmax : (50000 : ℤ) ≤ maxSafe := by decide
  rw [wantedStep]
  refine ⟨?_, ?_, ?_, ?_, ?_⟩
  · rintro n rfl
    exact le_max_left _ _
  · exact hasked.1.trans (le_max_left _ _)
  · refine max_le hasked.2 (max_le ?_ (hfew.trans hmax))
    split_ifs <;> omega
  · have hle := (le_max_right (if span ≤ 2 * hour then 1 else 60) (pointStep span)).trans
      (le_max_right (step?.getD (defaultStep span)) _)
    omega
  · intro hlong
    rw [if_neg (not_le.mpr hlong)]
    exact (le_max_left 60 _).trans (le_max_right _ _)

theorem rangeOf_sound (horder : fromMs < toMs) (hlow : -8640000000000000 ≤ toMs) (hhigh : toMs < 2 ^ 53)
    (hfrom : -8640000003600000 ≤ fromMs) (hstep : ∀ n, step? = some n → n ≤ maxSafe ∧ 1 ≤ n) :
    Sound (rangeOf toMs fromMs step?) ∧ (rangeOf toMs fromMs step?).toMs = toMs ∧
      (rangeOf toMs fromMs step?).fromMs = max fromMs (toMs - maxSpan) ∧
      ∀ n, step? = some n → n ≤ (rangeOf toMs fromMs step?).step := by
  have hspanMax : maxSpan = 63244800000 := by decide
  have hclamp : fl (toMs - maxSpan) = toMs - maxSpan := fl_small (abs_le.mpr ⟨by omega, by omega⟩)
  have hspan : fl (toMs - max fromMs (toMs - maxSpan)) = toMs - max fromMs (toMs - maxSpan) :=
    fl_small (abs_le.mpr ⟨by omega, by omega⟩)
  obtain ⟨hasked, hpos, hsafe, hpoints, hlong⟩ :=
    wantedStep_bounds (toMs - max fromMs (toMs - maxSpan)) (by omega) (by omega) hstep
  obtain ⟨hge, hoffered⟩ := roundStep_spec hpos hsafe
  simp only [rangeOf, hclamp, hspan]
  split_ifs with hraw
  · refine ⟨⟨by dsimp only; omega, by dsimp only; omega, by dsimp only; omega, hhigh, hoffered, ?_, ?_⟩, rfl, rfl, ?_⟩
    · dsimp only
      omega
    · exact .inl ⟨rfl, rfl, hraw⟩
    · exact fun n hn => (hasked n hn).trans hge
  · have hminute := minuteStep_eq hoffered ((hlong (not_le.mp hraw)).trans hge)
    rw [hminute]
    refine ⟨⟨by dsimp only; omega, by dsimp only; omega, by dsimp only; omega, hhigh, hoffered, ?_, ?_⟩, rfl, rfl, ?_⟩
    · dsimp only
      omega
    · exact .inr ⟨rfl, rfl, not_le.mp hraw, hoffered.minutes ((hlong (not_le.mp hraw)).trans hge)⟩
    · exact fun n hn => (hasked n hn).trans hge

theorem parseRange_sound {q : Query} {now : Now} {r : Range} (h : parseRange q now = .ok r) :
    Sound r ∧ r.toMs = (requested q "to").getD now.ms ∧
      r.fromMs = max ((requested q "from").getD (r.toMs - defaultSpan)) (r.toMs - maxSpan) ∧
      ∀ n, requested q "step" = some n → n ≤ r.step := by
  obtain ⟨to?, from?, step?, hto, hfrom, hstep, horder, rfl⟩ := parseRange_ok h
  obtain ⟨rfl, -, htoBounds⟩ := intParam_ok le_rfl hto
  obtain ⟨rfl, -, hfromBounds⟩ := intParam_ok le_rfl hfrom
  obtain ⟨rfl, -, hstepBounds⟩ := intParam_ok zero_le_one hstep
  obtain ⟨hlow, hhigh⟩ : -8640000000000000 ≤ (requested q "to").getD now.ms ∧ (requested q "to").getD now.ms < 2 ^ 53 := by
    cases hreq : requested q "to" with
    | none =>
        have hnow := abs_le.mp now.le
        exact ⟨hnow.1, by dsimp only [Option.getD_none]; omega⟩
    | some n =>
        have hn := htoBounds n hreq
        rw [maxSafe] at hn
        exact ⟨by dsimp only [Option.getD_some]; omega, by dsimp only [Option.getD_some]; omega⟩
  have hdefault : fl ((requested q "to").getD now.ms - defaultSpan) = (requested q "to").getD now.ms - defaultSpan := by
    have hspan : defaultSpan = 3600000 := by decide
    exact fl_small (abs_le.mpr ⟨by omega, by omega⟩)
  rw [hdefault] at horder ⊢
  have hstart : -8640000003600000 ≤ (requested q "from").getD ((requested q "to").getD now.ms - defaultSpan) := by
    have hspan : defaultSpan = 3600000 := by decide
    cases hreq : requested q "from" with
    | none => rw [Option.getD_none]; omega
    | some n =>
        have hn := hfromBounds n hreq
        rw [Option.getD_some]
        omega
  obtain ⟨hsound, htoMs, hfromMs, hasked⟩ := rangeOf_sound horder hlow hhigh hstart hstepBounds
  exact ⟨hsound, htoMs, by rw [hfromMs, htoMs], hasked⟩

end Parsed

end NetWatch.History.Ranges
