import NetWatch.History.Throughput

namespace NetWatch.History.Grid

open Lib Lib.JsNumber Lib.JsValue Ranges Throughput

section Align

variable {r : Range} (h : Sound r)
include h

theorem Sound.abs_fromMs : |r.fromMs| < 2 ^ 53 := by
  have horder := h.order
  have hlow := h.low
  have hhigh := h.high
  rw [abs_lt]
  constructor <;> omega

theorem align_fromMs : (alignRange r).fromMs = r.fromMs / (r.step * 1000) * (r.step * 1000) := by
  have hpos := h.offered.pos
  have hS : 0 < r.step * 1000 := by omega
  have hdiv := Int.mul_ediv_add_emod r.fromMs (r.step * 1000)
  have hmod := Int.emod_nonneg r.fromMs hS.ne'
  have hmod' := Int.emod_lt_of_pos r.fromMs hS
  have hfrom := abs_lt.mp (Sound.abs_fromMs h)
  simp only [alignRange, h.offered.fl_stepMs, floorDiv_eq (Sound.abs_fromMs h) hS]
  apply h.offered.fl_mul
  rw [mul_comm] at hdiv
  rw [abs_le]
  constructor <;> omega

theorem align_bounds : (alignRange r).fromMs ≤ r.fromMs ∧ r.fromMs < (alignRange r).fromMs + r.step * 1000 := by
  have hpos := h.offered.pos
  have hS : 0 < r.step * 1000 := by omega
  have hdiv := Int.mul_ediv_add_emod r.fromMs (r.step * 1000)
  have hmod := Int.emod_nonneg r.fromMs hS.ne'
  have hmod' := Int.emod_lt_of_pos r.fromMs hS
  rw [align_fromMs h]
  rw [mul_comm] at hdiv
  constructor <;> omega

/-- A range has about as many buckets as points, also where the arithmetic rounds. -/
theorem align_bucketCount : bucketCount (alignRange r) ≤ 1501 := by
  have hpos := h.offered.pos
  have hS : 0 < r.step * 1000 := by omega
  obtain ⟨hle, hlt⟩ := align_bounds h
  have horder := h.order
  have hpoints := h.points
  have hspan := h.span
  have hmax : maxSpan = 63244800000 := by decide
  have hstep : (alignRange r).step = r.step := rfl
  have hto : (alignRange r).toMs = r.toMs := rfl
  rw [bucketCount, hstep, hto, h.offered.fl_stepMs]
  refine max_le (by norm_num) ?_
  set D := r.toMs - (alignRange r).fromMs with hD
  by_cases hsmall : D < 2 ^ 53
  · rw [fl_small (abs_le.mpr ⟨by omega, by omega⟩), ceilDiv_le_iff (abs_lt.mpr ⟨by omega, hsmall⟩) hS]
    omega
  · -- A span this long is nearly all the step that the start was rounded down by.
    have hDpos : (0 : ℚ) < D := by exact_mod_cast (by omega : 0 < D)
    have hSpos : (0 : ℚ) < (r.step * 1000 : ℤ) := by exact_mod_cast hS
    have hratio : (D : ℚ) ≤ 2 * (r.step * 1000 : ℤ) := by exact_mod_cast (by omega : D ≤ 2 * (r.step * 1000))
    have hround := (abs_le.mp (round_error (D : ℚ))).2
    rw [abs_of_pos hDpos] at hround
    have hfl : (fl D : ℚ) ≤ 2 * D := (Rat.floor_le _).trans (by linarith)
    have hflpos : (0 : ℚ) ≤ fl D := by exact_mod_cast fl_nonneg (by omega : 0 ≤ D)
    have hquot : (fl D : ℚ) / (r.step * 1000 : ℤ) ≤ 4 := by
      rw [div_le_iff₀ hSpos]
      linarith
    have hquotpos : 0 ≤ (fl D : ℚ) / (r.step * 1000 : ℤ) := by positivity
    have herror := (abs_le.mp (round_error ((fl D : ℚ) / (r.step * 1000 : ℤ)))).2
    rw [abs_of_nonneg hquotpos] at herror
    rw [ceilDiv, Rat.ceil_le_iff, Binary64.div]
    push_cast at herror hquot ⊢
    linarith

end Align

section Throws

variable {q : Query} {now : Now}

theorem intParam_throws {name : String} {min : ℤ} (hmin : 0 ≤ min)
    (h : Malformed q name ∨ ∃ n, requested q name = some n ∧ n < min) : ∃ e, intParam q name min = .error e := by
  cases hparam : intParam q name min with
  | error e => exact ⟨e, rfl⟩
  | ok o =>
      obtain ⟨rfl, hform, hbounds⟩ := intParam_ok hmin hparam
      rcases h with hmal | ⟨n, hn, hlt⟩
      · exact absurd hmal hform
      · exact absurd (hbounds n hn).2 (not_le.mpr hlt)

theorem parseRange_throws (h : ∀ r, parseRange q now ≠ .ok r) : ∃ e, parseRange q now = .error e := by
  cases hparse : parseRange q now with
  | error e => exact ⟨e, rfl⟩
  | ok r => exact absurd hparse (h r)

end Throws

/-- What a query yields: a range that is in order, bounded and consistent. -/
structure Consistent (q : Query) (now : Now) (r : Range) : Prop where
  order : r.fromMs < r.toMs
  span : r.toMs - r.fromMs ≤ 2 * 366 * 86400000
  toMs : r.toMs = (requested q "to").getD now.ms
  fromMs : r.fromMs = max ((requested q "from").getD (r.toMs - 3600000)) (r.toMs - 2 * 366 * 86400000)
  table : r.table = .flows ↔ r.toMs - r.fromMs ≤ 2 * 3600000
  positive : 0 < r.step
  asked : ∀ n, requested q "step" = some n → n ≤ r.step
  minutes : r.table = .flows1m → 60 ∣ r.step
  points : ((r.toMs - r.fromMs : ℤ) : ℚ) / (1000 * r.step) ≤ 1500
  buckets : bucketCount (alignRange r) ≤ 1501

theorem consistent_of_sound {q : Query} {now : Now} {r : Range} (h : parseRange q now = .ok r) : Consistent q now r := by
  obtain ⟨hsound, hto, hfrom, hasked⟩ := parseRange_sound h
  have hpos := hsound.offered.pos
  have hhour : hour = 3600000 := by decide
  refine ⟨hsound.order, hsound.span, hto, hfrom, ?_, hpos, hasked, ?_, ?_, align_bucketCount hsound⟩
  · rcases hsound.source with ⟨htable, -, hle⟩ | ⟨htable, -, hlt, -⟩
    · rw [hhour] at hle
      exact iff_of_true htable hle
    · rw [hhour] at hlt
      exact iff_of_false (by rw [htable]; exact nofun) (not_le.mpr hlt)
  · intro htable
    rcases hsound.source with ⟨hflows, -, -⟩ | ⟨-, -, -, hminutes⟩
    · exact absurd (hflows.symm.trans htable) nofun
    · exact hminutes
  · have hstep : (0 : ℚ) < 1000 * r.step := by exact_mod_cast (by omega : 0 < 1000 * r.step)
    rw [div_le_iff₀ hstep]
    have hpoints := hsound.points
    exact_mod_cast (by omega : r.toMs - r.fromMs ≤ 1500 * (1000 * r.step))

/-- A query that is not refused gives a consistent range, and malformed, negative and
unordered times and steps below 1 are refused. -/
theorem parseRange_consistent (q : Query) (now : Now) :
    (∀ r, parseRange q now = .ok r → Consistent q now r) ∧
    (∀ name ∈ ["from", "to"], (Malformed q name ∨ ∃ n, requested q name = some n ∧ n < 0) →
      ∃ e, parseRange q now = .error e) ∧
    ((Malformed q "step" ∨ ∃ n, requested q "step" = some n ∧ n < 1) → ∃ e, parseRange q now = .error e) ∧
    ∀ start, requested q "from" = some start → (requested q "to").getD now.ms ≤ start →
      ∃ e, parseRange q now = .error e := by
  refine ⟨fun r h => consistent_of_sound h, ?_, ?_, ?_⟩
  · intro name hname hbad
    apply parseRange_throws
    intro r hr
    obtain ⟨to?, from?, step?, hto, hfrom, -, -, -⟩ := parseRange_ok hr
    obtain ⟨e, he⟩ := intParam_throws le_rfl hbad
    rcases List.mem_cons.mp hname with rfl | hname
    · exact absurd (he.symm.trans hfrom) nofun
    · obtain rfl := List.mem_singleton.mp hname
      exact absurd (he.symm.trans hto) nofun
  · intro hbad
    apply parseRange_throws
    intro r hr
    obtain ⟨to?, from?, step?, -, -, hstep, -, -⟩ := parseRange_ok hr
    obtain ⟨e, he⟩ := intParam_throws zero_le_one hbad
    exact absurd (he.symm.trans hstep) nofun
  · intro start hstart hle
    apply parseRange_throws
    intro r hr
    obtain ⟨to?, from?, step?, hto, hfrom, -, horder, -⟩ := parseRange_ok hr
    obtain ⟨rfl, -, -⟩ := intParam_ok le_rfl hto
    obtain ⟨rfl, -, -⟩ := intParam_ok le_rfl hfrom
    rw [hstart, Option.getD_some] at horder
    exact absurd horder (not_lt.mpr hle)

def emptyQuery : Query := fun _ => .undefined

def sampleNow : Now := ⟨1700000000000, by decide⟩

theorem emptyQuery_range : ∃ r, parseRange emptyQuery sampleNow = .ok r ∧ Consistent emptyQuery sampleNow r := by
  have hsome : (parseRange emptyQuery sampleNow).toOption.isSome = true := by decide +kernel
  cases hparse : parseRange emptyQuery sampleNow with
  | error e =>
      rw [hparse] at hsome
      cases hsome
  | ok r => exact ⟨r, rfl, consistent_of_sound hparse⟩

/-- Eleven and a half days, every seven seconds. -/
def askedQuery : Query := fun name =>
  if name = "from" then .str (units "1699000000000")
  else if name = "to" then .str (units "1700000000000")
  else if name = "step" then .str (units "7")
  else .undefined

theorem parseRange_consistent_asked : ∃ r, parseRange askedQuery sampleNow = .ok r ∧
    r.fromMs = 1699000000000 ∧ r.step = 900 ∧ Consistent askedQuery sampleNow r := by
  have hstep : (parseRange askedQuery sampleNow).toOption.map (fun r => (r.fromMs, r.step)) = some (1699000000000, 900) := by
    decide +kernel
  cases hparse : parseRange askedQuery sampleNow with
  | error e =>
      rw [hparse] at hstep
      cases hstep
  | ok r =>
      rw [hparse] at hstep
      obtain ⟨hfrom, hr⟩ := Prod.mk.inj (Option.some.inj hstep)
      exact ⟨r, rfl, hfrom, hr, (parseRange_consistent askedQuery sampleNow).1 r hparse⟩

def minuteQuery : Query := fun name => if name = "step" then .str (units "60") else .undefined

def minuteRange : Range := ⟨1699996400000, 1700000000000, 60, .flows, .ts⟩

theorem minuteQuery_range : parseRange minuteQuery sampleNow = .ok minuteRange := by
  have hrange : (parseRange minuteQuery sampleNow).toOption = some minuteRange := by decide +kernel
  cases hparse : parseRange minuteQuery sampleNow with
  | error e =>
      rw [hparse] at hrange
      cases hrange
  | ok r =>
      rw [hparse] at hrange
      exact congrArg Except.ok (Option.some.inj hrange)

structure Aligned (r : Range) : Prop where
  order : r.fromMs < r.toMs
  nonneg : 0 ≤ r.fromMs
  high : r.toMs < 2 ^ 53
  offered : Offered r.step
  whole : r.step * 1000 ∣ r.fromMs
  source : (r.table = .flows ∧ r.col = .ts) ∨ (r.table = .flows1m ∧ r.col = .minute ∧ 60 ∣ r.step)

theorem parse_nonneg {q : Query} {now : Now} {r : Range} (h : parseRange q now = .ok r) (hto : 3600000 ≤ r.toMs) :
    0 ≤ (alignRange r).fromMs := by
  obtain ⟨hsound, -, hfromMs, -⟩ := parseRange_sound h
  obtain ⟨-, from?, -, -, hfrom, -, -, -⟩ := parseRange_ok h
  obtain ⟨rfl, -, hbounds⟩ := intParam_ok le_rfl hfrom
  have hpos := hsound.offered.pos
  have hdefault : defaultSpan = 3600000 := by decide
  have hnonneg : 0 ≤ r.fromMs := by
    rw [hfromMs]
    refine le_max_of_le_left ?_
    cases hreq : requested q "from" with
    | none => rw [Option.getD_none]; omega
    | some n => exact (hbounds n hreq).2
  rw [align_fromMs hsound]
  exact mul_nonneg (Int.ediv_nonneg hnonneg (by omega)) (by omega)

theorem parse_aligned {q : Query} {now : Now} {r : Range} (h : parseRange q now = .ok r)
    (hnonneg : 0 ≤ (alignRange r).fromMs) : Aligned (alignRange r) := by
  obtain ⟨hsound, -, -, -⟩ := parseRange_sound h
  refine ⟨(align_bounds hsound).1.trans_lt hsound.order, hnonneg, hsound.high, hsound.offered, ?_, ?_⟩
  · rw [align_fromMs hsound]
    exact Dvd.intro_left _ rfl
  · rcases hsound.source with ⟨htable, hcol, -⟩ | ⟨htable, hcol, -, hminutes⟩
    · exact .inl ⟨htable, hcol⟩
    · exact .inr ⟨htable, hcol, hminutes⟩

def grid (r : Range) : List ℤ := bucketStarts r.fromMs (fl (r.step * 1000)) (bucketCount r)

section Buckets

def windowCount (fromMs toMs step : ℤ) : ℤ := max 1 (ceilDiv (fl (toMs - fromMs)) (step * 1000))

/-- A window that is divided into steps: the common part of a range and of the
earlier window it is compared with. -/
structure Window (fromMs toMs step : ℤ) : Prop where
  order : fromMs < toMs
  nonneg : 0 ≤ fromMs
  high : toMs < 2 ^ 53
  offered : Offered step
  whole : step * 1000 ∣ fromMs

theorem Aligned.window {r : Range} (h : Aligned r) : Window r.fromMs r.toMs r.step :=
  ⟨h.order, h.nonneg, h.high, h.offered, h.whole⟩

variable {fromMs toMs step : ℤ} (h : Window fromMs toMs step)
include h

theorem Window.pos : 0 < step * 1000 := by
  have hpos := h.offered.pos
  omega

theorem Window.count : 1 ≤ windowCount fromMs toMs step ∧
    fromMs + (windowCount fromMs toMs step - 1) * (step * 1000) < toMs ∧
    toMs ≤ fromMs + windowCount fromMs toMs step * (step * 1000) := by
  have horder := h.order
  have hnonneg := h.nonneg
  have hhigh := h.high
  have hD : fl (toMs - fromMs) = toMs - fromMs := fl_small (abs_le.mpr ⟨by omega, by omega⟩)
  have hle := fun m => ceilDiv_le_iff (m := m) (abs_lt.mpr ⟨by omega, by omega⟩ : |toMs - fromMs| < 2 ^ 53) h.pos
  rw [windowCount, hD]
  set c := ceilDiv (toMs - fromMs) (step * 1000)
  have hone : 1 ≤ c := by
    by_contra hlt
    have hzero := (hle 0).mp (by omega)
    omega
  have hlower : ¬ toMs - fromMs ≤ (c - 1) * (step * 1000) := by
    rw [← hle]
    omega
  have hupper := (hle c).mp le_rfl
  rw [max_eq_right hone]
  exact ⟨hone, by omega, by omega⟩

theorem Window.fl_bound {i : ℤ} (hi : 0 ≤ i) (hlt : fromMs + (i - 1) * (step * 1000) < toMs) :
    fl (fromMs + i * (step * 1000)) = fromMs + i * (step * 1000) := by
  have hnonneg := h.nonneg
  have hhigh := h.high
  have hpos := h.pos
  obtain ⟨c, hc⟩ := h.whole
  have hmul : fromMs + i * (step * 1000) = (c + i) * (step * 1000) := by rw [hc]; ring
  have hprev : (i - 1) * (step * 1000) = i * (step * 1000) - step * 1000 := by ring
  have hprod : 0 ≤ i * (step * 1000) := mul_nonneg hi hpos.le
  rw [hmul]
  apply h.offered.fl_mul
  rw [← hmul, abs_of_nonneg (by omega)]
  omega

theorem Window.fl_offset {i : ℤ} (hi : 0 ≤ i) (hlt : fromMs + (i - 1) * (step * 1000) < toMs) :
    fl (i * (step * 1000)) = i * (step * 1000) := by
  have hnonneg := h.nonneg
  have hhigh := h.high
  have hpos := h.pos
  have hprev : (i - 1) * (step * 1000) = i * (step * 1000) - step * 1000 := by ring
  have hprod : 0 ≤ i * (step * 1000) := mul_nonneg hi hpos.le
  apply h.offered.fl_mul
  rw [abs_of_nonneg hprod]
  omega

theorem Window.start_lt {i : ℤ} (hi : i < windowCount fromMs toMs step) : fromMs + i * (step * 1000) < toMs := by
  obtain ⟨-, hlast, -⟩ := h.count
  have hmono : i * (step * 1000) ≤ (windowCount fromMs toMs step - 1) * (step * 1000) :=
    mul_le_mul_of_nonneg_right (by omega) h.pos.le
  exact lt_of_le_of_lt (by omega) hlast

theorem Window.fl_end {i : ℕ} (hi : (i : ℤ) < windowCount fromMs toMs step) :
    fl (fromMs + i * (step * 1000) + step * 1000) = fromMs + i * (step * 1000) + step * 1000 := by
  have hnext : fromMs + i * (step * 1000) + step * 1000 = fromMs + (i + 1) * (step * 1000) := by ring
  rw [hnext]
  exact h.fl_bound (by omega) (by rw [add_sub_cancel_right]; exact h.start_lt hi)

theorem Window.last_bucket :
    ∃ i : ℕ, (i : ℤ) < windowCount fromMs toMs step ∧ toMs ≤ fromMs + i * (step * 1000) + step * 1000 := by
  obtain ⟨hone, -, hcover⟩ := h.count
  obtain ⟨i, hi⟩ := Int.eq_ofNat_of_zero_le (sub_nonneg.mpr hone)
  have hnext : fromMs + i * (step * 1000) + step * 1000 = fromMs + windowCount fromMs toMs step * (step * 1000) := by
    rw [← hi]
    ring
  exact ⟨i, by omega, by rwa [hnext]⟩

theorem Window.starts : bucketStarts fromMs (step * 1000) (windowCount fromMs toMs step) =
    (List.range (windowCount fromMs toMs step).toNat).map fun i : ℕ => fromMs + i * (step * 1000) := by
  apply List.map_congr_left
  intro i hi
  have hlt : (i : ℤ) < windowCount fromMs toMs step := by
    rw [List.mem_range] at hi
    omega
  have hprev := h.start_lt (i := i - 1) (by omega)
  rw [h.fl_offset (Int.natCast_nonneg i) hprev, h.fl_bound (Int.natCast_nonneg i) hprev]

theorem Window.mem_starts {t : ℤ} : t ∈ bucketStarts fromMs (step * 1000) (windowCount fromMs toMs step) ↔
    ∃ i : ℕ, (i : ℤ) < windowCount fromMs toMs step ∧ t = fromMs + i * (step * 1000) := by
  rw [h.starts, List.mem_map]
  constructor
  · rintro ⟨i, hi, rfl⟩
    exact ⟨i, by rw [List.mem_range] at hi; omega, rfl⟩
  · rintro ⟨i, hi, rfl⟩
    exact ⟨i, List.mem_range.mpr (by omega), rfl⟩

/-- A time of the window falls into one of its buckets, and a row of that bucket is
put there. -/
theorem Window.index {time t : ℤ} (hlow : fromMs ≤ time) (hhigh : time < toMs)
    (ht : t * 1000 = time / (step * 1000) * (step * 1000)) : ∃ i : ℕ, (i : ℤ) < windowCount fromMs toMs step ∧
      bucketIndex fromMs (step * 1000) (windowCount fromMs toMs step) t = some i ∧
      fromMs + i * (step * 1000) ≤ time ∧ time < fromMs + (i + 1) * (step * 1000) := by
  have hnonneg := h.nonneg
  have hmax := h.high
  have hpos := h.pos
  obtain ⟨c, hc⟩ := h.whole
  obtain ⟨-, -, hcover⟩ := h.count
  have hdiv := Int.mul_ediv_add_emod time (step * 1000)
  have hmod := Int.emod_nonneg time hpos.ne'
  have hmod' := Int.emod_lt_of_pos time hpos
  rw [mul_comm] at hdiv
  have hge : c ≤ time / (step * 1000) := by
    rw [Int.le_ediv_iff_mul_le hpos, mul_comm, ← hc]
    exact hlow
  obtain ⟨i, hi⟩ := Int.eq_ofNat_of_zero_le (sub_nonneg.mpr hge)
  have hoffset : t * 1000 - fromMs = i * (step * 1000) := by
    rw [ht, hc, ← hi]
    ring
  have hprod : 0 ≤ (i : ℤ) * (step * 1000) := mul_nonneg (Int.natCast_nonneg i) hpos.le
  have hnext : ((i : ℤ) + 1) * (step * 1000) = i * (step * 1000) + step * 1000 := by ring
  have hlt : (i : ℤ) < windowCount fromMs toMs step := by
    by_contra hle
    have hmono : windowCount fromMs toMs step * (step * 1000) ≤ i * (step * 1000) :=
      mul_le_mul_of_nonneg_right (not_lt.mp hle) hpos.le
    omega
  have hsmall : |(i : ℤ)| ≤ 2 ^ 53 := by
    have hself : (i : ℤ) * 1 ≤ i * (step * 1000) := mul_le_mul_of_nonneg_left (by omega) (Int.natCast_nonneg i)
    rw [abs_of_nonneg (Int.natCast_nonneg i)]
    omega
  refine ⟨i, hlt, ?_, by omega, by omega⟩
  have htime : fl (t * 1000) = t * 1000 := fl_small (abs_le.mpr ⟨by omega, by omega⟩)
  have hdiff : fl (t * 1000 - fromMs) = t * 1000 - fromMs := fl_small (abs_le.mpr ⟨by omega, by omega⟩)
  have hround : roundDiv (fl (fl (t * 1000) - fromMs)) (step * 1000) = i := by
    rw [htime, hdiff, hoffset, roundDiv_mul hpos hsmall]
  rw [bucketIndex, hround, if_neg (by omega), Int.toNat_natCast]

theorem Window.index_iff {time t : ℤ} (hlow : fromMs ≤ time) (hhigh : time < toMs)
    (ht : t * 1000 = time / (step * 1000) * (step * 1000)) (i : ℕ) :
    bucketIndex fromMs (step * 1000) (windowCount fromMs toMs step) t = some i ↔
      fromMs + i * (step * 1000) ≤ time ∧ time < fromMs + (i + 1) * (step * 1000) := by
  obtain ⟨j, -, hj, hge, hlt⟩ := h.index hlow hhigh ht
  rw [hj, Option.some.injEq]
  constructor
  · rintro rfl
    exact ⟨hge, hlt⟩
  · rintro ⟨hge', hlt'⟩
    have hpos := h.pos
    have hle : ∀ a b : ℕ, fromMs + a * (step * 1000) ≤ time → time < fromMs + (b + 1) * (step * 1000) → a ≤ b := by
      intro a b ha hb
      have hmul : (a : ℤ) * (step * 1000) < (b + 1) * (step * 1000) := by omega
      have hlt := lt_of_mul_lt_mul_right hmul hpos.le
      omega
    exact le_antisymm (hle j i hge hlt') (hle i j hge' hlt)

end Buckets

def firstMinute (ms : ℤ) : ℤ := (ms + 59999) / 60000

theorem minuteEnd_eq {toMs : ℤ} (hlow : 0 ≤ toMs) (hhigh : toMs < 2 ^ 53) :
    fl (ceilDiv toMs 60000 * 60000) = firstMinute toMs * 60000 := by
  have hceil : ceilDiv toMs 60000 = firstMinute toMs := by
    apply eq_of_forall_ge_iff
    intro m
    rw [ceilDiv_le_iff (abs_lt.mpr ⟨by omega, hhigh⟩) (by norm_num), firstMinute]
    omega
  have hsplit : firstMinute toMs * 60000 = firstMinute toMs * 30000 * 2 ^ 1 := by ring
  have hbound : 0 ≤ firstMinute toMs ∧ firstMinute toMs * 60000 < toMs + 60000 := by
    rw [firstMinute]
    omega
  rw [hceil, hsplit]
  exact fl_exact (abs_le.mpr ⟨by omega, by omega⟩) 1

theorem minutes_div {ms : ℤ} (hlow : 0 ≤ ms) (hhigh : ms ≤ 2 ^ 53 + 60000) (hwhole : 60000 ∣ ms) :
    Binary64.div (fl ms) 1000 = ((60 * (ms / 60000) : ℤ) : ℚ) := by
  obtain ⟨k, rfl⟩ := hwhole
  have hexact : fl (60000 * k) = 60 * k * 1000 := by
    have hsplit : 60000 * k = 30000 * k * 2 ^ 1 := by ring
    rw [hsplit, fl_exact (abs_le.mpr ⟨by omega, by omega⟩) 1]
    ring
  have hdiv := div_of_mul (b := 1000) (m := 60 * k) (by norm_num) (abs_le.mpr ⟨by omega, by omega⟩)
  rw [hexact, Int.mul_ediv_cancel_left _ (by norm_num)]
  exact_mod_cast hdiv

section Ranges

variable {r : Range} (h : Aligned r)
include h

theorem Aligned.bucketCount_eq : bucketCount r = windowCount r.fromMs r.toMs r.step := by
  rw [bucketCount, h.offered.fl_stepMs, windowCount]

theorem Aligned.grid_eq : grid r = bucketStarts r.fromMs (r.step * 1000) (windowCount r.fromMs r.toMs r.step) := by
  rw [grid, h.bucketCount_eq, h.offered.fl_stepMs]

theorem Aligned.mem_grid {t : ℤ} :
    t ∈ grid r ↔ ∃ i : ℕ, (i : ℤ) < bucketCount r ∧ t = r.fromMs + i * (r.step * 1000) := by
  rw [h.grid_eq, h.window.mem_starts, h.bucketCount_eq]

end Ranges

end NetWatch.History.Grid
