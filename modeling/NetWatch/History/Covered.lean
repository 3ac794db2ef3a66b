import NetWatch.History.Ghost

namespace NetWatch.History.Covered

open Lib Lib.JsNumber Lib.JsValue Ranges Throughput Grid Ghost

def minutes (lo hi : ℤ) : List ℤ :=
  (List.range (firstMinute hi - firstMinute lo).toNat).map fun i : ℕ => (firstMinute lo + i) * 60

section Minutes

variable {lo hi : ℤ}

theorem mem_minutes {m : ℤ} : m ∈ minutes lo hi ↔ 60 ∣ m ∧ lo ≤ m * 1000 ∧ m * 1000 < hi := by
  rw [minutes, List.mem_map]
  constructor
  · rintro ⟨i, hi, rfl⟩
    rw [List.mem_range, firstMinute, firstMinute] at hi
    rw [firstMinute]
    omega
  · rintro ⟨⟨k, rfl⟩, hlow, hhigh⟩
    obtain ⟨i, hi⟩ : ∃ i : ℕ, k - firstMinute lo = i := by
      apply Int.eq_ofNat_of_zero_le
      rw [firstMinute]
      omega
    rw [firstMinute] at hi
    refine ⟨i, ?_, ?_⟩
    · rw [List.mem_range, firstMinute, firstMinute]
      omega
    · rw [firstMinute]
      omega

theorem nodup_minutes : (minutes lo hi).Nodup := by
  refine List.nodup_range.map ?_
  intro i j hij
  dsimp only at hij
  omega

theorem length_filter_minutes {p : ℤ → Bool} (lo' hi' : ℤ)
    (hp : ∀ m ∈ minutes lo hi, p m = true ↔ lo' ≤ m * 1000 ∧ m * 1000 < hi') :
    ((minutes lo hi).filter p).length = (firstMinute (min hi hi') - firstMinute (max lo lo')).toNat := by
  have hperm : ((minutes lo hi).filter p).Perm (minutes (max lo lo') (min hi hi')) := by
    rw [List.perm_ext_iff_of_nodup (nodup_minutes.filter p) nodup_minutes]
    intro m
    rw [List.mem_filter, @mem_minutes (max lo lo')]
    constructor
    · rintro ⟨hmem, hm⟩
      obtain ⟨hwhole, hlow, hhigh⟩ := mem_minutes.mp hmem
      obtain ⟨hlow', hhigh'⟩ := (hp m hmem).mp hm
      exact ⟨hwhole, max_le hlow hlow', lt_min hhigh hhigh'⟩
    · rintro ⟨hwhole, hlow, hhigh⟩
      have hmem : m ∈ minutes lo hi :=
        mem_minutes.mpr ⟨hwhole, (le_max_left _ _).trans hlow, hhigh.trans_le (min_le_left _ _)⟩
      exact ⟨hmem, (hp m hmem).mpr ⟨(le_max_right _ _).trans hlow, hhigh.trans_le (min_le_right _ _)⟩⟩
  rw [hperm.length_eq, minutes, List.length_map, List.length_range]

end Minutes

/-- The end lies in the first second of a minute, but not on its start: the queries cut
that second off and with it the minute, which the divisors count. -/
def CutSecond (toMs : ℤ) : Prop := 1 ≤ toMs % 60000 ∧ toMs % 60000 ≤ 999
  deriving Decidable

theorem firstMinute_mul (m : ℤ) : firstMinute (60000 * m) = m := by
  rw [firstMinute]
  omega

theorem firstMinute_sub (ms m : ℤ) : firstMinute (ms - 60000 * m) = firstMinute ms - m := by
  rw [firstMinute, firstMinute]
  omega

theorem firstMinute_min (m ms : ℤ) : firstMinute (min (60000 * m) ms) = min m (firstMinute ms) := by
  rw [firstMinute, firstMinute]
  omega

/-- Without its part of a second, such an end loses a minute. -/
theorem firstMinute_cut (ms : ℤ) : firstMinute (ms / 1000 * 1000) = if CutSecond ms then firstMinute ms - 1 else firstMinute ms := by
  rw [firstMinute, firstMinute]
  split_ifs with hcut
  · rw [CutSecond] at hcut
    omega
  · rw [CutSecond] at hcut
    omega

theorem firstMinute_lt_iff (m ms : ℤ) : m < firstMinute ms ↔ 60000 * m < ms := by
  rw [firstMinute]
  omega

/-- The divisor of a bucket against its minutes. Only a bucket that reaches the end can
differ. -/
theorem divisor_iff {t S L toMs : ℤ} (ht : 60000 ∣ t) (hS : 60000 ∣ S) (hL : 60000 ∣ L) (hstart : t < toMs) (hcut : L < toMs)
    (hend : L < t + S) (hpos : 0 < S) :
    60 * ((min (t + S) (firstMinute toMs * 60000) - max t L) / 60000) =
        60 * ((firstMinute (min (t + S) (toMs / 1000 * 1000)) - firstMinute (max t L)).toNat : ℤ) ↔
      ¬ (CutSecond toMs ∧ toMs ≤ t + S) := by
  obtain ⟨a, rfl⟩ := ht
  obtain ⟨b, rfl⟩ := hS
  obtain ⟨c, rfl⟩ := hL
  have hmax : max (60000 * a) (60000 * c) = 60000 * max a c := by omega
  have hsum : 60000 * a + 60000 * b = 60000 * (a + b) := by ring
  have hminutes : (min (60000 * (a + b)) (firstMinute toMs * 60000) - 60000 * max a c) / 60000 =
      min (a + b) (firstMinute toMs) - max a c := by omega
  have ha := (firstMinute_lt_iff a toMs).mpr hstart
  have hc := (firstMinute_lt_iff c toMs).mpr hcut
  have hreach : toMs ≤ 60000 * (a + b) ↔ firstMinute toMs ≤ a + b := by
    rw [← not_lt, ← firstMinute_lt_iff, not_lt]
  rw [hsum, hmax, hminutes, firstMinute_min, firstMinute_mul, hreach, firstMinute_cut]
  split_ifs with hsecond
  · rw [and_iff_right hsecond]
    omega
  · rw [iff_true_right fun hboth => hsecond hboth.1]
    omega

def bucketMinutes (r : Range) (t : ℤ) : ℕ := ((minutes t (t + r.step * 1000)).filter (timeFilter r)).length

/-- The number of minutes that the query of the earlier window selects into a bucket and
that are not before the first minute. -/
def ghostMinutes (r : Range) (offset : CompareOffset) (first : FirstMinute) (t : ℤ) : ℕ :=
  let p := compareParams r offset
  ((minutes p.gFrom p.gTo).filter fun m => p.selects m && (p.bucket m * 1000 = t && first.ms ≤ m * 1000)).length

/-- Each bucket is divided by the time that its rows cover. -/
structure Exact (r : Range) (compare : Option (CompareOffset × FirstMinute)) : Prop where
  raw : r.table = .flows → coveredSeconds r (grid r) =
    (grid r).map fun t => Binary64.div ((min (t + r.step * 1000) r.toMs - max t r.fromMs : ℤ) : ℚ) 1000
  rollup : r.table = .flows1m → coveredSeconds r (grid r) = (grid r).map fun t => ((60 * bucketMinutes r t : ℤ) : ℚ)
  ghost : ∀ offset first, compare = some (offset, first) → ¬ fl (r.toMs - offset.ms) ≤ first.ms →
    ∀ t ∈ (ghostOf r offset first.ms).t, ¬ fl (t + (ghostOf r offset first.ms).stepMs) ≤ (ghostOf r offset first.ms).since →
      max 0 ((ghostOf r offset first.ms).seconds t) = ((60 * ghostMinutes r offset first t : ℤ) : ℚ)

section Range

variable {r : Range} (h : Aligned r)
include h

theorem covered_raw (htable : r.table = .flows) : coveredSeconds r (grid r) =
    (grid r).map fun t => Binary64.div ((min (t + r.step * 1000) r.toMs - max t r.fromMs : ℤ) : ℚ) 1000 := by
  have hnonneg := h.nonneg
  have hhigh := h.high
  have hpos := h.window.pos
  apply List.map_congr_left
  intro t ht
  obtain ⟨i, hi, rfl⟩ := h.mem_grid.mp ht
  rw [h.bucketCount_eq] at hi
  have hlt := h.window.start_lt hi
  have hprod : 0 ≤ (i : ℤ) * (r.step * 1000) := mul_nonneg (Int.natCast_nonneg i) hpos.le
  rw [if_pos htable, h.offered.fl_stepMs, h.window.fl_end hi, max_eq_left hlt.le, max_eq_left (by omega),
    fl_small (abs_le.mpr ⟨by omega, by omega⟩)]

theorem timeFilter_minute (hcol : r.col = .minute) (hwhole : 60000 ∣ r.fromMs) (m : ℤ) :
    timeFilter r m = true ↔ r.fromMs ≤ m * 1000 ∧ m * 1000 < r.toMs / 1000 * 1000 := by
  have hnonneg := h.nonneg
  have horder := h.order
  rw [timeFilter, hcol, Int.tdiv_eq_ediv_of_nonneg hnonneg, Int.tdiv_eq_ediv_of_nonneg (by omega)]
  simp only [Bool.and_eq_true, decide_eq_true_iff]
  omega

theorem covered_minutes (htable : r.table = .flows1m) (hcol : r.col = .minute) (hminutes : 60 ∣ r.step) {i : ℕ}
    (hi : (i : ℤ) < windowCount r.fromMs r.toMs r.step) :
    let t := r.fromMs + i * (r.step * 1000)
    coveredSeconds r [t] = [((60 * bucketMinutes r t : ℤ) : ℚ)] ↔ ¬ (CutSecond r.toMs ∧ r.toMs ≤ t + r.step * 1000) := by
  intro t
  have hnonneg := h.nonneg
  have hhigh := h.high
  have hpos := h.window.pos
  have hlt : t < r.toMs := h.window.start_lt hi
  have hprod : 0 ≤ (i : ℤ) * (r.step * 1000) := mul_nonneg (Int.natCast_nonneg i) hpos.le
  obtain ⟨c, hc⟩ := hminutes
  obtain ⟨d, hd⟩ := h.whole
  have hstep : 60000 ∣ r.step * 1000 := ⟨c, by rw [hc]; ring⟩
  have hfrom : 60000 ∣ r.fromMs := hstep.trans h.whole
  have ht : 60000 ∣ t := dvd_add hfrom (hstep.mul_left _)
  have hend : fl (t + r.step * 1000) = t + r.step * 1000 := h.window.fl_end hi
  have hseconds : coveredSeconds r [t] =
      [((60 * ((min (t + r.step * 1000) (firstMinute r.toMs * 60000) - max t r.fromMs) / 60000) : ℤ) : ℚ)] := by
    have hdata : r.toMs ≤ firstMinute r.toMs * 60000 ∧ firstMinute r.toMs * 60000 < r.toMs + 60000 := by
      rw [firstMinute]
      omega
    have hmax : max t r.fromMs = t := max_eq_left (by omega)
    have hdiv : 60000 ∣ min (t + r.step * 1000) (firstMinute r.toMs * 60000) - t := by omega
    rw [← minutes_div (by omega) (by omega) (by rwa [hmax]), hmax, coveredSeconds, List.map_singleton, h.offered.fl_stepMs,
      hend, if_neg (by simp [htable]), minuteEnd_eq (by omega) hhigh, max_eq_left (by omega)]
  have hcount : bucketMinutes r t =
      (firstMinute (min (t + r.step * 1000) (r.toMs / 1000 * 1000)) - firstMinute (max t r.fromMs)).toNat :=
    length_filter_minutes _ _ fun m _ => timeFilter_minute h hcol hfrom m
  rw [hseconds, hcount, List.cons.injEq, Int.cast_inj, and_iff_left rfl]
  exact divisor_iff ht hstep hfrom hlt h.order (by omega) hpos

theorem covered_rollup (htable : r.table = .flows1m) (hcol : r.col = .minute) (hminutes : 60 ∣ r.step) :
    coveredSeconds r (grid r) = (grid r).map (fun t => ((60 * bucketMinutes r t : ℤ) : ℚ)) ↔ ¬ CutSecond r.toMs := by
  have hbucket : ∀ i : ℕ, (i : ℤ) < bucketCount r → (coveredSeconds r [r.fromMs + i * (r.step * 1000)] =
      [((60 * bucketMinutes r (r.fromMs + i * (r.step * 1000)) : ℤ) : ℚ)] ↔
        ¬ (CutSecond r.toMs ∧ r.toMs ≤ r.fromMs + i * (r.step * 1000) + r.step * 1000)) := by
    intro i hi
    rw [h.bucketCount_eq] at hi
    exact covered_minutes h htable hcol hminutes hi
  rw [coveredSeconds, List.map_inj_left]
  constructor
  · intro hall hcut
    obtain ⟨i, hi, hend⟩ := h.window.last_bucket
    rw [← h.bucketCount_eq] at hi
    have hone := hall _ (h.mem_grid.mpr ⟨i, hi, rfl⟩)
    exact (hbucket i hi).mp (congrArg (fun x => [x]) hone) ⟨hcut, hend⟩
  · intro hcut t ht
    obtain ⟨i, hi, rfl⟩ := h.mem_grid.mp ht
    exact (List.cons.inj ((hbucket i hi).mpr fun hboth => hcut hboth.1)).1

end Range

section Ghosts

variable {r : Range} {offset : CompareOffset} {first : FirstMinute} (h : Aligned r)
  (hfirst : first.ms < r.toMs - offset.ms)
include h hfirst

theorem ghostMinutes_eq {i : ℕ} (hi : (i : ℤ) < windowCount (ghostFrom r) r.toMs (compareStep r)) :
    let t := ghostFrom r + i * (compareStep r * 1000)
    ghostMinutes r offset first t = (firstMinute (min (t + compareStep r * 1000) (r.toMs / 1000 * 1000)) -
      firstMinute (max t (first.ms + offset.ms))).toNat := by
  intro t
  have hnonneg := first.nonneg
  have hcases := offset_cases offset
  have hpos := (ghost_window h).pos
  have hlt : t < r.toMs := (ghost_window h).start_lt hi
  have hprod : 0 ≤ (i : ℤ) * (compareStep r * 1000) := mul_nonneg (Int.natCast_nonneg i) hpos.le
  obtain ⟨j, hj⟩ : compareStep r * 1000 ∣ t := dvd_add (Dvd.intro_left _ rfl) (Dvd.intro_left _ rfl)
  have hwhole : 60000 ∣ offset.ms := by omega
  obtain ⟨c, hc⟩ := hwhole
  have hbucket : ∀ m, (compareParams r offset).bucket m * 1000 = t ↔
      t ≤ m * 1000 + offset.ms ∧ m * 1000 + offset.ms < t + compareStep r * 1000 := by
    intro m
    rw [bucket_ms h, hj, mul_comm (compareStep r * 1000) j, mul_left_inj' hpos.ne', Int.ediv_eq_iff_of_pos hpos]
  have hcounted : ∀ m ∈ minutes (compareParams r offset).gFrom (compareParams r offset).gTo,
      ((compareParams r offset).selects m && ((compareParams r offset).bucket m * 1000 = t && first.ms ≤ m * 1000)) = true ↔
        max t (first.ms + offset.ms) - offset.ms ≤ m * 1000 ∧
          m * 1000 < min (t + compareStep r * 1000) (r.toMs / 1000 * 1000) - offset.ms := by
    intro m _
    rw [Bool.and_eq_true, Bool.and_eq_true, decide_eq_true_iff, decide_eq_true_iff, selects_iff h (by omega), hbucket]
    omega
  have hlow : max (ghostFrom r - offset.ms) (max t (first.ms + offset.ms) - offset.ms) =
      max t (first.ms + offset.ms) - offset.ms := by omega
  have hhigh : min (r.toMs - offset.ms) (min (t + compareStep r * 1000) (r.toMs / 1000 * 1000) - offset.ms) =
      min (t + compareStep r * 1000) (r.toMs / 1000 * 1000) - offset.ms := by omega
  rw [ghostMinutes, length_filter_minutes _ _ hcounted, params_eq h]
  dsimp only
  rw [hlow, hhigh, hc, firstMinute_sub, firstMinute_sub, sub_sub_sub_cancel_right]

theorem ghost_divisor {i : ℕ} (hi : (i : ℤ) < windowCount (ghostFrom r) r.toMs (compareStep r))
    (hnull : ¬ ghostFrom r + i * (compareStep r * 1000) + compareStep r * 1000 ≤ first.ms + offset.ms) :
    let t := ghostFrom r + i * (compareStep r * 1000)
    max 0 ((ghostOf r offset first.ms).seconds t) = ((60 * ghostMinutes r offset first t : ℤ) : ℚ) ↔
      ¬ (CutSecond r.toMs ∧ r.toMs ≤ t + compareStep r * 1000) := by
  intro t
  have hcases := offset_cases offset
  obtain ⟨hseconds, hlower⟩ := ghost_seconds h hfirst hi hnull
  obtain ⟨c, hc⟩ := compareStep_minutes h
  have hstep : 60000 ∣ compareStep r * 1000 := ⟨c, by rw [hc]; ring⟩
  have hwhole : 60000 ∣ offset.ms := by omega
  rw [hseconds, ghostMinutes_eq h hfirst hi, max_eq_right (by exact_mod_cast (by omega)), Int.cast_inj]
  exact divisor_iff (dvd_add (ghostFrom_minutes h) (hstep.mul_left _)) hstep (dvd_add first.minutes hwhole)
    ((ghost_window h).start_lt hi) (by omega) (not_le.mp hnull) (ghost_window h).pos

theorem ghost_covered : (∀ t ∈ (ghostOf r offset first.ms).t,
      ¬ fl (t + (ghostOf r offset first.ms).stepMs) ≤ (ghostOf r offset first.ms).since →
        max 0 ((ghostOf r offset first.ms).seconds t) = ((60 * ghostMinutes r offset first t : ℤ) : ℚ)) ↔
    ¬ CutSecond r.toMs := by
  have hstep : (ghostOf r offset first.ms).stepMs = compareStep r * 1000 := by rw [ghost_eq h hfirst]
  have hmem : ∀ {t}, t ∈ (ghostOf r offset first.ms).t ↔
      ∃ i : ℕ, (i : ℤ) < windowCount (ghostFrom r) r.toMs (compareStep r) ∧ t = ghostFrom r + i * (compareStep r * 1000) := by
    intro t
    rw [Ghost.t, ghost_eq h hfirst]
    exact (ghost_window h).mem_starts
  rw [hstep]
  constructor
  · intro hall hcut
    obtain ⟨i, hi, hend⟩ := (ghost_window h).last_bucket
    have hnull : ¬ ghostFrom r + i * (compareStep r * 1000) + compareStep r * 1000 ≤ first.ms + offset.ms := by omega
    have hone := hall _ (hmem.mpr ⟨i, hi, rfl⟩) (mt (ghost_null h hfirst hi).mp hnull)
    exact (ghost_divisor h hfirst hi hnull).mp hone ⟨hcut, hend⟩
  · intro hcut t ht hnull
    obtain ⟨i, hi, rfl⟩ := hmem.mp ht
    exact (ghost_divisor h hfirst hi (mt (ghost_null h hfirst hi).mpr hnull)).mpr fun hboth => hcut hboth.1

end Ghosts

/-- The buckets are divided by the time they cover, unless the end lies in the first
second of a minute and a divisor of whole minutes is needed. -/
theorem exact_iff {q : Query} {now : Now} {r₀ : Range} (hparse : parseRange q now = .ok r₀)
    (hnonneg : 0 ≤ (alignRange r₀).fromMs) (compare : Option (CompareOffset × FirstMinute)) :
    Exact (alignRange r₀) compare ↔ ¬ (CutSecond r₀.toMs ∧ (r₀.table = .flows1m ∨
      ∃ offset first, compare = some (offset, first) ∧ first.ms < r₀.toMs - offset.ms)) := by
  have h := parse_aligned hparse hnonneg
  have hto : (alignRange r₀).toMs = r₀.toMs := rfl
  have htable : (alignRange r₀).table = r₀.table := rfl
  have hwindow : ∀ offset : CompareOffset, fl (r₀.toMs - offset.ms) = r₀.toMs - offset.ms := by
    intro offset
    have hcases := offset_cases offset
    have horder := h.order
    have hhigh := h.high
    exact fl_small (abs_le.mpr ⟨by omega, by omega⟩)
  constructor
  · rintro hexact ⟨hcut, hrollup | ⟨offset, first, hcompare, hfirst⟩⟩
    · rcases h.source with ⟨hflows, -⟩ | ⟨-, hcol, hminutes⟩
      · exact absurd (hflows.symm.trans hrollup) nofun
      · exact (covered_rollup h hrollup hcol hminutes).mp (hexact.rollup hrollup) hcut
    · refine (ghost_covered h hfirst).mp (hexact.ghost offset first hcompare ?_) hcut
      rw [hto, hwindow]
      exact not_le.mpr hfirst
  · intro hcond
    refine ⟨covered_raw h, ?_, ?_⟩
    · intro hrollup
      rcases h.source with ⟨hflows, -⟩ | ⟨-, hcol, hminutes⟩
      · exact absurd (hflows.symm.trans hrollup) nofun
      · exact (covered_rollup h hrollup hcol hminutes).mpr fun hcut => hcond ⟨hcut, .inl hrollup⟩
    · intro offset first hcompare hnone
      rw [hto, hwindow, not_le] at hnone
      exact (ghost_covered h hnone).mpr fun hcut => hcond ⟨hcut, .inr ⟨offset, first, hcompare, hnone⟩⟩

theorem exact_iff_sample : ∃ r₀, parseRange emptyQuery sampleNow = .ok r₀ ∧ 0 ≤ (alignRange r₀).fromMs ∧
    Exact (alignRange r₀) (some (.day, sampleFirst)) := by
  obtain ⟨r₀, hparse, hconsistent⟩ := emptyQuery_range
  have hto : r₀.toMs = 1700000000000 := hconsistent.toMs
  have hnonneg := parse_nonneg hparse (by omega)
  refine ⟨r₀, hparse, hnonneg, (exact_iff hparse hnonneg _).mpr ?_⟩
  rw [CutSecond]
  omega

/-- From the epoch to one millisecond after 02:01. -/
def earlyQuery : Query := fun name =>
  if name = "from" then .str (units "0") else if name = "to" then .str (units "7260001") else .undefined

def earlyRange : Range := ⟨0, 7260001, 60, .flows1m, .minute⟩

/-- The last bucket of that range holds no minute and is divided by a minute. -/
theorem cut_second_diverges : parseRange earlyQuery sampleNow = .ok earlyRange ∧ 0 ≤ (alignRange earlyRange).fromMs ∧
    coveredSeconds (alignRange earlyRange) [7260000] = [60] ∧ bucketMinutes (alignRange earlyRange) 7260000 = 0 ∧
    ¬ Exact (alignRange earlyRange) none := by
  have hparse : parseRange earlyQuery sampleNow = .ok earlyRange := by
    have hsome : (parseRange earlyQuery sampleNow).toOption = some earlyRange := by decide +kernel
    cases hrange : parseRange earlyQuery sampleNow with
    | error e =>
        rw [hrange] at hsome
        cases hsome
    | ok r =>
        rw [hrange] at hsome
        exact congrArg _ (Option.some.inj hsome)
  have hnonneg : 0 ≤ (alignRange earlyRange).fromMs := by decide +kernel
  have h := parse_aligned hparse hnonneg
  refine ⟨hparse, hnonneg, by decide +kernel, by decide +kernel, fun hexact => ?_⟩
  exact (covered_rollup h rfl rfl ⟨1, rfl⟩).mp (hexact.rollup rfl) (by decide)

end NetWatch.History.Covered
