import NetWatch.History.Grid

namespace NetWatch.History.Ghost

open Lib Lib.Buckets Lib.JsNumber Ranges Throughput Grid

/-- The first minute of `flows_1m`, as `toUnixTimestamp` gives it. -/
structure FirstMinute where
  seconds : UInt32
  whole : 60 ∣ seconds.toNat

def FirstMinute.ms (f : FirstMinute) : ℤ := f.seconds.toNat * 1000

theorem FirstMinute.nonneg (f : FirstMinute) : 0 ≤ f.ms := by
  rw [FirstMinute.ms]
  omega

theorem FirstMinute.minutes (f : FirstMinute) : 60000 ∣ f.ms := by
  obtain ⟨k, hk⟩ := f.whole
  refine ⟨k, ?_⟩
  rw [FirstMinute.ms, hk]
  push_cast
  ring

theorem offset_cases (offset : CompareOffset) : offset.ms = 86400000 ∨ offset.ms = 604800000 := by
  cases offset with
  | day => exact .inl rfl
  | week => exact .inr rfl

section Step

variable {r : Range} (h : Aligned r)
include h

theorem compareStep_eq : compareStep r = max 60 r.step := by
  rw [compareStep]
  by_cases hle : 60 ≤ r.step
  · rw [minuteStep_eq h.offered hle]
  · have hnice : r.step ∈ niceSteps := by
      rcases h.offered with hnice | ⟨k, hk, -, hstep⟩
      · exact hnice
      · omega
    have hsmall : ∀ s ∈ niceSteps, s < 60 → max 60 (fl (ceilDiv s 60 * 60)) = max 60 s := by decide +kernel
    exact hsmall r.step hnice (not_le.mp hle)

theorem compareStep_offered : Offered (compareStep r) := by
  rw [compareStep_eq h]
  rcases max_choice 60 r.step with hmax | hmax
  · rw [hmax]
    exact .inl (by decide)
  · rw [hmax]
    exact h.offered

theorem compareStep_minutes : 60 ∣ compareStep r :=
  (compareStep_offered h).minutes (by rw [compareStep_eq h]; exact le_max_left _ _)

def ghostFrom (r : Range) : ℤ := r.fromMs / (compareStep r * 1000) * (compareStep r * 1000)

theorem ghostFrom_bounds : 0 ≤ ghostFrom r ∧ ghostFrom r ≤ r.fromMs ∧ r.fromMs < ghostFrom r + compareStep r * 1000 := by
  have hpos := (compareStep_offered h).pos
  have hS : 0 < compareStep r * 1000 := by omega
  have hdiv := Int.mul_ediv_add_emod r.fromMs (compareStep r * 1000)
  have hmod := Int.emod_nonneg r.fromMs hS.ne'
  have hmod' := Int.emod_lt_of_pos r.fromMs hS
  have hquot := mul_nonneg (Int.ediv_nonneg h.nonneg hS.le) hS.le
  rw [mul_comm] at hdiv
  refine ⟨hquot, ?_, ?_⟩
  · rw [ghostFrom]
    omega
  · rw [ghostFrom]
    omega

theorem ghost_window : Window (ghostFrom r) r.toMs (compareStep r) := by
  obtain ⟨hnonneg, hle, -⟩ := ghostFrom_bounds h
  exact ⟨hle.trans_lt h.order, hnonneg, h.high, compareStep_offered h, Dvd.intro_left _ rfl⟩

theorem ghostFrom_minutes : 60000 ∣ ghostFrom r := by
  obtain ⟨k, hk⟩ := compareStep_minutes h
  refine ⟨r.fromMs / (compareStep r * 1000) * k, ?_⟩
  rw [ghostFrom, hk]
  ring

theorem floorDiv_ghost : floorDiv r.fromMs (compareStep r * 1000) = r.fromMs / (compareStep r * 1000) := by
  have hpos := (compareStep_offered h).pos
  have horder := h.order
  have hnonneg := h.nonneg
  have hhigh := h.high
  exact floorDiv_eq (abs_lt.mpr ⟨by omega, by omega⟩) (by omega)

theorem params_eq (offset : CompareOffset) : compareParams r offset =
    ⟨ghostFrom r - offset.ms, r.toMs - offset.ms, compareStep r, offset.ms / 1000⟩ := by
  have horder := h.order
  have hnonneg := h.nonneg
  have hhigh := h.high
  have hoffset := offset_cases offset
  obtain ⟨hfrom, hle, -⟩ := ghostFrom_bounds h
  have hsplit : r.fromMs / (compareStep r * 1000) * compareStep r * 1000 = ghostFrom r := by
    rw [ghostFrom]
    ring
  have hseconds : fl (r.fromMs / (compareStep r * 1000) * compareStep r) = r.fromMs / (compareStep r * 1000) * compareStep r :=
    fl_small (abs_le.mpr ⟨by omega, by omega⟩)
  have hstart : fl (ghostFrom r) = ghostFrom r := fl_small (abs_le.mpr ⟨by omega, by omega⟩)
  have hgFrom : fl (ghostFrom r - offset.ms) = ghostFrom r - offset.ms := fl_small (abs_le.mpr ⟨by omega, by omega⟩)
  have hgTo : fl (r.toMs - offset.ms) = r.toMs - offset.ms := fl_small (abs_le.mpr ⟨by omega, by omega⟩)
  simp only [compareParams, (compareStep_offered h).fl_stepMs, floorDiv_ghost h, hseconds, hsplit, hstart, hgFrom, hgTo]

theorem ghost_eq {offset : CompareOffset} {first : FirstMinute} (hfirst : first.ms < r.toMs - offset.ms) :
    ghostOf r offset first.ms =
      { step := compareStep r
        stepMs := compareStep r * 1000
        fromMs := ghostFrom r
        n := windowCount (ghostFrom r) r.toMs (compareStep r)
        since := max (ghostFrom r) (first.ms + offset.ms)
        dataEnd := firstMinute r.toMs * 60000 } := by
  have hhigh := h.high
  have hoffset := offset_cases offset
  have hnonneg := first.nonneg
  have hstart : fl (r.fromMs / (compareStep r * 1000) * (compareStep r * 1000)) = ghostFrom r := by
    have hbounds := ghostFrom_bounds h
    have horder := h.order
    exact fl_small (abs_le.mpr ⟨by rw [← ghostFrom]; omega, by rw [← ghostFrom]; omega⟩)
  have hsince : fl (first.ms + offset.ms) = first.ms + offset.ms := fl_small (abs_le.mpr ⟨by omega, by omega⟩)
  have hend := minuteEnd_eq (h.nonneg.trans h.order.le) hhigh
  simp only [ghostOf, (compareStep_offered h).fl_stepMs, floorDiv_ghost h, hsince, hend, hstart, windowCount]

/-- The minutes that the query takes, shifted into the range. -/
theorem selects_iff {offset : CompareOffset} (hoffset : offset.ms ≤ r.toMs) (m : ℤ) :
    (compareParams r offset).selects m = true ↔
      ghostFrom r ≤ m * 1000 + offset.ms ∧ m * 1000 + offset.ms < r.toMs / 1000 * 1000 := by
  obtain ⟨k, hk⟩ := ghostFrom_minutes h
  have hcases := offset_cases offset
  have hto : (r.toMs - offset.ms).tdiv 1000 = (r.toMs - offset.ms) / 1000 := Int.tdiv_eq_ediv_of_nonneg (by omega)
  have hfrom : (ghostFrom r - offset.ms).tdiv 1000 = 60 * k - offset.ms / 1000 := by
    have hmul : ghostFrom r - offset.ms = 1000 * (60 * k - offset.ms / 1000) := by omega
    rw [hmul, Int.mul_tdiv_cancel_left _ (by norm_num)]
  rw [params_eq h, CompareParams.selects, Bool.and_eq_true, decide_eq_true_iff, decide_eq_true_iff, hto, hfrom]
  omega

theorem bucket_ms (offset : CompareOffset) (m : ℤ) : (compareParams r offset).bucket m * 1000 =
    (m * 1000 + offset.ms) / (compareStep r * 1000) * (compareStep r * 1000) := by
  have hcases := offset_cases offset
  have htime : m * 1000 + offset.ms = (m + offset.ms / 1000) * 1000 := by omega
  rw [params_eq h, CompareParams.bucket, htime, Int.mul_ediv_mul_of_pos_left _ _ (by norm_num)]
  ring

end Step

section Answer

variable {r : Range} {offset : CompareOffset} {first : FirstMinute} {stored : List MinuteRow} {rows : List CompareRow}

def bucketRows (r : Range) (offset : CompareOffset) (t : ℤ) (stored : List MinuteRow) : List MinuteRow :=
  stored.filter fun s => (compareParams r offset).selects s.minute &&
    (t ≤ s.minute * 1000 + offset.ms && s.minute * 1000 + offset.ms < t + compareStep r * 1000)

theorem toMs_floor_le {ms : ℤ} : ms / 1000 * 1000 ≤ ms := Int.ediv_mul_le ms (by norm_num)

theorem bucket_total (h : Aligned r) (hoffset : offset.ms ≤ r.toMs) (hrows : rows.Perm (compareQuery r offset stored)) (i : ℕ) :
    total (fun row => (row.tx, row.rx)) (inBucket (fun row => bucketIndex (ghostFrom r) (compareStep r * 1000)
        (windowCount (ghostFrom r) r.toMs (compareStep r)) row.t) i rows) =
      total (fun s => (s.tx, s.rx)) (bucketRows r offset (ghostFrom r + i * (compareStep r * 1000)) stored) := by
  let index (t : ℤ) : Option ℕ :=
    bucketIndex (ghostFrom r) (compareStep r * 1000) (windowCount (ghostFrom r) r.toMs (compareStep r)) t
  have hquery : total (fun row : CompareRow => (row.tx, row.rx)) (inBucket (fun row => index row.t) i rows) =
      total Prod.snd ((groupSums (fun s => (compareParams r offset).bucket s.minute) (fun s : MinuteRow => (s.tx, s.rx))
        (stored.filter fun s => (compareParams r offset).selects s.minute)).filter fun e => index e.1 = some i) := by
    rw [inBucket, total_perm (hrows.filter _), compareQuery, List.filter_map, total_map]
    rfl
  rw [hquery, total_groups _ _ (fun t => index t = some i), List.filter_filter, bucketRows]
  congr 1
  apply List.filter_congr
  intro s _
  rw [Bool.and_comm]
  cases hs : (compareParams r offset).selects s.minute with
  | false => rfl
  | true =>
      obtain ⟨hlow, hhigh⟩ := (selects_iff h hoffset s.minute).mp hs
      have hiff := (ghost_window h).index_iff hlow (hhigh.trans_le toMs_floor_le) (bucket_ms h offset s.minute) i
      have hnext : ghostFrom r + (i + 1) * (compareStep r * 1000) =
          ghostFrom r + i * (compareStep r * 1000) + compareStep r * 1000 := by ring
      rw [Bool.true_and, Bool.true_and, Bool.eq_iff_iff, decide_eq_true_iff, Bool.and_eq_true, decide_eq_true_iff,
        decide_eq_true_iff, ← hnext]
      exact hiff

end Answer

section Seconds

variable {r : Range} {offset : CompareOffset} {first : FirstMinute} (h : Aligned r)
  (hfirst : first.ms < r.toMs - offset.ms)
include h hfirst

theorem ghost_null {i : ℕ} (hi : (i : ℤ) < windowCount (ghostFrom r) r.toMs (compareStep r)) :
    fl (ghostFrom r + i * (compareStep r * 1000) + compareStep r * 1000) ≤ (ghostOf r offset first.ms).since ↔
      ghostFrom r + i * (compareStep r * 1000) + compareStep r * 1000 ≤ first.ms + offset.ms := by
  have hpos := (ghost_window h).pos
  have hprod : 0 ≤ (i : ℤ) * (compareStep r * 1000) := mul_nonneg (Int.natCast_nonneg i) hpos.le
  rw [(ghost_window h).fl_end hi, ghost_eq h hfirst]
  dsimp only
  omega

theorem ghost_seconds {i : ℕ} (hi : (i : ℤ) < windowCount (ghostFrom r) r.toMs (compareStep r))
    (hnull : ¬ ghostFrom r + i * (compareStep r * 1000) + compareStep r * 1000 ≤ first.ms + offset.ms) :
    let t := ghostFrom r + i * (compareStep r * 1000)
    (ghostOf r offset first.ms).seconds t = ((60 * ((min (t + compareStep r * 1000) (firstMinute r.toMs * 60000) -
        max t (first.ms + offset.ms)) / 60000) : ℤ) : ℚ) ∧
      60000 ≤ min (t + compareStep r * 1000) (firstMinute r.toMs * 60000) - max t (first.ms + offset.ms) := by
  intro t
  have hhigh := h.high
  have hlt : t < r.toMs := (ghost_window h).start_lt hi
  have hpos := (ghost_window h).pos
  have hnonneg := (ghost_window h).nonneg
  have hprod : 0 ≤ (i : ℤ) * (compareStep r * 1000) := mul_nonneg (Int.natCast_nonneg i) hpos.le
  have htlow : ghostFrom r ≤ t := by omega
  obtain ⟨c, hc⟩ := compareStep_minutes h
  obtain ⟨d, hd⟩ := ghostFrom_minutes h
  obtain ⟨e, he⟩ := first.minutes
  have hcases := offset_cases offset
  have ht : t = 60000 * (d + i * c) := by
    simp only [t, hd, hc]
    ring
  have hend : r.toMs ≤ firstMinute r.toMs * 60000 ∧ firstMinute r.toMs * 60000 < r.toMs + 60000 := by
    rw [firstMinute]
    omega
  obtain ⟨u, hu⟩ : ∃ u, u = d + i * c := ⟨_, rfl⟩
  rw [← hu] at ht
  have hnull' : ¬ t + compareStep r * 1000 ≤ first.ms + offset.ms := hnull
  have hX : 60000 ∣ min (t + compareStep r * 1000) (firstMinute r.toMs * 60000) - max t (first.ms + offset.ms) := by
    omega
  have hlower : 60000 ≤ min (t + compareStep r * 1000) (firstMinute r.toMs * 60000) - max t (first.ms + offset.ms) := by
    omega
  refine ⟨?_, hlower⟩
  have hsince : max t (max (ghostFrom r) (first.ms + offset.ms)) = max t (first.ms + offset.ms) := by omega
  have hdata : max (firstMinute r.toMs * 60000) t = firstMinute r.toMs * 60000 := by omega
  have hfl : fl (t + compareStep r * 1000) = t + compareStep r * 1000 := (ghost_window h).fl_end hi
  rw [ghost_eq h hfirst, Ghost.seconds]
  dsimp only
  rw [hfl, hsince, hdata]
  exact minutes_div (by omega) (by omega) hX

end Seconds

/-- The earlier window as it is drawn over the range: its buckets are those of the
range's times, each holds the bytes of its minutes, and no bucket is divided by zero. -/
structure LinesUp (r : Range) (offset : CompareOffset) (first : FirstMinute) (stored : List MinuteRow)
    (c : ThroughputCompare) : Prop where
  grid : ∃ (t₀ : ℤ) (n : ℕ), 0 < n ∧ c.t = (List.range n).map (fun i : ℕ => t₀ + i * (c.step * 1000)) ∧
    t₀ ≤ r.fromMs ∧ r.fromMs < t₀ + c.step * 1000
  lengths : c.tx.length = c.t.length ∧ c.rx.length = c.t.length
  buckets : ∀ (i : ℕ) t, c.t[i]? = some t →
    c.tx[i]? = some (if t + c.step * 1000 ≤ first.ms + offset.ms then none
      else some (kbps (total MinuteRow.tx (bucketRows r offset t stored)) (max 0 ((ghostOf r offset first.ms).seconds t)))) ∧
    c.rx[i]? = some (if t + c.step * 1000 ≤ first.ms + offset.ms then none
      else some (kbps (total MinuteRow.rx (bucketRows r offset t stored)) (max 0 ((ghostOf r offset first.ms).seconds t))))
  divisor : ∀ t ∈ c.t, ¬ t + c.step * 1000 ≤ first.ms + offset.ms → 0 < (ghostOf r offset first.ms).seconds t
  kept : ∀ s ∈ stored, (compareParams r offset).selects s.minute = true → ∃ t ∈ c.t, s ∈ bucketRows r offset t stored

section LinesUp

variable {r : Range} {offset : CompareOffset} {first : FirstMinute} {stored : List MinuteRow} {rows : List CompareRow}
  (h : Aligned r) (hfirst : first.ms < r.toMs - offset.ms)
include h hfirst

theorem ghost_t : (ghostOf r offset first.ms).t = (List.range (windowCount (ghostFrom r) r.toMs (compareStep r)).toNat).map
    fun i : ℕ => ghostFrom r + i * (compareStep r * 1000) := by
  rw [Ghost.t, ghost_eq h hfirst]
  exact (ghost_window h).starts

theorem ghost_rate {bytes : List ℕ} {i b : ℕ} (hi : (i : ℤ) < windowCount (ghostFrom r) r.toMs (compareStep r))
    (hb : bytes[i]? = some b) :
    let t := ghostFrom r + i * (compareStep r * 1000)
    ((ghostOf r offset first.ms).rate bytes)[i]? =
      some (if t + compareStep r * 1000 ≤ first.ms + offset.ms then none
        else some (kbps b (max 0 ((ghostOf r offset first.ms).seconds t)))) := by
  intro t
  have ht : (ghostOf r offset first.ms).t[i]? = some t := by
    rw [ghost_t h hfirst, List.getElem?_map, List.getElem?_range (by omega)]
    rfl
  have hstep : (ghostOf r offset first.ms).stepMs = compareStep r * 1000 := by rw [ghost_eq h hfirst]
  rw [Ghost.rate, List.getElem?_zipWith, hb, ht]
  dsimp only
  congr 1
  rw [hstep]
  by_cases hnull : t + compareStep r * 1000 ≤ first.ms + offset.ms
  · rw [if_pos ((ghost_null h hfirst hi).mpr hnull), if_pos hnull]
  · rw [if_neg (mt (ghost_null h hfirst hi).mp hnull), if_neg hnull]

theorem ghost_bytes (hrows : rows.Perm (compareQuery r offset stored)) {i : ℕ}
    (hi : (i : ℤ) < windowCount (ghostFrom r) r.toMs (compareStep r)) :
    let g := ghostOf r offset first.ms
    let t := ghostFrom r + i * (compareStep r * 1000)
    (fill g.index CompareRow.tx g.n.toNat rows)[i]? = some (total MinuteRow.tx (bucketRows r offset t stored)) ∧
      (fill g.index CompareRow.rx g.n.toNat rows)[i]? = some (total MinuteRow.rx (bucketRows r offset t stored)) := by
  intro g t
  have hnonneg := first.nonneg
  have hg : g = _ := ghost_eq h hfirst
  have hn : g.n = windowCount (ghostFrom r) r.toMs (compareStep r) := by rw [hg]
  have htotal : total (fun row => (row.tx, row.rx)) (inBucket g.index i rows) =
      total (fun s => (s.tx, s.rx)) (bucketRows r offset t stored) := by
    have hindex : g.index = fun row => bucketIndex (ghostFrom r) (compareStep r * 1000)
        (windowCount (ghostFrom r) r.toMs (compareStep r)) row.t := by
      funext row
      rw [Ghost.index, hg]
    rw [hindex]
    exact bucket_total h (by omega) hrows i
  constructor
  · rw [getElem?_fill (by omega)]
    exact congrArg some ((total_fst _ _).symm.trans ((congrArg Prod.fst htotal).trans (total_fst _ _)))
  · rw [getElem?_fill (by omega)]
    exact congrArg some ((total_snd _ _).symm.trans ((congrArg Prod.snd htotal).trans (total_snd _ _)))

theorem ghost_kept {s : MinuteRow} (hs : s ∈ stored) (hsel : (compareParams r offset).selects s.minute = true) :
    ∃ t ∈ (ghostOf r offset first.ms).t, s ∈ bucketRows r offset t stored := by
  have hnonneg := first.nonneg
  obtain ⟨hlow, hhigh⟩ := (selects_iff h (by omega) s.minute).mp hsel
  obtain ⟨i, hi, -, hge, hlt⟩ := (ghost_window h).index hlow (hhigh.trans_le toMs_floor_le) (bucket_ms h offset s.minute)
  have hnext : ghostFrom r + (i + 1) * (compareStep r * 1000) =
      ghostFrom r + i * (compareStep r * 1000) + compareStep r * 1000 := by ring
  rw [hnext] at hlt
  refine ⟨ghostFrom r + i * (compareStep r * 1000), ?_, List.mem_filter.mpr ⟨hs, by simp [hsel, hge, hlt]⟩⟩
  rw [ghost_t h hfirst]
  exact List.mem_map.mpr ⟨i, List.mem_range.mpr (by omega), rfl⟩

theorem lines_up (hrows : rows.Perm (compareQuery r offset stored)) {c : ThroughputCompare}
    (hc : buildCompare rows r offset (some first.ms) = some c) : LinesUp r offset first stored c := by
  obtain ⟨-, hle, hlt⟩ := ghostFrom_bounds h
  rw [buildCompare, Option.bind_some] at hc
  split_ifs at hc with hnull
  obtain rfl := Option.some.inj hc
  have hstep : (ghostOf r offset first.ms).step = compareStep r := by rw [ghost_eq h hfirst]
  have hn : (ghostOf r offset first.ms).n = windowCount (ghostFrom r) r.toMs (compareStep r) := by rw [ghost_eq h hfirst]
  have ht := ghost_t h hfirst
  have hcount : 0 < (windowCount (ghostFrom r) r.toMs (compareStep r)).toNat := by
    have hone := (ghost_window h).count.1
    omega
  refine ⟨⟨ghostFrom r, _, hcount, by rw [hstep]; exact ht, hle, by rwa [hstep]⟩, ?_, ?_, ?_, ?_⟩
  · simp only [Ghost.rate, List.length_zipWith, length_fill, ht, List.length_map, List.length_range, hn, min_self, and_self]
  · intro i t hi
    dsimp only at hi ⊢
    rw [ht, List.getElem?_map] at hi
    obtain ⟨j, hj, rfl⟩ := Option.map_eq_some_iff.mp hi
    obtain ⟨hlen, rfl⟩ := List.getElem?_eq_some_iff.mp hj
    rw [List.length_range] at hlen
    rw [List.getElem_range, hstep]
    have hcount : (i : ℤ) < windowCount (ghostFrom r) r.toMs (compareStep r) := by omega
    obtain ⟨htx, hrx⟩ := ghost_bytes h hfirst hrows hcount
    exact ⟨ghost_rate h hfirst hcount htx, ghost_rate h hfirst hcount hrx⟩
  · intro t hmem hnull
    dsimp only at hmem hnull
    rw [ht, List.mem_map] at hmem
    obtain ⟨i, hi, rfl⟩ := hmem
    rw [List.mem_range] at hi
    rw [hstep] at hnull
    obtain ⟨hseconds, hlower⟩ := ghost_seconds h hfirst (by omega) hnull
    rw [hseconds]
    exact_mod_cast (by omega)
  · exact fun s hs hsel => ghost_kept h hfirst hs hsel

end LinesUp

/-- There is no ghost exactly when the earlier window holds no data, and one that
there is lines up with the range. -/
theorem ghost_lines_up {q : Query} {now : Now} {r₀ : Range} (hparse : parseRange q now = .ok r₀) {offset : CompareOffset}
    {first : Option FirstMinute} {stored : List MinuteRow} {rows : List CompareRow}
    (hrows : rows.Perm (compareQuery (alignRange r₀) offset stored)) :
    (buildCompare rows (alignRange r₀) offset (first.map FirstMinute.ms) = none ↔
      first = none ∨ ∃ f, first = some f ∧ (alignRange r₀).toMs - offset.ms ≤ f.ms) ∧
    ∀ f c, first = some f → buildCompare rows (alignRange r₀) offset (some f.ms) = some c →
      LinesUp (alignRange r₀) offset f stored c := by
  obtain ⟨hsound, -, -, -⟩ := parseRange_sound hparse
  have hcases := offset_cases offset
  have hwindow : fl ((alignRange r₀).toMs - offset.ms) = (alignRange r₀).toMs - offset.ms := by
    have horder := hsound.order
    have hlow := hsound.low
    have hhigh := hsound.high
    have hto : (alignRange r₀).toMs = r₀.toMs := rfl
    exact fl_small (abs_le.mpr ⟨by omega, by omega⟩)
  have hnone : ∀ f : FirstMinute, buildCompare rows (alignRange r₀) offset (some f.ms) = none ↔
      (alignRange r₀).toMs - offset.ms ≤ f.ms := by
    intro f
    rw [buildCompare, Option.bind_some, hwindow]
    split_ifs with hle
    · exact iff_of_true rfl hle
    · exact iff_of_false nofun hle
  refine ⟨?_, ?_⟩
  · cases first with
    | none => simp [buildCompare]
    | some f => simpa using hnone f
  · intro f c _ hc
    have hlt : f.ms < (alignRange r₀).toMs - offset.ms := by
      by_contra hle
      exact absurd (((hnone f).mpr (not_lt.mp hle)).symm.trans hc) nofun
    have hnonneg := f.nonneg
    have haligned := parse_aligned hparse (parse_nonneg hparse (show 3600000 ≤ (alignRange r₀).toMs by omega))
    exact lines_up haligned hlt hrows hc

def sampleFirst : FirstMinute := ⟨1699913460, by decide⟩

theorem ghost_lines_up_sample : ∃ r₀ c, parseRange emptyQuery sampleNow = .ok r₀ ∧
    buildCompare (compareQuery (alignRange r₀) .day [⟨1699913460, 500, 700⟩]) (alignRange r₀) .day (some sampleFirst.ms) = some c ∧
    LinesUp (alignRange r₀) .day sampleFirst [⟨1699913460, 500, 700⟩] c := by
  obtain ⟨r₀, hparse, hconsistent⟩ := emptyQuery_range
  have hto : (alignRange r₀).toMs = 1700000000000 := hconsistent.toMs
  obtain ⟨hnone, hlines⟩ := @ghost_lines_up _ _ _ hparse .day (some sampleFirst) _ _
    (.refl (compareQuery (alignRange r₀) .day [⟨1699913460, 500, 700⟩]))
  cases hc : buildCompare (compareQuery (alignRange r₀) .day [⟨1699913460, 500, 700⟩]) (alignRange r₀) .day
      (some sampleFirst.ms) with
  | none =>
      rcases hnone.mp hc with hnull | ⟨f, hf, hle⟩
      · cases hnull
      · obtain rfl := Option.some.inj hf
        rw [hto] at hle
        exact absurd hle (by decide)
  | some c => exact ⟨r₀, c, hparse, hc, hlines sampleFirst c rfl hc⟩

end NetWatch.History.Ghost
