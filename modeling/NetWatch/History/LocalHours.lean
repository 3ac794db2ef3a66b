import Mathlib.Data.Set.Card
import NetWatch.History.Heatmap
import NetWatch.History.EvenCells
import NetWatch.Lib.Buckets
import NetWatch.Lib.Repeats

namespace NetWatch.History.LocalHours

open Lib.Buckets Lib.Repeats Heatmap

/-- A timezone whose offsets are quarters of an hour and change only at quarters. -/
structure Quarterly (tz : Zone) : Prop where
  whole : ∀ t, quarterMs ∣ tz t
  changes : ∀ t, tz t = tz (t / quarterMs * quarterMs)

section Loop

variable {tz : Zone}

/-- The loop counts the runs of equal local hours. -/
theorem counting_out (ts : List ℤ) (a : ℤ) (out : List ℕ) :
    (ts.foldl (Counting.step tz) ⟨some a, out.modify (cellOf a) (· + 1)⟩).out =
      ((ts.map (localHour tz)).destutter' (· ≠ ·) a).foldl (fun acc h => acc.modify (cellOf h) (· + 1)) out := by
  induction ts generalizing a out with
  | nil => rfl
  | cons t ts ih =>
      rw [List.map_cons, List.foldl_cons, Counting.step]
      by_cases hsame : a = localHour tz t
      · rw [if_pos (congrArg some hsame), List.destutter'_cons_neg _ (not_not.mpr hsame), ih]
      · rw [if_neg fun h => hsame (Option.some.inj h), List.destutter'_cons_pos _ hsame, ih, List.foldl_cons]

theorem sampleCounts_eq (start stop : ℤ) : sampleCounts start stop tz =
    fill (fun h => some (cellOf h)) (fun _ => 1) heatmapCells (((quarters start stop).map (localHour tz)).destutter (· ≠ ·)) := by
  rw [sampleCounts]
  cases quarters start stop with
  | nil => rfl
  | cons t ts =>
      rw [List.foldl_cons, Counting.step, Counting.start, if_neg (by simp)]
      exact counting_out ts (localHour tz t) _

theorem getElem?_sampleCounts (start stop : ℤ) {c : ℕ} (hc : c < heatmapCells) : (sampleCounts start stop tz)[c]? =
    some ((((quarters start stop).map (localHour tz)).destutter (· ≠ ·)).countP fun h => cellOf h = c) := by
  rw [sampleCounts_eq, getElem?_fill hc, List.countP_eq_length_filter]
  simp [total, inBucket]

end Loop

section Times

variable {tz : Zone} {start stop t : ℤ}

theorem mem_quarters : t ∈ quarters start stop ↔ quarterMs ∣ t ∧ start < t + quarterMs ∧ t < stop := by
  rw [quarters, List.mem_map]
  constructor
  · rintro ⟨i, hi, rfl⟩
    rw [List.mem_range, quarterMs] at hi
    rw [quarterMs]
    omega
  · rintro ⟨⟨k, rfl⟩, hlow, hhigh⟩
    rw [quarterMs] at hlow hhigh
    obtain ⟨i, hi⟩ := Int.eq_ofNat_of_zero_le (show 0 ≤ k - start / quarterMs by rw [quarterMs]; omega)
    rw [quarterMs] at hi
    refine ⟨i, ?_, ?_⟩
    · rw [List.mem_range, quarterMs]
      omega
    · rw [quarterMs]
      omega

theorem pairwise_quarters : (quarters start stop).Pairwise (· < ·) := by
  rw [quarters, List.pairwise_map]
  refine List.pairwise_lt_range.imp ?_
  intro i j hij
  rw [quarterMs]
  omega

theorem localHour_quarter (hz : Quarterly tz) (t : ℤ) : localHour tz (t / quarterMs * quarterMs) = localHour tz t := by
  obtain ⟨k, hk⟩ := hz.whole t
  rw [localHour, localHour, ← hz.changes t, hk, quarterMs, hourMs]
  omega

theorem localHour_first (hz : Quarterly tz) (hwhole : quarterMs ∣ t) (hlow : start < t + quarterMs) :
    localHour tz (max start t) = localHour tz t := by
  obtain ⟨k, rfl⟩ := hwhole
  have hsame : max start (quarterMs * k) / quarterMs * quarterMs = quarterMs * k := by
    rw [quarterMs] at hlow ⊢
    omega
  rw [← localHour_quarter hz, hsame]

theorem quarter_mem (hlow : start ≤ t) (hhigh : t < stop) : t / quarterMs * quarterMs ∈ quarters start stop := by
  refine mem_quarters.mpr ⟨Dvd.intro_left _ rfl, ?_, ?_⟩
  · rw [quarterMs]
    omega
  · rw [quarterMs]
    omega

theorem mem_localHours (hz : Quarterly tz) (h : start < stop) {hour : ℤ} :
    hour ∈ (quarters start stop).map (localHour tz) ↔ ∃ t, start ≤ t ∧ t < stop ∧ localHour tz t = hour := by
  rw [List.mem_map]
  constructor
  · rintro ⟨t, ht, rfl⟩
    obtain ⟨hwhole, hlow, hhigh⟩ := mem_quarters.mp ht
    exact ⟨max start t, le_max_left _ _, max_lt h hhigh, localHour_first hz hwhole hlow⟩
  · rintro ⟨t, hlow, hhigh, rfl⟩
    exact ⟨t / quarterMs * quarterMs, quarter_mem hlow hhigh, localHour_quarter hz t⟩

/-- A local hour is left and comes back. -/
def ComesBack (tz : Zone) (start stop : ℤ) : Prop := ∃ t₁ t₂ t₃, start ≤ t₁ ∧ t₁ < t₂ ∧ t₂ < t₃ ∧ t₃ < stop ∧
  localHour tz t₁ ≠ localHour tz t₂ ∧ localHour tz t₃ = localHour tz t₁

theorem comesBack_of_returns (hz : Quarterly tz) (hreturns : Returns ((quarters start stop).map (localHour tz))) :
    ComesBack tz start stop := by
  obtain ⟨a, b, hab, hsub⟩ := hreturns
  obtain ⟨l, hl, heq⟩ := List.sublist_map_iff.mp hsub
  obtain ⟨t₁, t₂, t₃, rfl⟩ : ∃ t₁ t₂ t₃, l = [t₁, t₂, t₃] :=
    List.length_eq_three.mp (by simpa using (congrArg List.length heq).symm)
  obtain ⟨rfl, rfl, hback⟩ : a = localHour tz t₁ ∧ b = localHour tz t₂ ∧ a = localHour tz t₃ := by simpa using heq
  have hpairs := pairwise_quarters.sublist hl
  simp only [List.pairwise_cons, List.mem_cons] at hpairs
  have h₁₂ : t₁ < t₂ := hpairs.1 t₂ (.inl rfl)
  have h₂₃ : t₂ < t₃ := hpairs.2.1 t₃ (.inl rfl)
  obtain ⟨hwhole, hlow, -⟩ := mem_quarters.mp (hl.subset (by simp : t₁ ∈ [t₁, t₂, t₃]))
  obtain ⟨⟨k, hk⟩, -, -⟩ := mem_quarters.mp (hl.subset (by simp : t₂ ∈ [t₁, t₂, t₃]))
  obtain ⟨-, -, hhigh⟩ := mem_quarters.mp (hl.subset (by simp : t₃ ∈ [t₁, t₂, t₃]))
  have hfirst := localHour_first hz hwhole hlow
  refine ⟨max start t₁, t₂, t₃, le_max_left _ _, ?_, h₂₃, hhigh, ?_, ?_⟩
  · obtain ⟨j, rfl⟩ := hwhole
    rw [quarterMs] at hlow h₁₂ hk ⊢
    omega
  · rwa [hfirst]
  · rw [hfirst, hback]

theorem quarter_lt (hz : Quarterly tz) {s : ℤ} (hst : s < t) (hne : localHour tz s ≠ localHour tz t) :
    s / quarterMs * quarterMs < t / quarterMs * quarterMs := by
  have hle : s / quarterMs * quarterMs ≤ t / quarterMs * quarterMs := by
    rw [quarterMs]
    omega
  refine lt_of_le_of_ne hle fun heq => hne ?_
  rw [← localHour_quarter hz s, heq, localHour_quarter hz]

theorem returns_of_comesBack (hz : Quarterly tz) (hback : ComesBack tz start stop) :
    Returns ((quarters start stop).map (localHour tz)) := by
  obtain ⟨t₁, t₂, t₃, hlow, h₁₂, h₂₃, hhigh, hleft, hback⟩ := hback
  have hq₁₂ := quarter_lt hz h₁₂ hleft
  have hq₂₃ := quarter_lt hz h₂₃ (by rw [hback]; exact hleft.symm)
  have hsorted : [t₁ / quarterMs * quarterMs, t₂ / quarterMs * quarterMs, t₃ / quarterMs * quarterMs].Pairwise (· < ·) := by
    simp [hq₁₂, hq₂₃, hq₁₂.trans hq₂₃]
  have hsub : [t₁ / quarterMs * quarterMs, t₂ / quarterMs * quarterMs, t₃ / quarterMs * quarterMs].Sublist
      (quarters start stop) := by
    refine List.sublist_of_subperm_of_pairwise (List.subperm_of_subset hsorted.nodup ?_) hsorted pairwise_quarters
    intro q hq
    simp only [List.mem_cons, List.not_mem_nil, or_false] at hq
    rcases hq with rfl | rfl | rfl
    · exact quarter_mem hlow (by omega)
    · exact quarter_mem (by omega) (by omega)
    · exact quarter_mem (by omega) hhigh
  refine ⟨localHour tz t₁, localHour tz t₂, hleft, List.sublist_map_iff.mpr ⟨_, hsub, ?_⟩⟩
  simp only [List.map_cons, List.map_nil, localHour_quarter hz, hback]

end Times

def hoursOf (tz : Zone) (start stop : ℤ) (c : ℕ) : Set ℤ :=
  {h | cellOf h = c ∧ ∃ t, start ≤ t ∧ t < stop ∧ localHour tz t = h}

theorem ncard_hoursOf {tz : Zone} {start stop : ℤ} (hz : Quarterly tz) (h : start < stop) (c : ℕ) :
    (hoursOf tz start stop c).ncard = ((quarters start stop).map (localHour tz)).dedup.countP fun h => cellOf h = c := by
  have hset : hoursOf tz start stop c =
      ((((quarters start stop).map (localHour tz)).dedup.filter fun h => cellOf h = c).toFinset : Set ℤ) := by
    ext hour
    rw [List.coe_toFinset, Set.mem_ofPred_eq, List.mem_filter, List.mem_dedup, mem_localHours hz h, decide_eq_true_iff,
      and_comm]
    rfl
  rw [hset, Set.ncard_coe_finset, List.toFinset_card_of_nodup ((List.nodup_dedup _).filter _), List.countP_eq_length_filter]

/-- Each cell counts its local hours, unless one comes back. -/
theorem counts_hours_iff {tz : Zone} (hz : Quarterly tz) {start stop : ℤ} (h : start < stop) :
    (∀ c < heatmapCells, (sampleCounts start stop tz)[c]? = some (hoursOf tz start stop c).ncard) ↔
      ¬ ComesBack tz start stop := by
  have hreturns : Returns ((quarters start stop).map (localHour tz)) ↔ ComesBack tz start stop :=
    ⟨comesBack_of_returns hz, returns_of_comesBack hz⟩
  rw [← hreturns, ← count_runs_iff cellOf]
  constructor
  · intro hcounts c
    by_cases hc : c < heatmapCells
    · have hcell := hcounts c hc
      rw [getElem?_sampleCounts start stop hc, ncard_hoursOf hz h] at hcell
      exact Option.some.inj hcell
    · have hnone : ∀ l : List ℤ, l.countP (fun h => cellOf h = c) = 0 := by
        intro l
        rw [List.countP_eq_zero]
        intro h _ heq
        exact hc (of_decide_eq_true heq ▸ EvenCells.cellOf_lt h)
      rw [hnone, hnone]
  · intro hcounts c hc
    rw [getElem?_sampleCounts start stop hc, ncard_hoursOf hz h, hcounts c]

/-- A zone that is ahead by `before` until 01:00 UTC, and then by `after`. -/
def changing (before after : ℤ) : Zone := fun t => if t < 3600000 then before else after

theorem changing_quarterly {before after : ℤ} (hbefore : quarterMs ∣ before) (hafter : quarterMs ∣ after) : Quarterly (changing before after) := by
  refine ⟨fun t => ?_, fun t => ?_⟩
  · rw [changing]
    split_ifs
    · exact hbefore
    · exact hafter
  · rw [changing, changing, quarterMs]
    split_ifs <;> omega

/-- Where the clock goes back by one hour, the hour from 2 to 3 goes on, and counts once. -/
theorem counts_hours_iff_sample : Quarterly (changing 7200000 3600000) ∧
    (∀ c < heatmapCells, (sampleCounts 0 10800000 (changing 7200000 3600000))[c]? =
      some (hoursOf (changing 7200000 3600000) 0 10800000 c).ncard) ∧
    (sampleCounts 0 10800000 (changing 7200000 3600000))[74]? = some 1 := by
  have hz : Quarterly (changing 7200000 3600000) := changing_quarterly (by decide) (by decide)
  refine ⟨hz, (counts_hours_iff hz (by norm_num)).mpr ?_, by decide +kernel⟩
  rintro ⟨t₁, t₂, t₃, hlow, h₁₂, h₂₃, hhigh, hleft, hback⟩
  simp only [localHour, changing, hourMs] at hleft hback
  split_ifs at hleft hback <;> omega

def twoHoursBack : Zone := changing 7200000 0

/-- The hour from 2 to 3 is counted twice. -/
theorem two_hours_back_twice : Quarterly twoHoursBack ∧ (0 : ℤ) < 10800000 ∧
    (sampleCounts 0 10800000 twoHoursBack)[74]? = some 2 ∧ (hoursOf twoHoursBack 0 10800000 74).ncard = 1 := by
  have hz : Quarterly twoHoursBack := changing_quarterly (by decide) (by decide)
  refine ⟨hz, by norm_num, by decide +kernel, ?_⟩
  rw [ncard_hoursOf hz (by norm_num)]
  decide +kernel

end NetWatch.History.LocalHours
