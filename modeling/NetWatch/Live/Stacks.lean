import NetWatch.Lib.BinarySearch
import NetWatch.Lib.JsText
import NetWatch.Live.Ranking

namespace NetWatch.Live.Stacks

open Hub Ranking Lib Lib.Assoc Lib.BinarySearch Lib.Buckets Lib.GroupFold Lib.JsText Lib.JsValue

structure TickBody where
  txKbps : ℚ
  rxKbps : ℚ
  procs : List TickProc

abbrev ChartTick := CompactTick TickBody

abbrev Point := ℤ × Option ℚ

def otherKey : Units := 0 :: units "other"

structure Band where
  key : Units
  label : Units
  slot : ℤ
  tx : List Point
  rx : List Point

structure Throughput where
  bands : List Band
  totalTx : List Point
  totalRx : List Point
  inst : Dict Units Units

/-- The text before the first colon, as `slice` has it also where there is none. -/
def pidOf (id : Units) : Units :=
  match indexOf? (units ":") id with
  | some i => id.take i
  | none => id.dropLast

/-- All series grow together: by a null before a gap, unless they are empty, and by
the value of the tick. -/
def pushPoint (value : ChartTick → ℚ) (pts : List Point) (t : ChartTick) : List Point :=
  let pts := if t.gap && !pts.isEmpty then pts ++ [(t.ts - 1, none)] else pts
  pts ++ [(t.ts, some (value t))]

def series (value : ChartTick → ℚ) (ticks : List ChartTick) : List Point := ticks.foldl (pushPoint value) []

/-- Below zero, but for zero. -/
def mirrored (value : ℚ) : ℚ := if value ≠ 0 then -value else 0

section Build

variable (group : GroupBy) (top : List Units)

def shownProcs (t : ChartTick) : List TickProc := t.body.procs.filter fun p => top.any fun k => k = keyOf group p

def keySum (rate : TickProc → ℚ) (k : Units) (t : ChartTick) : ℚ :=
  total rate ((shownProcs group top t).filter fun p => keyOf group p = k)

def otherSum (rate : TickProc → ℚ) (whole : TickBody → ℚ) (t : ChartTick) : ℚ :=
  max 0 (whole t.body - total rate (shownProcs group top t))

def perId (ticks : List ChartTick) : Dict Units (ℚ × Units) :=
  groupFold TickProc.id (fun p => (0, keyOf group p)) (fun v p => (v.1 + p.tx + p.rx, v.2))
    (ticks.flatMap (shownProcs group top))

def largest (best : Dict Units (ℚ × Units)) (e : Units × ℚ × Units) : Dict Units (ℚ × Units) :=
  if ((best.get? e.2.2).map Prod.fst).getD (-1) < e.2.1 then best.insert e.2.2 (e.2.1, e.1) else best

def instanceOf (ticks : List ChartTick) : Dict Units Units :=
  ((perId group top ticks).entries.foldl largest .empty).mapVals fun _ v => v.2

def labelOf (ticks : List ChartTick) (k : Units) : Units :=
  match (ticks.flatMap (shownProcs group top)).find? fun p => keyOf group p = k, group with
  | some p, .name => p.name
  | some p, .id => p.name ++ units " (" ++ pidOf p.id ++ units ")"
  | none, .name => k
  | none, .id => k ++ units " (" ++ pidOf k ++ units ")"

def topBand (slotOf : Units → ℤ) (ticks : List ChartTick) (k : Units) : Band where
  key := k
  label := labelOf group top ticks k
  slot := slotOf k
  tx := series (keySum group top TickProc.tx k) ticks
  rx := series (fun t => mirrored (keySum group top TickProc.rx k t)) ticks

def otherBand (ticks : List ChartTick) : Band where
  key := otherKey
  label := units "other"
  slot := -1
  tx := series (otherSum group top TickProc.tx TickBody.txKbps) ticks
  rx := series (fun t => mirrored (otherSum group top TickProc.rx TickBody.rxKbps t)) ticks

def buildThroughput (slotOf : Units → ℤ) (ticks : List ChartTick) : Throughput where
  bands := top.map (topBand group top slotOf ticks) ++ [otherBand group top ticks]
  totalTx := series (fun t => t.body.txKbps) ticks
  totalRx := series (fun t => mirrored t.body.rxKbps) ticks
  inst := instanceOf group top ticks

end Build

inductive Dir
  | tx
  | rx

def Band.points (b : Band) : Dir → List Point
  | .tx => b.tx
  | .rx => b.rx

def valueAt (pts : List Point) (i : ℕ) : Option ℚ := pts[i]?.bind Prod.snd

def timeAt (pts : List Point) (i : ℕ) : ℤ := (pts[i]?.map Prod.fst).getD 0

section Columns

variable {value : ChartTick → ℚ} {ticks : List ChartTick} {i : ℕ}

/-- What every series has a point for: ticks and breaks. -/
def columns (ticks : List ChartTick) : List (ℤ × Option ChartTick) :=
  ticks.foldl (fun cs t => (if t.gap && !cs.isEmpty then cs ++ [(t.ts - 1, none)] else cs) ++ [(t.ts, some t)]) []

def inColumn (value : ChartTick → ℚ) (c : ℤ × Option ChartTick) : Point := (c.1, c.2.map value)

theorem columns_snoc (ticks : List ChartTick) (t : ChartTick) : columns (ticks ++ [t]) =
    (if t.gap && !(columns ticks).isEmpty then columns ticks ++ [(t.ts - 1, none)] else columns ticks) ++ [(t.ts, some t)] := by
  rw [columns, List.foldl_append]
  rfl

theorem series_eq (value : ChartTick → ℚ) (ticks : List ChartTick) : series value ticks = (columns ticks).map (inColumn value) := by
  induction ticks using List.reverseRecOn with
  | nil => rfl
  | append_singleton ticks t ih =>
      rw [series, List.foldl_append, ← series, ih, columns_snoc, List.foldl_cons, List.foldl_nil, pushPoint, List.isEmpty_map]
      split <;> simp [inColumn]

theorem ticks_columns (ticks : List ChartTick) : (columns ticks).filterMap Prod.snd = ticks := by
  induction ticks using List.reverseRecOn with
  | nil => rfl
  | append_singleton ticks t ih =>
      rw [columns_snoc]
      split <;> simp [ih]

theorem time_column {c : ℤ × Option ChartTick} {t : ChartTick} (hc : c ∈ columns ticks) (ht : c.2 = some t) : c.1 = t.ts := by
  induction ticks using List.reverseRecOn with
  | nil => cases hc
  | append_singleton ticks u ih =>
      rw [columns_snoc] at hc
      obtain hc | hc := List.mem_append.mp hc
      · split at hc
        · obtain hc | hc := List.mem_append.mp hc
          · exact ih hc
          · rw [List.mem_singleton.mp hc] at ht
            cases ht
        · exact ih hc
      · rw [List.mem_singleton.mp hc] at ht ⊢
        cases ht
        rfl

theorem valueAt_series (value : ChartTick → ℚ) (ticks : List ChartTick) (i : ℕ) :
    valueAt (series value ticks) i = ((columns ticks)[i]?.bind Prod.snd).map value := by
  rw [valueAt, series_eq, List.getElem?_map]
  cases (columns ticks)[i]? <;> rfl

end Columns

section Sums

variable {group : GroupBy} {top : List Units} {slotOf : Units → ℤ} {ticks : List ChartTick}

theorem mirrored_eq (v : ℚ) : mirrored v = -v := by
  rw [mirrored]
  split
  · rfl
  · simp_all

theorem sum_mirrored {α : Type} (value : α → ℚ) (l : List α) : (l.map fun a => mirrored (value a)).sum = -total value l := by
  induction l with
  | nil => rfl
  | cons a l ih => rw [List.map_cons, List.sum_cons, ih, mirrored_eq, total_cons, neg_add]

theorem keySum_eq (rate : TickProc → ℚ) {k : Units} (hk : k ∈ top) (t : ChartTick) :
    keySum group top rate k t = total rate (t.body.procs.filter fun p => keyOf group p = k) := by
  rw [keySum, shownProcs, List.filter_filter]
  congr 1
  apply List.filter_congr
  intro p _
  by_cases hp : keyOf group p = k
  · simpa [hp] using hk
  · simp [hp]

/-- The bands of a tick add up to its total, or to what the shown processes have, if
that is more. -/
theorem sum_bands (hnodup : top.Nodup) (rate : TickProc → ℚ) (whole : TickBody → ℚ) (t : ChartTick) :
    total (fun k => keySum group top rate k t) top + otherSum group top rate whole t =
      max (whole t.body) (total rate (shownProcs group top t)) := by
  have hshown : ofKeys (keyOf group) top (shownProcs group top t) = shownProcs group top t := by
    apply ofKeys_eq_self
    intro p hp
    have hmem := (List.mem_filter.mp hp).2
    simpa using hmem
  have hsum : total (fun k => keySum group top rate k t) top = total rate (shownProcs group top t) := by
    have hkeys : (top.map fun k => total rate (ofKey (keyOf group) k (shownProcs group top t))).sum = _ :=
      sum_some_keys hnodup (shownProcs group top t)
    rwa [hshown] at hkeys
  rw [hsum, otherSum]
  obtain h | h := le_total (whole t.body) (total rate (shownProcs group top t))
  · rw [max_eq_left (sub_nonpos.mpr h), max_eq_right h, add_zero]
  · rw [max_eq_right (sub_nonneg.mpr h), max_eq_left h, add_sub_cancel]

/-- A chart of some ticks with a band for each key of `top`. At a break no series has a
value; at a tick each key has what its processes have, and the bands of a side add up
to the total, or to the processes of `top`, if these have more. -/
structure AddsUp (group : GroupBy) (top : List Units) (ticks : List ChartTick) (d : Throughput) : Prop where
  keys : d.bands.map Band.key = top ++ [otherKey]
  times : d.totalRx.map Prod.fst = d.totalTx.map Prod.fst ∧
    ∀ b ∈ d.bands, ∀ dir, (b.points dir).map Prod.fst = d.totalTx.map Prod.fst
  points : d.totalTx.filterMap (fun p => p.2.map fun v => (p.1, v)) = ticks.map fun t => (t.ts, t.body.txKbps)
  breaks : ∀ i, (valueAt d.totalRx i = none ↔ valueAt d.totalTx i = none) ∧
    ∀ b ∈ d.bands, ∀ dir, valueAt (b.points dir) i = none ↔ valueAt d.totalTx i = none
  ticks : ∀ i v, valueAt d.totalTx i = some v → ∃ t ∈ ticks, timeAt d.totalTx i = t.ts ∧ v = t.body.txKbps ∧
    valueAt d.totalRx i = some (-t.body.rxKbps) ∧
    (∀ b ∈ d.bands, b.key ≠ otherKey → valueAt b.tx i = some (total TickProc.tx (t.body.procs.filter fun p => keyOf group p = b.key)) ∧
      valueAt b.rx i = some (-total TickProc.rx (t.body.procs.filter fun p => keyOf group p = b.key))) ∧
    (d.bands.map fun b => (valueAt b.tx i).getD 0).sum = max v (total TickProc.tx (shownProcs group top t)) ∧
    (d.bands.map fun b => (valueAt b.rx i).getD 0).sum = -max t.body.rxKbps (total TickProc.rx (shownProcs group top t))

theorem points_map {value : ChartTick → ℚ} (ticks : List ChartTick) :
    (series value ticks).filterMap (fun p => p.2.map fun v => (p.1, v)) = ticks.map fun t => (t.ts, value t) := by
  have hpoint : ∀ c ∈ columns ticks, ((inColumn value c).2.map fun v => ((inColumn value c).1, v)) =
      c.2.map fun t => (t.ts, value t) := by
    intro c hc
    cases ht : c.2 with
    | none => simp [inColumn, ht]
    | some t => simp [inColumn, ht, time_column hc ht]
  rw [series_eq, List.filterMap_map]
  have hcongr : (columns ticks).filterMap ((fun p : Point => p.2.map fun v => (p.1, v)) ∘ inColumn value) =
      (columns ticks).filterMap fun c => c.2.map fun t => (t.ts, value t) := List.filterMap_congr hpoint
  rw [hcongr, ← List.map_filterMap, ticks_columns]

theorem band_series {b : Band} (hb : b ∈ (buildThroughput group top slotOf ticks).bands) (dir : Dir) :
    ∃ value, b.points dir = series value ticks := by
  obtain hb | hb := List.mem_append.mp hb
  · obtain ⟨k, -, rfl⟩ := List.mem_map.mp hb
    cases dir <;> exact ⟨_, rfl⟩
  · rw [List.mem_singleton.mp hb]
    cases dir <;> exact ⟨_, rfl⟩

theorem sum_column {i : ℕ} {t : ChartTick} (hcolumn : (columns ticks)[i]?.bind Prod.snd = some t)
    (side : Band → List Point) (key : Units → ChartTick → ℚ) (other : ChartTick → ℚ)
    (hkey : ∀ k ∈ top, side (topBand group top slotOf ticks k) = series (key k) ticks)
    (hother : side (otherBand group top ticks) = series other ticks) :
    ((buildThroughput group top slotOf ticks).bands.map fun b => (valueAt (side b) i).getD 0).sum =
      (top.map fun k => key k t).sum + other t := by
  have htop : top.map ((fun b => (valueAt (side b) i).getD 0) ∘ topBand group top slotOf ticks) = top.map fun k => key k t := by
    apply List.map_congr_left
    intro k hk
    rw [Function.comp_apply, hkey k hk, valueAt_series, hcolumn]
    rfl
  rw [buildThroughput, List.map_append, List.map_map, htop, List.sum_append, List.map_singleton, List.sum_singleton, hother,
    valueAt_series, hcolumn]
  rfl

theorem series_times (value value' : ChartTick → ℚ) (ticks : List ChartTick) :
    (series value ticks).map Prod.fst = (series value' ticks).map Prod.fst := by
  rw [series_eq, series_eq, List.map_map, List.map_map]
  rfl

theorem series_breaks (value value' : ChartTick → ℚ) (ticks : List ChartTick) (i : ℕ) :
    valueAt (series value ticks) i = none ↔ valueAt (series value' ticks) i = none := by
  rw [valueAt_series, valueAt_series, Option.map_eq_none_iff, Option.map_eq_none_iff]

theorem buildThroughput_addsUp (hnodup : top.Nodup) (slotOf : Units → ℤ) (ticks : List ChartTick) :
    AddsUp group top ticks (buildThroughput group top slotOf ticks) := by
  constructor
  · simp [buildThroughput, topBand, otherBand, Function.comp_def]
  · refine ⟨series_times _ _ _, fun b hb dir => ?_⟩
    obtain ⟨value, hseries⟩ := band_series hb dir
    rw [hseries]
    exact series_times _ _ _
  · exact points_map ticks
  · refine fun i => ⟨series_breaks _ _ _ i, fun b hb dir => ?_⟩
    obtain ⟨value, hseries⟩ := band_series hb dir
    rw [hseries]
    exact series_breaks _ _ _ i
  · intro i v hv
    rw [buildThroughput, valueAt_series] at hv
    obtain ⟨t, hcolumn, rfl⟩ := Option.map_eq_some_iff.mp hv
    obtain ⟨c, hc, hct⟩ := Option.bind_eq_some_iff.mp hcolumn
    have hmem : c ∈ columns ticks := List.mem_of_getElem? hc
    have hvalue : ∀ value : ChartTick → ℚ, valueAt (series value ticks) i = some (value t) := by
      intro value
      rw [valueAt_series, hcolumn]
      rfl
    refine ⟨t, ?_, ?_, rfl, ?_, ?_, ?_, ?_⟩
    · have hfilter : t ∈ (columns ticks).filterMap Prod.snd := List.mem_filterMap.mpr ⟨c, hmem, hct⟩
      rwa [ticks_columns] at hfilter
    · rw [timeAt, buildThroughput, series_eq, List.getElem?_map, hc]
      exact time_column hmem hct
    · exact (hvalue _).trans (congrArg some (mirrored_eq _))
    · intro b hb hne
      obtain hb | hb := List.mem_append.mp hb
      · obtain ⟨k, hk, rfl⟩ := List.mem_map.mp hb
        have hkey : (topBand group top slotOf ticks k).key = k := rfl
        rw [hkey, ← keySum_eq TickProc.tx hk, ← keySum_eq TickProc.rx hk]
        exact ⟨hvalue _, (hvalue _).trans (congrArg some (mirrored_eq _))⟩
      · rw [List.mem_singleton.mp hb] at hne
        exact absurd rfl hne
    · rw [← sum_bands hnodup TickProc.tx TickBody.txKbps]
      exact sum_column hcolumn Band.tx _ _ (fun k _ => rfl) rfl
    · have htop := sum_mirrored (fun k => keySum group top TickProc.rx k t) top
      rw [← sum_bands hnodup TickProc.rx TickBody.rxKbps, neg_add, ← mirrored_eq (otherSum _ _ _ _ _), ← htop]
      exact sum_column hcolumn Band.rx _ _ (fun k _ => rfl) rfl

end Sums

section Hit

variable {pts : List Point} {dir : Dir} {i : ℕ} {want acc : ℚ} {bands : List Band} {b : Band}

def height (dir : Dir) (i : ℕ) (b : Band) : ℚ := |(valueAt (b.points dir) i).getD 0|

end Hit

section Chart

structure ChartCall where
  ticks : List ChartTick
  group : GroupBy
  windowS : ℚ

def ChartCall.toCall (c : ChartCall) : Call :=
  ⟨c.ticks.map fun t => ⟨t.ts, t.intervalMs, t.gap, t.body.procs⟩, c.group, c.windowS⟩

/-- What the last render draws, with the ranking that all of them have made. -/
def useLiveThroughput (n : ℕ) (slotOf : Units → ℤ) (calls : List ChartCall) (c : ChartCall) : Option Throughput :=
  (state n ((calls ++ [c]).map ChartCall.toCall)).map fun s => buildThroughput c.group s.top slotOf c.ticks

theorem rank_top {n : ℕ} {prev : Option RankState} (hprev : ∀ p, prev = some p → p.top.length ≤ n ∧ p.top.Nodup) (c : Call) :
    (rank c.ticks c.group c.windowS prev n).top.length ≤ n ∧ (rank c.ticks c.group c.windowS prev n).top.Nodup := by
  rw [rank]
  cases hreuse : reuse c.ticks (same c.group c.windowS prev) with
  | some p =>
      have hsame := (Option.filter_eq_some_iff.mp hreuse).1
      exact hprev p (Option.filter_eq_some_iff.mp hsame).1
  | none =>
      have hshown : (shown prev c).length ≤ n ∧ (shown prev c).Nodup := by
        rw [shown]
        cases hsame : same c.group c.windowS prev with
        | none => exact ⟨Nat.zero_le n, List.nodup_nil⟩
        | some p => exact hprev p (Option.filter_eq_some_iff.mp hsame).1
      have hkept : (keptKeys n prev c).length ≤ n := (List.length_filter_le _ _).trans hshown.1
      have hjoined := List.length_take_le (n - (keptKeys n prev c).length) ((c.plainTop n).filter fun k => k ∉ keptKeys n prev c)
      have hperm : (renewed n prev c).top.Perm (keptKeys n prev c ++ joinedKeys n prev c) := top_perm
      constructor
      · refine hperm.length_eq.trans_le ?_
        rw [List.length_append, joinedKeys]
        omega
      · refine hperm.nodup_iff.mpr (List.nodup_append.mpr ⟨hshown.2.filter _, ?_, ?_⟩)
        · exact ((fresh_nodup _ _ _).filter _).sublist (List.take_sublist _ _)
        · rintro k hk j hj rfl
          exact (mem_joined hj).2 hk

theorem run_top (n : ℕ) (calls : List Call) : ∀ s, state n calls = some s → s.top.length ≤ n ∧ s.top.Nodup := by
  induction calls using List.reverseRecOn with
  | nil => intro s h; cases h
  | append_singleton calls c ih =>
      intro s h
      rw [state, run_snoc, step] at h
      cases h
      exact rank_top ih c

theorem rank_forall {n : ℕ} {prev : Option RankState} {P : Units → Prop} (hprev : ∀ p, prev = some p → ∀ k ∈ p.top, P k) (c : Call)
    (hfresh : ∀ k ∈ c.plainTop n, P k) : ∀ k ∈ (rank c.ticks c.group c.windowS prev n).top, P k := by
  rw [rank]
  cases hreuse : reuse c.ticks (same c.group c.windowS prev) with
  | some p =>
      have hsame := (Option.filter_eq_some_iff.mp hreuse).1
      exact hprev p (Option.filter_eq_some_iff.mp hsame).1
  | none =>
      intro k hk
      have hperm : (renewed n prev c).top.Perm (keptKeys n prev c ++ joinedKeys n prev c) := top_perm
      obtain hk | hk := List.mem_append.mp (hperm.mem_iff.mp hk)
      · obtain ⟨p, hp, hkp⟩ := mem_shown.mp (List.mem_of_mem_filter hk)
        exact hprev p (Option.filter_eq_some_iff.mp hp).1 k hkp
      · exact hfresh k (mem_joined hk).1

theorem run_forall (n : ℕ) {P : Units → Prop} (calls : List Call) (h : ∀ c ∈ calls, ∀ k ∈ c.plainTop n, P k) :
    ∀ s, state n calls = some s → ∀ k ∈ s.top, P k := by
  induction calls using List.reverseRecOn with
  | nil => intro s hs; cases hs
  | append_singleton calls c ih =>
      intro s hs
      rw [state, run_snoc, step] at hs
      cases hs
      exact rank_forall (ih fun d hd => h d (List.mem_append_left _ hd)) c (h c (by simp))

/-- No process has the key of the rest. -/
def ChartCall.Unreserved (c : ChartCall) : Prop := ∀ t ∈ c.ticks, ∀ p ∈ t.body.procs, keyOf c.group p ≠ otherKey

theorem plainTop_unreserved {n : ℕ} {c : ChartCall} (h : c.Unreserved) : ∀ k ∈ c.toCall.plainTop n, k ≠ otherKey := by
  rintro k hk rfl
  obtain ⟨t, ht, p, hp, hkey, -⟩ := fresh_traffic hk
  obtain ⟨u, hu, rfl⟩ := List.mem_map.mp ht
  exact h u hu p hp hkey

/-- In every run of renders the chart adds up, with at most `n` bands and the rest,
and with each key once, if no process has the key of the rest. -/
theorem chart_addsUp (n : ℕ) (slotOf : Units → ℤ) (calls : List ChartCall) (c : ChartCall) :
    ∃ d top, useLiveThroughput n slotOf calls c = some d ∧ top.length ≤ n ∧ top.Nodup ∧ AddsUp c.group top c.ticks d ∧
      ((∀ call ∈ calls ++ [c], call.Unreserved) → (d.bands.map Band.key).Nodup) := by
  obtain ⟨s, hs⟩ : ∃ s, state n ((calls ++ [c]).map ChartCall.toCall) = some s := by
    refine ⟨rank c.toCall.ticks c.group c.windowS (run n (calls.map ChartCall.toCall)).1 n, ?_⟩
    rw [state, List.map_append, List.map_singleton, run_snoc]
    rfl
  obtain ⟨hlength, hnodup⟩ := run_top n _ s hs
  have hadds : AddsUp c.group s.top c.ticks (buildThroughput c.group s.top slotOf c.ticks) := buildThroughput_addsUp hnodup slotOf c.ticks
  refine ⟨_, s.top, by rw [useLiveThroughput, hs, Option.map_some], hlength, hnodup, hadds, fun hfree => ?_⟩
  have hrest : ∀ k ∈ s.top, k ≠ otherKey := by
    refine run_forall n _ (fun call hcall => ?_) s hs
    obtain ⟨chart, hchart, rfl⟩ := List.mem_map.mp hcall
    exact plainTop_unreserved (hfree chart hchart)
  rw [hadds.keys, List.nodup_append]
  refine ⟨hnodup, List.nodup_singleton _, fun k hk j hj => ?_⟩
  rw [List.mem_singleton.mp hj]
  exact hrest k hk

end Chart

end NetWatch.Live.Stacks
