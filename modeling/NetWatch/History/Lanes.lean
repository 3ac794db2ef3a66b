import NetWatch.Analysis.Bursts
import NetWatch.Lib.GroupFold
import NetWatch.Lib.IntervalRows
import NetWatch.Lib.JsValue
import NetWatch.Lib.SortBy
import Mathlib.Algebra.BigOperators.Group.List.Basic
import Mathlib.Order.Bounds.Basic

namespace NetWatch.History.Lanes

open Lib Lib.Assoc Lib.Buckets Lib.GroupFold Lib.IntervalRows Lib.JsValue Lib.SortBy

inductive GanttSort
  | start
  | bytes

structure LifetimeBar where
  id : Units
  name : Units
  startMs : ℚ
  firstSeenMs : ℚ
  lastSeenMs : ℚ
  endedMs : Option ℚ
  tx : ℕ
  rx : ℕ
  deriving DecidableEq

def barEnd (now : ℚ) (b : LifetimeBar) : ℚ := max (max (b.endedMs.getD now) b.firstSeenMs) b.lastSeenMs

section Rows

/-- An interval and its rows so far: the ends of the rows, and the row of each index. -/
def subRow (intervals : List (ℚ × ℚ)) (s : List ℚ × List ℕ) (i : ℕ) : List ℚ × List ℕ :=
  let interval := intervals.getD i (0, 0)
  match s.1.findIdx? (· ≤ interval.1) with
  | some row => (s.1.set row interval.2, s.2.set i row)
  | none => (s.1 ++ [interval.2], s.2.set i s.1.length)

def startOrder (intervals : List (ℚ × ℚ)) : ℕ → ℕ → Ordering :=
  compareLex (compareOn fun i => (intervals.getD i (0, 0)).1) compare

def order (intervals : List (ℚ × ℚ)) : List ℕ := sortBy (startOrder intervals) (List.range intervals.length)

def subRows (intervals : List (ℚ × ℚ)) : List ℕ :=
  ((order intervals).foldl (subRow intervals) ([], List.replicate intervals.length 0)).2

end Rows

section Stats

structure LaneStats where
  n : ℕ
  ended : ℕ
  medianLifetimeMs : Option ℚ
  meanGapMs : Option ℚ
  gapCv : Option ℚ
  scheduled : Bool

def median (xs : List ℚ) : Option ℚ := if xs = [] then none else some (Analysis.Bursts.median xs)

def laneStats (sqrt : ℚ → ℚ) (bars : List LifetimeBar) : LaneStats :=
  let lifetimes := (bars.filter fun b => b.endedMs.isSome).map fun b => barEnd 0 b - b.startMs
  let starts := (bars.map LifetimeBar.startMs).insertionSort (· ≤ ·)
  let gaps := List.zipWith (fun s before => s - before) starts.tail starts
  let mean := if gaps = [] then none else some (gaps.sum / gaps.length)
  let cv := mean.bind fun mean =>
    if 2 ≤ gaps.length ∧ 0 < mean then some (sqrt ((gaps.map fun g => (g - mean) ^ 2).sum / gaps.length) / mean) else none
  { n := bars.length
    ended := lifetimes.length
    medianLifetimeMs := median lifetimes
    meanGapMs := mean
    gapCv := cv
    scheduled := 5 ≤ bars.length && cv.any fun cv => cv < 1 / 10 }

end Stats

structure Lane where
  name : Units
  bars : List LifetimeBar
  row0 : ℕ
  rows : ℕ
  bytes : ℕ
  firstStart : ℚ
  stats : LaneStats

structure PackedBar where
  bar : LifetimeBar
  row : ℕ
  lane : ℕ
  /-- The end on the chart. -/
  stop : ℚ

structure Packed where
  lanes : List Lane
  bars : List PackedBar
  rows : ℕ

/-- Bars by start, then by id. Equal ids compare as different both ways in the source; a sort
that asks only for what is less takes them as equal. -/
def barOrder : LifetimeBar → LifetimeBar → Ordering := compareLex (compareOn LifetimeBar.startMs) (compareOn LifetimeBar.id)

def laneOrder : GanttSort → Lane → Lane → Ordering
  | .bytes => compareLex (fun a b => compareOn Lane.bytes b a) (compareOn Lane.name)
  | .start => compareLex (compareOn Lane.firstStart) (compareOn Lane.name)

def byName (bars : List LifetimeBar) : Dict Units (List LifetimeBar) :=
  groupFold LifetimeBar.name (fun _ => []) (fun list b => list ++ [b]) bars

def newLane (sqrt : ℚ → ℚ) (name : Units) (list : List LifetimeBar) : Lane :=
  let bars := sortBy barOrder list
  { name := name
    bars := bars
    row0 := 0
    rows := 0
    bytes := total (fun b => b.tx + b.rx) bars
    firstStart := (bars.head?.map LifetimeBar.startMs).getD 0
    stats := laneStats sqrt bars }

/-- The lanes from one on, with its first row. -/
def lay (now : ℚ) (li row : ℕ) : List Lane → Packed
  | [] => ⟨[], [], row⟩
  | lane :: lanes =>
      let sub := subRows (lane.bars.map fun b => (b.startMs, barEnd now b))
      let rows := sub.foldl max 0 + 1
      let rest := lay now (li + 1) (row + rows) lanes
      { lanes := { lane with row0 := row, rows := rows } :: rest.lanes
        bars := List.zipWith (fun bar s => ⟨bar, row + s, li, barEnd now bar⟩) lane.bars sub ++ rest.bars
        rows := rest.rows }

def packLanes (sqrt : ℚ → ℚ) (bars : List LifetimeBar) (sort : GanttSort) (now : ℚ) : Packed :=
  lay now 0 0 (sortBy (laneOrder sort) ((byName bars).entries.map fun e => newLane sqrt e.1 e.2))

section Greedy

variable {intervals : List (ℚ × ℚ)} {i j row : ℕ}

def startAt (intervals : List (ℚ × ℚ)) (i : ℕ) : ℚ := (intervals.getD i (0, 0)).1

def stopAt (intervals : List (ℚ × ℚ)) (i : ℕ) : ℚ := (intervals.getD i (0, 0)).2

def packing (intervals : List (ℚ × ℚ)) : Rows ℕ ℚ := rowsOf (startAt intervals) (stopAt intervals) (order intervals)

instance : Std.TransCmp (startOrder intervals) := inferInstanceAs (Std.TransCmp (compareLex (compareOn _) compare))

theorem mem_order : i ∈ order intervals ↔ i < intervals.length := mem_sortBy.trans List.mem_range

theorem order_nodup (intervals : List (ℚ × ℚ)) : (order intervals).Nodup := (sortBy_perm _).nodup_iff.mpr List.nodup_range

theorem order_sorted (intervals : List (ℚ × ℚ)) : (order intervals).Pairwise fun i j => startAt intervals i ≤ startAt intervals j := by
  apply (sortBy_pairwise _).imp
  intro i j hij
  obtain hlt | ⟨heq, -⟩ := upto_lex.mp hij
  · exact (compare_lt_iff_lt.mp hlt).le
  · exact (compare_eq_iff_eq.mp heq).le

theorem subRow_place {s : List ℚ × List ℕ} {t : Rows ℕ ℚ} (h : s.1 = t.ends) (i : ℕ) : ∃ row,
    (place (startAt intervals) (stopAt intervals) t i).placed = t.placed ++ [(i, row)] ∧
    (subRow intervals s i).1 = (place (startAt intervals) (stopAt intervals) t i).ends ∧
    (subRow intervals s i).2 = s.2.set i row := by
  have hsub : subRow intervals s i = match t.ends.findIdx? (· ≤ startAt intervals i) with
      | some row => (t.ends.set row (stopAt intervals i), s.2.set i row)
      | none => (t.ends ++ [stopAt intervals i], s.2.set i t.ends.length) := by
    rw [← h]
    rfl
  rw [hsub, place]
  cases t.ends.findIdx? (· ≤ startAt intervals i) with
  | some row => exact ⟨row, rfl, rfl, rfl⟩
  | none => exact ⟨t.ends.length, rfl, rfl, rfl⟩

theorem subRow_placed {is : List ℕ} (hnodup : is.Nodup) (hlt : ∀ i ∈ is, i < intervals.length) :
    (is.foldl (subRow intervals) ([], List.replicate intervals.length 0)).1 = (rowsOf (startAt intervals) (stopAt intervals) is).ends ∧
    (is.foldl (subRow intervals) ([], List.replicate intervals.length 0)).2.length = intervals.length ∧
    ∀ p ∈ (rowsOf (startAt intervals) (stopAt intervals) is).placed,
      (is.foldl (subRow intervals) ([], List.replicate intervals.length 0)).2[p.1]? = some p.2 := by
  induction is using List.reverseRecOn with
  | nil => exact ⟨rfl, List.length_replicate, nofun⟩
  | append_singleton is i ih =>
      obtain ⟨hbefore, -, hdisjoint⟩ := List.nodup_append.mp hnodup
      obtain ⟨hends, hlen, hrows⟩ := ih hbefore fun j hj => hlt j (List.mem_append_left _ hj)
      have hi := hlt i (List.mem_append_right _ List.mem_cons_self)
      rw [rowsOf_snoc, List.foldl_append, List.foldl_cons, List.foldl_nil]
      obtain ⟨row, hplaced, hends', hout⟩ := subRow_place hends i
      rw [hplaced, hends', hout]
      refine ⟨rfl, List.length_set.trans hlen, fun p hp => ?_⟩
      obtain hp | hp := List.mem_append.mp hp
      · have hmem := List.mem_map_of_mem (f := Prod.fst) hp
        rw [placed_fst] at hmem
        rw [List.getElem?_set_ne (Ne.symm (hdisjoint p.1 hmem i List.mem_cons_self)), hrows p hp]
      · obtain rfl := List.mem_singleton.mp hp
        exact List.getElem?_set_self (hlen.symm ▸ hi)

def rowCount (intervals : List (ℚ × ℚ)) : ℕ := (packing intervals).ends.length

theorem length_subRows (intervals : List (ℚ × ℚ)) : (subRows intervals).length = intervals.length :=
  (subRow_placed (order_nodup intervals) fun _ => mem_order.mp).2.1

theorem subRows_getElem? : (subRows intervals)[i]? = some row ↔ (i, row) ∈ (packing intervals).placed := by
  have hplaced := (subRow_placed (order_nodup intervals) fun _ => mem_order.mp).2.2
  constructor
  · intro h
    have hi := (List.getElem?_eq_some_iff.mp h).1
    rw [length_subRows] at hi
    have hmem : i ∈ (packing intervals).placed.map Prod.fst := by
      rw [packing, placed_fst]
      exact mem_order.mpr hi
    obtain ⟨p, hp, rfl⟩ := List.mem_map.mp hmem
    obtain rfl := Option.some.inj ((hplaced p hp).symm.trans h)
    exact hp
  · exact hplaced (i, row)

theorem packing_packed (hle : ∀ iv ∈ intervals, iv.1 ≤ iv.2) :
    IntervalRows.Packed (startAt intervals) (stopAt intervals) (packing intervals) := by
  apply rowsOf_packed
  intro i hi
  have hget := List.getD_eq_getElem intervals (0, 0) (mem_order.mp hi)
  rw [startAt, stopAt, hget]
  exact hle _ (List.getElem_mem _)

theorem mem_subRows (hle : ∀ iv ∈ intervals, iv.1 ≤ iv.2) : row ∈ subRows intervals ↔ row < rowCount intervals := by
  have hpacked := packing_packed hle
  rw [List.mem_iff_getElem?]
  constructor
  · rintro ⟨i, hi⟩
    obtain ⟨e, he, -⟩ := hpacked.upto _ (subRows_getElem?.mp hi)
    exact (List.getElem?_eq_some_iff.mp he).1
  · intro hrow
    obtain ⟨⟨i, row'⟩, hp, rfl, -⟩ := hpacked.last (List.getElem?_eq_getElem hrow)
    exact ⟨i, subRows_getElem?.mpr hp⟩

theorem subRows_apart (hle : ∀ iv ∈ intervals, iv.1 ≤ iv.2) (hi : (subRows intervals)[i]? = some row)
    (hj : (subRows intervals)[j]? = some row) (hij : startOrder intervals i j = .lt) : stopAt intervals i ≤ startAt intervals j := by
  let Apart : ℕ × ℕ → ℕ × ℕ → Prop := fun p q => p.2 = q.2 → startOrder intervals p.1 q.1 = .lt →
    stopAt intervals p.1 ≤ startAt intervals q.1
  have hsorted : (packing intervals).placed.Pairwise fun p q => Upto (startOrder intervals) p.1 q.1 := by
    rw [← List.pairwise_map (f := Prod.fst), packing, placed_fst]
    exact sortBy_pairwise _
  have hfirst : (packing intervals).placed.Pairwise Apart := (packing_packed hle).apart.imp fun h hrow _ => h hrow
  have hsecond : (packing intervals).placed.Pairwise (flip Apart) := by
    apply hsorted.imp
    intro p q hpq _ hlt
    have hgt : startOrder intervals p.1 q.1 = .gt := Std.OrientedCmp.gt_of_lt hlt
    exact absurd hgt (Ordering.isLE_iff_ne_gt.mp hpq)
  have hself : ∀ p ∈ (packing intervals).placed, Apart p p := by
    intro p _ _ hlt
    have heq : startOrder intervals p.1 p.1 = .eq := Std.ReflCmp.compare_self
    rw [heq] at hlt
    cases hlt
  have hapart : Apart (i, row) (j, row) :=
    List.Pairwise.forall_of_forall_of_flip hself hfirst hsecond (subRows_getElem?.mp hi) (subRows_getElem?.mp hj)
  exact hapart rfl hij

theorem depth_order (intervals : List (ℚ × ℚ)) (t : ℚ) :
    depth (startAt intervals) (stopAt intervals) (order intervals) t = depth Prod.fst Prod.snd intervals t := by
  have hrange : (List.range intervals.length).map (fun i => intervals.getD i (0, 0)) = intervals := by
    apply List.ext_getElem
    · rw [List.length_map, List.length_range]
    · intro i hi hi'
      rw [List.getElem_map, List.getElem_range, List.getD_eq_getElem _ _ hi']
  have hcount := List.countP_map (p := fun iv : ℚ × ℚ => decide (iv.1 ≤ t ∧ t < iv.2))
    (f := fun i => intervals.getD i (0, 0)) (l := List.range intervals.length)
  rw [hrange] at hcount
  have hperm : (order intervals).Perm (List.range intervals.length) := sortBy_perm _
  rw [depth, hperm.countP_eq, depth, hcount]
  rfl

/-- With intervals of positive length the rows are the most intervals at one instant. -/
theorem rowCount_greatest (hlt : ∀ iv ∈ intervals, iv.1 < iv.2) (hne : intervals ≠ []) :
    IsGreatest (Set.range (depth Prod.fst Prod.snd intervals)) (rowCount intervals) := by
  have hpos : ∀ i ∈ order intervals, startAt intervals i < stopAt intervals i := by
    intro i hi
    rw [startAt, stopAt, List.getD_eq_getElem intervals (0, 0) (mem_order.mp hi)]
    exact hlt _ (List.getElem_mem _)
  have hupper : ∀ t, depth Prod.fst Prod.snd intervals t ≤ rowCount intervals := by
    intro t
    rw [← depth_order]
    exact depth_le (fun i hi => (hpos i hi).le) t
  refine ⟨?_, Set.forall_mem_range.mpr hupper⟩
  obtain hnil | ⟨t, ht⟩ := deepest (order_sorted intervals) hpos
  · have hlen : (order intervals).length = (List.range intervals.length).length := (sortBy_perm _).length_eq
    rw [hnil, List.length_range] at hlen
    exact absurd (List.length_eq_zero_iff.mp hlen.symm) hne
  · rw [depth_order] at ht
    exact ⟨t, (hupper t).antisymm ht⟩

end Greedy

section Lay

variable {now : ℚ} {li row : ℕ} {lane : Lane} {bs : List PackedBar} {p : Packed}

def spans (now : ℚ) (bars : List LifetimeBar) : List (ℚ × ℚ) := bars.map fun b => (b.startMs, barEnd now b)

structure Block (now : ℚ) (li row : ℕ) (lane : Lane) (bs : List PackedBar) : Prop where
  row0 : lane.row0 = row
  rows : lane.rows = rowCount (spans now lane.bars)
  bars : bs.map PackedBar.bar = lane.bars
  own : ∀ b ∈ bs, b.lane = li ∧ b.stop = barEnd now b.bar
  within : ∀ b ∈ bs, row ≤ b.row ∧ b.row < row + lane.rows
  used : ∀ r < lane.rows, ∃ b ∈ bs, b.row = row + r
  apart : bs.Pairwise fun b c => b.row = c.row → b.stop ≤ c.bar.startMs

inductive Laid (now : ℚ) : ℕ → ℕ → Packed → Prop
  | nil (li row : ℕ) : Laid now li row ⟨[], [], row⟩
  | cons {li row : ℕ} {lane : Lane} {bs : List PackedBar} {rest : Packed} : Block now li row lane bs → Laid now (li + 1) (row + lane.rows) rest →
      Laid now li row ⟨lane :: rest.lanes, bs ++ rest.bars, rest.rows⟩

theorem foldl_max_lt {l : List ℕ} {m : ℕ} (hne : l ≠ []) (h : ∀ r, r ∈ l ↔ r < m) : l.foldl max 0 + 1 = m := by
  have hle : ∀ (l : List ℕ) (a : ℕ), (∀ r ∈ l, r ≤ l.foldl max a) ∧ a ≤ l.foldl max a ∧ (l.foldl max a = a ∨ l.foldl max a ∈ l) := by
    intro l
    induction l with
    | nil => exact fun a => ⟨nofun, le_rfl, .inl rfl⟩
    | cons r l ih =>
        intro a
        obtain ⟨hall, hinit, hmem⟩ := ih (max a r)
        refine ⟨?_, (le_max_left a r).trans hinit, ?_⟩
        · rintro r' (_ | ⟨_, hr'⟩)
          · exact (le_max_right a r).trans hinit
          · exact hall r' hr'
        · obtain heq | hmem := hmem
          · obtain hmax | hmax := max_choice a r
            · exact .inl (heq.trans hmax)
            · exact .inr (List.mem_cons.mpr (.inl (heq.trans hmax)))
          · exact .inr (List.mem_cons_of_mem r hmem)
  obtain ⟨hall, -, hmem⟩ := hle l 0
  have hpos : 0 < m := by
    obtain ⟨r, hr⟩ := List.exists_mem_of_ne_nil l hne
    exact Nat.zero_lt_of_lt ((h r).mp hr)
  have hlast := hall (m - 1) ((h (m - 1)).mpr (by omega))
  obtain hzero | hmem := hmem
  · omega
  · have hlt := (h _).mp hmem
    omega

theorem startOrder_lt {intervals : List (ℚ × ℚ)} {i j : ℕ} (hle : startAt intervals i ≤ startAt intervals j) (hij : i < j) :
    startOrder intervals i j = .lt := by
  change (compare (startAt intervals i) (startAt intervals j)).then (compare i j) = .lt
  obtain hlt | heq := hle.lt_or_eq
  · rw [compare_lt_iff_lt.mpr hlt]
    rfl
  · rw [compare_eq_iff_eq.mpr heq]
    exact compare_lt_iff_lt.mpr hij

theorem startAt_spans {bars : List LifetimeBar} {bar : LifetimeBar} {i : ℕ} (hb : bars[i]? = some bar) :
    startAt (spans now bars) i = bar.startMs ∧ stopAt (spans now bars) i = barEnd now bar := by
  have hget : (spans now bars).getD i (0, 0) = (bar.startMs, barEnd now bar) := by
    rw [List.getD_eq_getElem?_getD, spans, List.getElem?_map, hb]
    rfl
  rw [startAt, stopAt, hget]
  exact ⟨rfl, rfl⟩

theorem bar_of_getElem? {bars : List LifetimeBar} {subs : List ℕ} {i : ℕ} {b : PackedBar}
    (hb : (List.zipWith (fun bar s => (⟨bar, row + s, li, barEnd now bar⟩ : PackedBar)) bars subs)[i]? = some b) :
    bars[i]? = some b.bar ∧ subs[i]? = some (b.row - row) ∧ row ≤ b.row ∧ b.lane = li ∧ b.stop = barEnd now b.bar := by
  obtain ⟨bar, s, hbar, hs, rfl⟩ := List.getElem?_zipWith_eq_some.mp hb
  exact ⟨hbar, by rw [Nat.add_sub_cancel_left, hs], Nat.le_add_right row s, rfl, rfl⟩

theorem block_of_lane (hne : lane.bars ≠ []) (hsorted : lane.bars.Pairwise fun b c => b.startMs ≤ c.startMs)
    (hle : ∀ b ∈ lane.bars, b.startMs ≤ barEnd now b) : Block now li row
      { lane with row0 := row, rows := (subRows (spans now lane.bars)).foldl max 0 + 1 }
      (List.zipWith (fun bar s => ⟨bar, row + s, li, barEnd now bar⟩) lane.bars (subRows (spans now lane.bars))) := by
  have hspans : ∀ iv ∈ spans now lane.bars, iv.1 ≤ iv.2 := by
    intro iv hiv
    obtain ⟨b, hb, rfl⟩ := List.mem_map.mp hiv
    exact hle b hb
  have hlen : (subRows (spans now lane.bars)).length = lane.bars.length := by rw [length_subRows, spans, List.length_map]
  have hrows : (subRows (spans now lane.bars)).foldl max 0 + 1 = rowCount (spans now lane.bars) := by
    apply foldl_max_lt _ fun r => mem_subRows hspans
    intro hnil
    rw [hnil] at hlen
    exact hne (List.length_eq_zero_iff.mp hlen.symm)
  have hrow : ∀ r, r ∈ subRows (spans now lane.bars) ↔ r < rowCount (spans now lane.bars) := fun r => mem_subRows hspans
  refine ⟨rfl, hrows, ?_, fun b hb => ?_, fun b hb => ?_, fun r hr => ?_, ?_⟩
  · apply List.ext_getElem
    · rw [List.length_map, List.length_zipWith, hlen, Nat.min_self]
    · intro i hi hi'
      rw [List.getElem_map, List.getElem_zipWith]
  · obtain ⟨i, hi⟩ := List.mem_iff_getElem?.mp hb
    exact (bar_of_getElem? hi).2.2.2
  · obtain ⟨i, hi⟩ := List.mem_iff_getElem?.mp hb
    obtain ⟨-, hs, hle, -⟩ := bar_of_getElem? hi
    have hlt := (hrow _).mp (List.mem_of_getElem? hs)
    dsimp only
    rw [hrows]
    omega
  · dsimp only at hr
    rw [hrows] at hr
    obtain ⟨i, hi⟩ := List.mem_iff_getElem?.mp ((hrow r).mpr hr)
    have hlt := (List.getElem?_eq_some_iff.mp hi).1
    rw [hlen] at hlt
    have hb := List.getElem?_zipWith_eq_some (f := fun bar s => (⟨bar, row + s, li, barEnd now bar⟩ : PackedBar)).mpr
      ⟨_, _, List.getElem?_eq_getElem hlt, hi, rfl⟩
    exact ⟨_, List.mem_of_getElem? hb, rfl⟩
  · rw [List.pairwise_iff_getElem]
    intro i j hi hj hij hsame
    obtain ⟨hbar, hs, hge, -, hstop⟩ := bar_of_getElem? (List.getElem?_eq_getElem hi)
    obtain ⟨hbar', hs', hge', -⟩ := bar_of_getElem? (List.getElem?_eq_getElem hj)
    have hbefore := List.pairwise_iff_getElem.mp hsorted i j (List.getElem?_eq_some_iff.mp hbar).1
      (List.getElem?_eq_some_iff.mp hbar').1 hij
    rw [(List.getElem?_eq_some_iff.mp hbar).2, (List.getElem?_eq_some_iff.mp hbar').2] at hbefore
    rw [← (startAt_spans hbar).1, ← (startAt_spans hbar').1] at hbefore
    rw [← hsame] at hs'
    have hapart := subRows_apart hspans hs hs' (startOrder_lt hbefore hij)
    rw [(startAt_spans hbar).2, (startAt_spans hbar').1] at hapart
    rw [hstop]
    exact hapart

theorem lay_laid {lanes : List Lane} (hne : ∀ lane ∈ lanes, lane.bars ≠ [])
    (hsorted : ∀ lane ∈ lanes, lane.bars.Pairwise fun b c => b.startMs ≤ c.startMs)
    (hle : ∀ lane ∈ lanes, ∀ b ∈ lane.bars, b.startMs ≤ barEnd now b) : Laid now li row (lay now li row lanes) := by
  induction lanes generalizing li row with
  | nil => exact .nil li row
  | cons lane lanes ih =>
      refine .cons (block_of_lane (hne lane List.mem_cons_self) (hsorted lane List.mem_cons_self) (hle lane List.mem_cons_self)) ?_
      exact ih (fun l hl => hne l (List.mem_cons_of_mem lane hl)) (fun l hl => hsorted l (List.mem_cons_of_mem lane hl))
        fun l hl => hle l (List.mem_cons_of_mem lane hl)

theorem lay_lanes (now : ℚ) (li row : ℕ) (lanes : List Lane) :
    (lay now li row lanes).lanes.map (fun l => (l.name, l.bars)) = lanes.map fun l => (l.name, l.bars) := by
  induction lanes generalizing li row with
  | nil => rfl
  | cons lane lanes ih => exact congrArg (List.cons (lane.name, lane.bars)) (ih _ _)

variable (h : Laid now li row p) {k j r : ℕ} {lane' : Lane} {b : PackedBar}

include h

theorem Laid.rows : p.rows = row + (p.lanes.map Lane.rows).sum := by
  induction h with
  | nil li row => rfl
  | cons hb _ ih => rw [List.map_cons, List.sum_cons, ih, Nat.add_assoc]

theorem Laid.bars : p.bars.map PackedBar.bar = p.lanes.flatMap Lane.bars := by
  induction h with
  | nil li row => rfl
  | cons hb _ ih => rw [List.map_append, hb.bars, ih, List.flatMap_cons]

theorem Laid.rowCount (hk : p.lanes[k]? = some lane) : lane.rows = Lanes.rowCount (spans now lane.bars) := by
  induction h generalizing k with
  | nil li row => cases hk
  | cons hb _ ih =>
      cases k with
      | zero =>
          cases hk
          exact hb.rows
      | succ k => exact ih hk

theorem Laid.row0 (hk : p.lanes[k]? = some lane) : lane.row0 = row + ((p.lanes.take k).map Lane.rows).sum := by
  induction h generalizing k with
  | nil li row => cases hk
  | cons hb _ ih =>
      cases k with
      | zero =>
          cases hk
          exact hb.row0
      | succ k => rw [ih hk, List.take_succ_cons, List.map_cons, List.sum_cons, Nat.add_assoc]

theorem Laid.above (hk : p.lanes[k]? = some lane) (hj : p.lanes[j]? = some lane') (hkj : k < j) : lane.row0 + lane.rows ≤ lane'.row0 := by
  induction h generalizing k j with
  | nil li row => cases hk
  | @cons li row first bs rest hb hrest ih =>
      obtain ⟨j, rfl⟩ := Nat.exists_eq_add_one.mpr (Nat.zero_lt_of_lt hkj)
      cases k with
      | zero =>
          cases hk
          rw [hb.row0, hrest.row0 hj]
          exact Nat.le_add_right _ _
      | succ k => exact ih hk hj (Nat.lt_of_succ_lt_succ hkj)

theorem Laid.mem (hmem : b ∈ p.bars) : li ≤ b.lane ∧ b.stop = barEnd now b.bar ∧
    ∃ lane, p.lanes[b.lane - li]? = some lane ∧ lane.row0 ≤ b.row ∧ b.row < lane.row0 + lane.rows := by
  induction h with
  | nil li row => cases hmem
  | @cons li row first bs rest hb _ ih =>
      obtain hmem | hmem := List.mem_append.mp hmem
      · obtain ⟨hlane, hstop⟩ := hb.own b hmem
        refine ⟨hlane.ge, hstop, first, ?_, ?_⟩
        · rw [hlane, Nat.sub_self]
          rfl
        · rw [hb.row0]
          exact hb.within b hmem
      · obtain ⟨hle, hstop, lane, hlane, hrow⟩ := ih hmem
        refine ⟨Nat.le_of_succ_le hle, hstop, lane, ?_, hrow⟩
        obtain ⟨d, hd⟩ := Nat.exists_eq_add_of_le hle
        rw [hd, Nat.add_sub_cancel_left] at hlane
        rw [hd, Nat.add_assoc, Nat.add_sub_cancel_left, Nat.add_comm 1 d]
        exact hlane

theorem Laid.used (hk : p.lanes[k]? = some lane) (hr : r < lane.rows) : ∃ b ∈ p.bars, b.lane = li + k ∧ b.row = lane.row0 + r := by
  induction h generalizing k with
  | nil li row => cases hk
  | cons hb _ ih =>
      cases k with
      | zero =>
          cases hk
          obtain ⟨b, hmem, hrow⟩ := hb.used r hr
          exact ⟨b, List.mem_append_left _ hmem, (hb.own b hmem).1, by rw [hb.row0, hrow]⟩
      | succ k =>
          obtain ⟨b, hmem, hlane, hrow⟩ := ih hk
          exact ⟨b, List.mem_append_right _ hmem, by omega, hrow⟩

theorem Laid.lane_ge (hmem : b ∈ p.bars) : li ≤ b.lane := (h.mem hmem).1

theorem Laid.own (hk : p.lanes[k]? = some lane) : (p.bars.filter fun b => b.lane = li + k).map PackedBar.bar = lane.bars := by
  induction h generalizing k with
  | nil li row => cases hk
  | @cons li row first bs rest hb hrest ih =>
      cases k with
      | zero =>
          cases hk
          have hall : bs.filter (fun b => b.lane = li + 0) = bs :=
            List.filter_eq_self.mpr fun b hmem => decide_eq_true (hb.own b hmem).1
          have hnone : rest.bars.filter (fun b => b.lane = li + 0) = [] :=
            List.filter_eq_nil_iff.mpr fun b hmem => by
              have hge := hrest.lane_ge hmem
              simp only [decide_eq_true_eq]
              omega
          rw [List.filter_append, hall, hnone, List.append_nil, hb.bars]
      | succ k =>
          have hnone : bs.filter (fun b => b.lane = li + (k + 1)) = [] :=
            List.filter_eq_nil_iff.mpr fun b hmem => by
              have heq := (hb.own b hmem).1
              simp only [decide_eq_true_eq]
              omega
          rw [List.filter_append, hnone, List.nil_append, Nat.add_comm k 1, ← Nat.add_assoc]
          exact ih hk

theorem Laid.row_ge (hmem : b ∈ p.bars) : row ≤ b.row := by
  obtain ⟨-, -, lane, hlane, hle, -⟩ := h.mem hmem
  rw [h.row0 hlane] at hle
  exact (Nat.le_add_right _ _).trans hle

theorem Laid.apart : p.bars.Pairwise fun b c => b.row = c.row → b.stop ≤ c.bar.startMs := by
  induction h with
  | nil li row => exact .nil
  | cons hb hrest ih =>
      refine List.pairwise_append.mpr ⟨hb.apart, ih, ?_⟩
      intro b hmem c hc hrow
      have hlt := (hb.within b hmem).2
      have hge := hrest.row_ge hc
      omega

theorem Laid.cover (hrow : row ≤ r) (hr : r < p.rows) :
    ∃ (k : ℕ) (lane : Lane), p.lanes[k]? = some lane ∧ lane.row0 ≤ r ∧ r < lane.row0 + lane.rows := by
  induction h with
  | nil li row => exact absurd hr (Nat.not_lt.mpr hrow)
  | @cons li row first bs rest hb _ ih =>
      obtain hlt | hge := Nat.lt_or_ge r (row + first.rows)
      · exact ⟨0, first, rfl, by rwa [hb.row0], by rwa [hb.row0]⟩
      · obtain ⟨k, lane, hk, hin⟩ := ih hge hr
        exact ⟨k + 1, lane, hk, hin⟩

end Lay

section Pack

variable {bars : List LifetimeBar} {now : ℚ} {lane : Lane}

theorem get?_byName (name : Units) : (byName bars).get? name =
    if ofKey LifetimeBar.name name bars = [] then none else some (ofKey LifetimeBar.name name bars) := by
  have hsnoc : ∀ (rows list : List LifetimeBar), rows.foldl (fun list b => list ++ [b]) list = list ++ rows := by
    intro rows
    induction rows with
    | nil => exact fun list => (List.append_nil list).symm
    | cons b rows ih => exact fun list => (ih (list ++ [b])).trans (List.append_assoc list [b] rows)
  rw [byName, get?_groupFold, collect_const, hsnoc, List.nil_append]

def newLanes (sqrt : ℚ → ℚ) (bars : List LifetimeBar) : List Lane := (byName bars).entries.map fun e => newLane sqrt e.1 e.2

theorem mem_newLanes {sqrt : ℚ → ℚ} (h : lane ∈ newLanes sqrt bars) :
    ofKey LifetimeBar.name lane.name bars ≠ [] ∧ lane.bars = sortBy barOrder (ofKey LifetimeBar.name lane.name bars) := by
  obtain ⟨⟨name, list⟩, he, rfl⟩ := List.mem_map.mp h
  have hget := ((byName bars).mem_iff_get? name list).mp he
  rw [get?_byName] at hget
  obtain ⟨hne, hlist⟩ := Option.ite_none_left_eq_some.mp hget
  exact ⟨hne, congrArg (sortBy barOrder) (Option.some.inj hlist).symm⟩

theorem barOrder_start {b c : LifetimeBar} (h : Upto barOrder b c) : b.startMs ≤ c.startMs := by
  obtain hlt | ⟨heq, -⟩ := upto_lex.mp h
  · exact (compare_lt_iff_lt.mp hlt).le
  · exact (compare_eq_iff_eq.mp heq).le

instance : Std.TransCmp barOrder := inferInstanceAs (Std.TransCmp (compareLex (compareOn _) (compareOn _)))

theorem newLanes_names (sqrt : ℚ → ℚ) (bars : List LifetimeBar) : ((newLanes sqrt bars).map Lane.name).Nodup := by
  rw [newLanes, List.map_map]
  exact (byName bars).nodup

theorem newLanes_bars (sqrt : ℚ → ℚ) (bars : List LifetimeBar) : ((newLanes sqrt bars).flatMap Lane.bars).Perm bars := by
  have hsorted : ((newLanes sqrt bars).flatMap Lane.bars).Perm ((byName bars).entries.flatMap Prod.snd) := by
    rw [newLanes, List.flatMap_map]
    exact List.Perm.flatMap_left _ fun e _ => sortBy_perm e.2
  have hgroups := (entries_perm (d := byName bars) get?_byName).flatMap_right Prod.snd
  rw [List.flatMap_map] at hgroups
  have hall : ((bars.map LifetimeBar.name).dedup.flatMap fun name => ofKey LifetimeBar.name name bars).Perm _ :=
    groups_perm (List.nodup_dedup (bars.map LifetimeBar.name)) bars
  rw [ofKeys_all] at hall
  exact hsorted.trans (hgroups.trans hall)

end Pack

/-- Every bar in a row of the lane of its name; lanes below one another; rows without overlaps. -/
structure Layout (bars : List LifetimeBar) (now : ℚ) (p : Packed) : Prop where
  placed : (p.bars.map PackedBar.bar).Perm bars
  names : (p.lanes.map Lane.name).Nodup
  lanes : ∀ {k lane}, p.lanes[k]? = some lane →
    (p.bars.filter fun b => b.lane = k).map PackedBar.bar = lane.bars ∧ lane.bars.Perm (bars.filter fun b => b.name = lane.name)
  within : ∀ b ∈ p.bars, b.stop = barEnd now b.bar ∧
    ∃ lane, p.lanes[b.lane]? = some lane ∧ lane.row0 ≤ b.row ∧ b.row < lane.row0 + lane.rows
  used : ∀ {k lane}, p.lanes[k]? = some lane → ∀ r < lane.rows, ∃ b ∈ p.bars, b.lane = k ∧ b.row = lane.row0 + r
  row0 : ∀ {k lane}, p.lanes[k]? = some lane → lane.row0 = ((p.lanes.take k).map Lane.rows).sum
  rows : p.rows = (p.lanes.map Lane.rows).sum
  cover : ∀ r < p.rows, ∃! k : ℕ, ∃ lane : Lane, p.lanes[k]? = some lane ∧ lane.row0 ≤ r ∧ r < lane.row0 + lane.rows
  apart : p.bars.Pairwise fun b c => b.row = c.row → b.stop ≤ c.bar.startMs

/-- A lane has as many rows as bars at some instant, and any rows without overlaps are no fewer. -/
structure Fewest (now : ℚ) (lane : Lane) : Prop where
  deepest : IsGreatest (Set.range (depth LifetimeBar.startMs (barEnd now) lane.bars)) lane.rows
  fewest : ∀ row : ℕ → ℕ, (∀ i j b c, lane.bars[i]? = some b → lane.bars[j]? = some c → i ≠ j → row i = row j →
    barEnd now b ≤ c.startMs ∨ barEnd now c ≤ b.startMs) → lane.rows ≤ ((List.range lane.bars.length).map row).dedup.length

section Optimal

variable {now : ℚ} {lane : Lane}

theorem depth_spans (now : ℚ) (bars : List LifetimeBar) (t : ℚ) :
    depth Prod.fst Prod.snd (spans now bars) t = depth LifetimeBar.startMs (barEnd now) bars t := List.countP_map

theorem fewest_of_rowCount (hne : lane.bars ≠ []) (hpos : ∀ b ∈ lane.bars, b.startMs < barEnd now b)
    (hrows : lane.rows = rowCount (spans now lane.bars)) : Fewest now lane := by
  have hspans : ∀ iv ∈ spans now lane.bars, iv.1 < iv.2 := by
    intro iv hiv
    obtain ⟨b, hb, rfl⟩ := List.mem_map.mp hiv
    exact hpos b hb
  have hgreatest := rowCount_greatest hspans (mt List.map_eq_nil_iff.mp hne)
  rw [← hrows, funext (depth_spans now lane.bars)] at hgreatest
  refine ⟨hgreatest, fun row hrow => ?_⟩
  obtain ⟨t, ht⟩ := hgreatest.1
  have hat : ∀ {i}, i ∈ order (spans now lane.bars) → ∃ b, lane.bars[i]? = some b ∧
      startAt (spans now lane.bars) i = b.startMs ∧ stopAt (spans now lane.bars) i = barEnd now b := by
    intro i hi
    have hlt := mem_order.mp hi
    have hlt' : i < lane.bars.length := by rwa [spans, List.length_map] at hlt
    refine ⟨lane.bars[i], List.getElem?_eq_getElem hlt', ?_⟩
    rw [startAt, stopAt, List.getD_eq_getElem _ _ hlt]
    simp only [spans, List.getElem_map, and_self]
  have hapart : ∀ i ∈ order (spans now lane.bars), ∀ j ∈ order (spans now lane.bars), i ≠ j → row i = row j →
      stopAt (spans now lane.bars) i ≤ startAt (spans now lane.bars) j ∨
      stopAt (spans now lane.bars) j ≤ startAt (spans now lane.bars) i := by
    intro i hi j hj hij hsame
    obtain ⟨b, hb, hstart, hstop⟩ := hat hi
    obtain ⟨c, hc, hstart', hstop'⟩ := hat hj
    rw [hstart, hstop, hstart', hstop']
    exact hrow i j b c hb hc hij hsame
  have hother := depth_le_rows (order_nodup (spans now lane.bars)) row hapart t
  have hperm : (order (spans now lane.bars)).Perm (List.range lane.bars.length) := by
    rw [← List.length_map (fun b => (b.startMs, barEnd now b))]
    exact sortBy_perm _
  rw [depth_order, depth_spans, ht, (hperm.map row).dedup.length_eq] at hother
  exact hother

end Optimal

section Layout

variable {sqrt : ℚ → ℚ} {bars : List LifetimeBar} {sort : GanttSort} {now : ℚ} {lane : Lane}

structure OfName (bars : List LifetimeBar) (lane : Lane) : Prop where
  ne : lane.bars ≠ []
  perm : lane.bars.Perm (ofKey LifetimeBar.name lane.name bars)
  sorted : lane.bars.Pairwise fun b c => b.startMs ≤ c.startMs

theorem OfName.mem (h : OfName bars lane) {b : LifetimeBar} (hb : b ∈ lane.bars) : b ∈ bars :=
  (mem_ofKey.mp (h.perm.mem_iff.mp hb)).1

theorem sorted_ofName (h : lane ∈ sortBy (laneOrder sort) (newLanes sqrt bars)) : OfName bars lane := by
  obtain ⟨hne, hbars⟩ := mem_newLanes (mem_sortBy.mp h)
  have hperm : (sortBy barOrder (ofKey LifetimeBar.name lane.name bars)).Perm (ofKey LifetimeBar.name lane.name bars) := sortBy_perm _
  rw [← hbars] at hperm
  refine ⟨fun hnil => ?_, hperm, ?_⟩
  · rw [hnil] at hperm
    exact hne (List.nil_perm.mp hperm)
  · rw [hbars]
    exact (sortBy_pairwise _).imp barOrder_start

theorem packLanes_lanes (sqrt : ℚ → ℚ) (bars : List LifetimeBar) (sort : GanttSort) (now : ℚ) : (packLanes sqrt bars sort now).lanes.map (fun l => (l.name, l.bars)) =
    (sortBy (laneOrder sort) (newLanes sqrt bars)).map fun l => (l.name, l.bars) := lay_lanes now 0 0 _

theorem packLanes_ofName (h : lane ∈ (packLanes sqrt bars sort now).lanes) : OfName bars lane := by
  have hmem := List.mem_map_of_mem (f := fun l : Lane => (l.name, l.bars)) h
  rw [packLanes_lanes] at hmem
  obtain ⟨old, hold, heq⟩ := List.mem_map.mp hmem
  obtain ⟨hname, hbars⟩ := Prod.mk.inj heq
  obtain ⟨hne, hperm, hsorted⟩ := sorted_ofName hold
  exact ⟨hbars ▸ hne, hbars ▸ hname ▸ hperm, hbars ▸ hsorted⟩

theorem packLanes_laid (hle : ∀ b ∈ bars, b.startMs ≤ barEnd now b) : Laid now 0 0 (packLanes sqrt bars sort now) :=
  lay_laid (fun _ h => (sorted_ofName h).ne) (fun _ h => (sorted_ofName h).sorted)
    fun _ h b hb => hle b ((sorted_ofName h).mem hb)

theorem packLanes_names : ((packLanes sqrt bars sort now).lanes.map Lane.name).Nodup := by
  have hnames := congrArg (List.map Prod.fst) (packLanes_lanes sqrt bars sort now)
  rw [List.map_map, List.map_map] at hnames
  change (packLanes sqrt bars sort now).lanes.map Lane.name = (sortBy (laneOrder sort) (newLanes sqrt bars)).map Lane.name at hnames
  rw [hnames]
  exact ((sortBy_perm _).map Lane.name).nodup_iff.mpr (newLanes_names sqrt bars)

theorem packLanes_bars : ((packLanes sqrt bars sort now).lanes.flatMap Lane.bars).Perm bars := by
  have hbars := congrArg (List.flatMap Prod.snd) (packLanes_lanes sqrt bars sort now)
  rw [List.flatMap_map, List.flatMap_map] at hbars
  change (packLanes sqrt bars sort now).lanes.flatMap Lane.bars = (sortBy (laneOrder sort) (newLanes sqrt bars)).flatMap Lane.bars at hbars
  rw [hbars]
  exact ((sortBy_perm _).flatMap_right Lane.bars).trans (newLanes_bars sqrt bars)

theorem Laid.lane_unique {p : Packed} (h : Laid now 0 0 p) {r : ℕ} (hr : r < p.rows) :
    ∃! k : ℕ, ∃ lane : Lane, p.lanes[k]? = some lane ∧ lane.row0 ≤ r ∧ r < lane.row0 + lane.rows := by
  obtain ⟨k, lane, hk, hle, hlt⟩ := h.cover (Nat.zero_le r) hr
  refine ⟨k, ⟨lane, hk, hle, hlt⟩, ?_⟩
  rintro j ⟨lane', hj, hle', hlt'⟩
  obtain hjk | rfl | hkj := Nat.lt_trichotomy j k
  · have habove := h.above hj hk hjk
    omega
  · rfl
  · have habove := h.above hk hj hkj
    omega

theorem Laid.layout {p : Packed} (h : Laid now 0 0 p) (hnames : (p.lanes.map Lane.name).Nodup)
    (hbars : (p.lanes.flatMap Lane.bars).Perm bars) (hof : ∀ lane ∈ p.lanes, OfName bars lane) : Layout bars now p where
  placed := by rwa [h.bars]
  names := hnames
  lanes {k lane} hk := by
    have hown := h.own hk
    rw [Nat.zero_add] at hown
    exact ⟨hown, (hof lane (List.mem_of_getElem? hk)).perm⟩
  within b hb := (h.mem hb).2
  used {k lane} hk r hr := by
    obtain ⟨b, hb, hlane, hrow⟩ := h.used hk hr
    exact ⟨b, hb, hlane.trans (Nat.zero_add k), hrow⟩
  row0 hk := (h.row0 hk).trans (Nat.zero_add _)
  rows := h.rows.trans (Nat.zero_add _)
  cover _ hr := h.lane_unique hr
  apart := h.apart

end Layout

/-- Every bar has its place, rows do not overlap, and a lane has no more rows than it needs. -/
theorem packLanes_layout (sqrt : ℚ → ℚ) (bars : List LifetimeBar) (sort : GanttSort) (now : ℚ)
    (hle : ∀ b ∈ bars, b.startMs ≤ barEnd now b) : Layout bars now (packLanes sqrt bars sort now) ∧
      ((∀ b ∈ bars, b.startMs < barEnd now b) → ∀ lane ∈ (packLanes sqrt bars sort now).lanes, Fewest now lane) := by
  have hlaid : Laid now 0 0 (packLanes sqrt bars sort now) := packLanes_laid hle
  refine ⟨hlaid.layout packLanes_names packLanes_bars fun _ h => packLanes_ofName h, fun hpos lane hlane => ?_⟩
  have hof := packLanes_ofName hlane
  obtain ⟨k, hk⟩ := List.mem_iff_getElem?.mp hlane
  exact fewest_of_rowCount hof.ne (fun b hb => hpos b (hof.mem hb)) (hlaid.rowCount hk)

/-- Two bars that touch share a row; a third that overlaps both takes another. -/
theorem packLanes_three : ∃ bars : List LifetimeBar, bars.length = 3 ∧ Layout bars 15 (packLanes id bars .start 15) ∧
    ∃ lane ∈ (packLanes id bars .start 15).lanes, lane.rows = 2 ∧ Fewest 15 lane := by
  let bars : List LifetimeBar := [⟨[1], [97], 0, 0, 0, some 10, 0, 0⟩, ⟨[2], [97], 10, 10, 10, some 20, 0, 0⟩,
    ⟨[3], [97], 5, 5, 5, none, 0, 0⟩]
  have hpos : ∀ b ∈ bars, b.startMs < barEnd 15 b := by decide +kernel
  have hrows : (packLanes id bars .start 15).lanes.map Lane.rows = [2] := by decide +kernel
  obtain ⟨hlayout, hfewest⟩ := packLanes_layout id bars .start 15 fun b hb => (hpos b hb).le
  obtain ⟨lane, hlane, htwo⟩ := List.mem_map.mp (hrows ▸ List.mem_singleton_self 2)
  exact ⟨bars, rfl, hlayout, lane, hlane, htwo, hfewest hpos lane hlane⟩

end NetWatch.History.Lanes
