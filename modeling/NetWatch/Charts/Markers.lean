import NetWatch.History.NewDests
import NetWatch.Lib.SortBy
import NetWatch.History.Processes
import NetWatch.Lib.Binary64
import NetWatch.Lib.Clusters

namespace NetWatch.Charts.Markers

open Lib Lib.Clusters Lib.SortBy
open History.Processes (LifecycleProc)
open History.NewDests (NewDest)
open Lib.JsNumber (mathRound le_mathRound mathRound_lt)

structure TimeRange where
  fromMs : ℤ
  toMs : ℤ

def TimeRange.contains (r : TimeRange) (t : ℤ) : Bool := r.fromMs ≤ t && t < r.toMs

inductive EventsMode
  | off
  | starts
  | all
  deriving DecidableEq

inductive EventKind
  | start
  | ended
  deriving DecidableEq

structure LifecycleEvent where
  kind : EventKind
  t : ℤ
  proc : LifecycleProc
  deriving DecidableEq

def eventsOf (range : TimeRange) (mode : EventsMode) (proc : LifecycleProc) : EventKind → Option LifecycleEvent
  | .start => if mode ≠ .off ∧ range.contains proc.firstSeen then some ⟨.start, proc.firstSeen, proc⟩ else none
  | .ended => if mode = .all then (proc.ended.filter range.contains).map fun t => ⟨.ended, t, proc⟩ else none

def eventOrder : LifecycleEvent → LifecycleEvent → Ordering :=
  compareLex (compareOn LifecycleEvent.t) fun a b => compareOn (fun e : LifecycleEvent => e.proc.bytes.toNat) b a

def lifecycleEvents (procs : List LifecycleProc) (range : TimeRange) (mode : EventsMode) (kind : EventKind) :
    List LifecycleEvent :=
  sortBy eventOrder (procs.filterMap fun proc => eventsOf range mode proc kind)

/-- What is drawn for a group: its items, at the mean time, under the one name that
they have, if it is one. -/
structure Marker (α : Type) where
  t : ℤ
  items : List α
  name : Option String

def clusterPx : ℚ := 4

def ndClusterPx : ℚ := 6

section Groups

variable {α : Type} (time : α → ℤ)

def within (gap : ℚ) (first e : α) : Bool := ((time e - time first : ℤ) : ℚ) < gap

def gapOf (msPerPx minPx : ℚ) : ℚ := max 0 (Binary64.mul msPerPx minPx)

def meanTime (g : List α) : ℤ := mathRound ((g.map time).sum / g.length : ℚ)

def nameOf (name : α → String) : List α → Option String
  | [] => none
  | a :: g => if g.all fun e => name e = name a then some (name a) else none

def toMarker (name : α → String) (order : α → α → Ordering) (g : List α) : Marker α :=
  let items := sortBy order g
  ⟨meanTime time g, items, nameOf name items⟩

end Groups

structure MarkerCluster extends Marker LifecycleEvent where
  kind : Option EventKind

def itemOrder : LifecycleEvent → LifecycleEvent → Ordering :=
  compareLex (fun a b => compareOn (fun e : LifecycleEvent => e.proc.bytes.toNat) b a) (compareOn LifecycleEvent.t)

def clusterMarkers (events : List LifecycleEvent) (msPerPx : ℚ) (minPx : ℚ := clusterPx) : List MarkerCluster :=
  (clusters (within LifecycleEvent.t (gapOf msPerPx minPx)) events).map fun g =>
    { toMarker LifecycleEvent.t (fun e => e.proc.name) itemOrder g with kind := g.head?.map LifecycleEvent.kind }

def destOrder : NewDest → NewDest → Ordering :=
  compareLex (fun a b => compareOn NewDest.firstHourBytes b a) (compareOn NewDest.firstMs)

def clusterNewDests (dests : List NewDest) (range : TimeRange) (msPerPx : ℚ) (minPx : ℚ := ndClusterPx) : List (Marker NewDest) :=
  let sorted := sortBy (compareOn NewDest.firstMs) (dests.filter fun d => range.contains d.firstMs)
  (clusters (within NewDest.firstMs (gapOf msPerPx minPx)) sorted).map (toMarker NewDest.firstMs NewDest.name destOrder)

section Drawn

variable {α : Type} {time : α → ℤ} {gap : ℚ} {name : α → String} {order : α → α → Ordering} {l l' g : List α}

/-- The items of some markers are those of a list, each marker has some, in their
order, none spans the gap, and no grouping in which no group spans it has fewer
groups. A marker lies between its items, and has a name if it is the one of all. -/
structure Drawn (time : α → ℤ) (name : α → String) (order : α → α → Ordering) (gap : ℚ) (l : List α)
    (markers : List (Marker α)) : Prop where
  items : (markers.flatMap Marker.items).Perm l
  present : ∀ m ∈ markers, m.items ≠ []
  sorted : ∀ m ∈ markers, m.items.Pairwise (Upto order)
  narrow : ∀ m ∈ markers, m.items.Pairwise fun a b => ((|time a - time b| : ℤ) : ℚ) < gap
  mean : ∀ m ∈ markers, ∃ a ∈ m.items, ∃ b ∈ m.items, time a ≤ m.t ∧ m.t ≤ time b
  named : ∀ m ∈ markers, ∀ n, m.name = some n ↔ ∀ e ∈ m.items, name e = n
  apart : markers.Pairwise fun m m' => ∃ a ∈ m.items, ∀ b ∈ m'.items, gap ≤ ((time b - time a : ℤ) : ℚ)
  fewest : ∀ parts : List (List α), parts.flatten.Perm l →
    (∀ p ∈ parts, p.Pairwise fun a b => ((|time a - time b| : ℤ) : ℚ) < gap) → markers.length ≤ parts.length

theorem within_iff (a b : α) : within time gap a b = true ↔ ((time b - time a : ℤ) : ℚ) < gap := decide_eq_true_iff

theorem close_iff (a b : α) :
    Close (within time gap) (fun a b => time a ≤ time b) a b ↔ ((|time a - time b| : ℤ) : ℚ) < gap := by
  rw [Close, within_iff, within_iff]
  obtain h | h := le_total (time a) (time b)
  · rw [abs_sub_comm, abs_of_nonneg (sub_nonneg.mpr h)]
    refine ⟨fun hc => hc.1 h, fun hlt => ⟨fun _ => hlt, fun hba => ?_⟩⟩
    rw [le_antisymm h hba] at hlt ⊢
    exact hlt
  · rw [abs_of_nonneg (sub_nonneg.mpr h)]
    refine ⟨fun hc => hc.2 h, fun hlt => ⟨fun hab => ?_, fun _ => hlt⟩⟩
    rw [le_antisymm h hab] at hlt ⊢
    exact hlt

theorem within_mono (a b c : α) (hbc : time b ≤ time c) (h : within time gap a c = true) : within time gap a b = true := by
  rw [within_iff] at h ⊢
  exact lt_of_le_of_lt (Int.cast_le.mpr (sub_le_sub_right hbc _)) h

theorem group_sorted (hsorted : l.Pairwise fun a b => time a ≤ time b) (hg : g ∈ clusters (within time gap) l) :
    g.Pairwise fun a b => time a ≤ time b := by
  have hsub : g.Sublist l := by
    have hflat := List.sublist_flatten_of_mem hg
    rwa [flatten_clusters] at hflat
  exact hsorted.sublist hsub

theorem group_close (hsorted : l.Pairwise fun a b => time a ≤ time b) (hg : g ∈ clusters (within time gap) l) :
    g.Pairwise fun a b => ((|time a - time b| : ℤ) : ℚ) < gap := by
  have hgroup := group_sorted hsorted hg
  obtain ⟨f, r, rfl, hnear⟩ := near_clusters hg
  obtain ⟨hfirst, hrest⟩ := List.pairwise_cons.mp hgroup
  have hfar : ∀ e ∈ r, ((time e - time f : ℤ) : ℚ) < gap := fun e he => (within_iff f e).mp (hnear e he)
  refine List.pairwise_cons.mpr ⟨fun e he => ?_, hrest.imp_of_mem fun {a b} ha hb hab => ?_⟩
  · rw [abs_sub_comm, abs_of_nonneg (sub_nonneg.mpr (hfirst e he))]
    exact hfar e he
  · rw [abs_sub_comm, abs_of_nonneg (sub_nonneg.mpr hab)]
    refine lt_of_le_of_lt (Int.cast_le.mpr ?_) (hfar b hb)
    exact sub_le_sub_left (hfirst a ha) _

theorem le_meanTime {lo : ℤ} (hg : g ≠ []) (h : ∀ e ∈ g, lo ≤ time e) : lo ≤ meanTime time g := by
  have hpos : (0 : ℚ) < g.length := Nat.cast_pos.mpr (List.length_pos_iff.mpr hg)
  have hsum : (g.map time).length • lo ≤ (g.map time).sum := by
    apply List.card_nsmul_le_sum
    intro x hx
    obtain ⟨e, he, rfl⟩ := List.mem_map.mp hx
    exact h e he
  rw [List.length_map, nsmul_eq_mul] at hsum
  have hcast : (g.length : ℚ) * lo ≤ ((g.map time).sum : ℤ) := by exact_mod_cast hsum
  have hmean : (lo : ℚ) ≤ ((g.map time).sum : ℤ) / g.length := (le_div_iff₀ hpos).mpr (by rwa [mul_comm] at hcast)
  rw [meanTime, le_mathRound]
  linarith

theorem meanTime_le {hi : ℤ} (hg : g ≠ []) (h : ∀ e ∈ g, time e ≤ hi) : meanTime time g ≤ hi := by
  have hpos : (0 : ℚ) < g.length := Nat.cast_pos.mpr (List.length_pos_iff.mpr hg)
  have hsum : (g.map time).sum ≤ (g.map time).length • hi := by
    apply List.sum_le_card_nsmul
    intro x hx
    obtain ⟨e, he, rfl⟩ := List.mem_map.mp hx
    exact h e he
  rw [List.length_map, nsmul_eq_mul] at hsum
  have hcast : (((g.map time).sum : ℤ) : ℚ) ≤ (g.length : ℚ) * hi := by exact_mod_cast hsum
  have hmean : (((g.map time).sum : ℤ) : ℚ) / g.length ≤ hi := (div_le_iff₀ hpos).mpr (by rwa [mul_comm] at hcast)
  rw [meanTime, ← Int.lt_add_one_iff, mathRound_lt, Int.cast_add, Int.cast_one]
  linarith

theorem exists_last (hg : g ≠ []) (hsorted : g.Pairwise fun a b => time a ≤ time b) : ∃ b ∈ g, ∀ e ∈ g, time e ≤ time b := by
  induction g with
  | nil => exact absurd rfl hg
  | cons a g ih =>
      obtain ⟨hfirst, hrest⟩ := List.pairwise_cons.mp hsorted
      cases g with
      | nil => exact ⟨a, List.mem_cons_self, by simp⟩
      | cons b g =>
          obtain ⟨c, hc, hle⟩ := ih (List.cons_ne_nil b g) hrest
          refine ⟨c, List.mem_cons_of_mem a hc, fun e he => ?_⟩
          obtain rfl | he := List.mem_cons.mp he
          · exact hfirst c hc
          · exact hle e he

theorem nameOf_eq_some {n : String} (hg : g ≠ []) : nameOf name g = some n ↔ ∀ e ∈ g, name e = n := by
  cases g with
  | nil => exact absurd rfl hg
  | cons a g =>
      rw [nameOf, Option.ite_none_right_eq_some, Option.some.injEq, List.all_eq_true]
      simp only [decide_eq_true_iff]
      constructor
      · rintro ⟨hall, rfl⟩ e he
        obtain rfl | he := List.mem_cons.mp he
        · rfl
        · exact hall e he
      · intro hall
        have ha := hall a List.mem_cons_self
        exact ⟨fun e he => (hall e (List.mem_cons_of_mem a he)).trans ha.symm, ha⟩

theorem Drawn.perm {markers : List (Marker α)} (h : Drawn time name order gap l markers) (hl : l.Perm l') :
    Drawn time name order gap l' markers :=
  ⟨h.items.trans hl, h.present, h.sorted, h.narrow, h.mean, h.named, h.apart,
    fun parts hparts => h.fewest parts (hparts.trans hl.symm)⟩

theorem drawn_clusters [Std.TransCmp order] (hsorted : l.Pairwise fun a b => time a ≤ time b) :
    Drawn time name order gap l ((clusters (within time gap) l).map (toMarker time name order)) := by
  have hitems : ∀ g : List α, (toMarker time name order g).items.Perm g := fun g => sortBy_perm g
  have hitems_ne : ∀ {g : List α}, g ≠ [] → (toMarker time name order g).items ≠ [] := by
    intro g hne hnil
    have hperm := hitems g
    rw [hnil] at hperm
    exact hne hperm.nil_eq.symm
  have hmarker : ∀ m ∈ (clusters (within time gap) l).map (toMarker time name order),
      ∃ g ∈ clusters (within time gap) l, m = toMarker time name order g ∧ g ≠ [] := by
    intro m hm
    obtain ⟨g, hg, rfl⟩ := List.mem_map.mp hm
    obtain ⟨f, r, rfl, -⟩ := near_clusters hg
    exact ⟨_, hg, rfl, List.cons_ne_nil f r⟩
  constructor
  · have hflat : ((clusters (within time gap) l).flatMap fun g => (toMarker time name order g).items).Perm
        ((clusters (within time gap) l).flatMap id) := List.Perm.flatMap_left _ fun g _ => hitems g
    rw [List.flatMap_id, flatten_clusters] at hflat
    rwa [List.flatMap_map]
  · intro m hm
    obtain ⟨g, -, rfl, hne⟩ := hmarker m hm
    exact hitems_ne hne
  · intro m hm
    obtain ⟨g, -, rfl, -⟩ := hmarker m hm
    exact sortBy_pairwise g
  · intro m hm
    obtain ⟨g, hg, rfl, -⟩ := hmarker m hm
    refine ((hitems g).pairwise_iff fun {a b} hab => ?_).mpr (group_close hsorted hg)
    rwa [abs_sub_comm]
  · intro m hm
    obtain ⟨g, hg, rfl, hne⟩ := hmarker m hm
    have hgroup := group_sorted hsorted hg
    obtain ⟨b, hb, hlast⟩ := exists_last hne hgroup
    cases g with
    | nil => exact absurd rfl hne
    | cons a g =>
        have hfirst : ∀ e ∈ a :: g, time a ≤ time e := by
          intro e he
          obtain rfl | he := List.mem_cons.mp he
          · exact le_rfl
          · exact (List.pairwise_cons.mp hgroup).1 e he
        exact ⟨a, (hitems _).mem_iff.mpr List.mem_cons_self, b, (hitems _).mem_iff.mpr hb, le_meanTime hne hfirst,
          meanTime_le hne hlast⟩
  · intro m hm n
    obtain ⟨g, -, rfl, hne⟩ := hmarker m hm
    exact nameOf_eq_some (hitems_ne hne)
  · refine List.pairwise_map.mpr ((apart_clusters hsorted within_mono).imp ?_)
    rintro g g' ⟨f, hf, hfar⟩
    refine ⟨f, (hitems g).mem_iff.mpr (List.mem_of_mem_head? hf), fun e he => ?_⟩
    have hnot := hfar e ((hitems g').mem_iff.mp he)
    exact not_lt.mp (of_decide_eq_false hnot)
  · intro parts hparts hnarrow
    rw [List.length_map]
    refine clusters_fewest hsorted within_mono hparts fun p hp => (hnarrow p hp).imp fun {a b} hab => ?_
    exact (close_iff a b).mpr hab

end Drawn

instance : Std.TransCmp eventOrder :=
  inferInstanceAs (Std.TransCmp (compareLex (compareOn _) fun a b => compareOn _ b a))

instance : Std.TransCmp itemOrder :=
  inferInstanceAs (Std.TransCmp (compareLex (fun a b => compareOn _ b a) (compareOn _)))

instance : Std.TransCmp destOrder :=
  inferInstanceAs (Std.TransCmp (compareLex (fun a b => compareOn _ b a) (compareOn _)))

theorem lifecycleEvents_sorted (procs : List LifecycleProc) (range : TimeRange) (mode : EventsMode) (kind : EventKind) :
    (lifecycleEvents procs range mode kind).Pairwise fun a b => a.t ≤ b.t := by
  refine (sortBy_pairwise _).imp fun {a b} hab => ?_
  obtain hlt | ⟨heq, -⟩ := upto_lex.mp hab
  · exact le_of_lt (Int.compare_eq_lt.mp hlt)
  · exact le_of_eq (Int.compare_eq_eq.mp heq)

theorem kind_eventsOf {range : TimeRange} {mode : EventsMode} {proc : LifecycleProc} {kind : EventKind} {e : LifecycleEvent}
    (h : eventsOf range mode proc kind = some e) : e.kind = kind := by
  cases kind with
  | start =>
      obtain ⟨-, heq⟩ := Option.ite_none_right_eq_some.mp h
      cases heq
      rfl
  | ended =>
      obtain ⟨-, heq⟩ := Option.ite_none_right_eq_some.mp h
      obtain ⟨t, -, rfl⟩ := Option.map_eq_some_iff.mp heq
      rfl

/-- The markers of both tracks: each event, and each destination first seen, in the
range is in one marker, and there are no more markers than the distance demands. -/
theorem markers_drawn (range : TimeRange) (msPerPx minPx : ℚ) :
    (∀ procs mode kind,
      let markers := clusterMarkers (lifecycleEvents procs range mode kind) msPerPx minPx
      Drawn LifecycleEvent.t (fun e => e.proc.name) itemOrder (gapOf msPerPx minPx)
          (procs.filterMap fun proc => eventsOf range mode proc kind) (markers.map MarkerCluster.toMarker) ∧
        ∀ m ∈ markers, m.kind = some kind) ∧
    ∀ dests, Drawn NewDest.firstMs NewDest.name destOrder (gapOf msPerPx minPx)
      (dests.filter fun d => range.contains d.firstMs) (clusterNewDests dests range msPerPx minPx) := by
  constructor
  · intro procs mode kind
    constructor
    · rw [clusterMarkers, List.map_map]
      exact (drawn_clusters (lifecycleEvents_sorted procs range mode kind)).perm (sortBy_perm _)
    · intro m hm
      obtain ⟨g, hg, rfl⟩ := List.mem_map.mp hm
      obtain ⟨f, r, rfl, -⟩ := near_clusters hg
      have hmem : f ∈ lifecycleEvents procs range mode kind := by
        have hflat := List.mem_flatten_of_mem hg List.mem_cons_self
        rwa [flatten_clusters] at hflat
      obtain ⟨proc, -, hproc⟩ := List.mem_filterMap.mp (mem_sortBy.mp hmem)
      exact congrArg some (kind_eventsOf hproc)
  · intro dests
    have hsorted : (sortBy (compareOn NewDest.firstMs) (dests.filter fun d => range.contains d.firstMs)).Pairwise
        (Upto (compareOn NewDest.firstMs)) := sortBy_pairwise _
    refine (drawn_clusters (hsorted.imp fun {a b} hab => ?_)).perm (sortBy_perm _)
    exact Int.isLE_compare.mp hab

/-- Two starts within the distance, and one apart from them. -/
example : (clusterMarkers (lifecycleEvents
    [⟨(7, 1), "curl", "", 5000, none, 10⟩, ⟨(8, 1), "ssh", "", 1000, some 9000, 20⟩, ⟨(9, 1), "curl", "", 1003, none, 30⟩]
    ⟨0, 10000⟩ .starts .start) 1).map (fun m => (m.t, m.items.map fun e => e.proc.name, m.name)) =
    [(1002, ["curl", "ssh"], none), (5000, ["curl"], some "curl")] := by decide +kernel

end NetWatch.Charts.Markers
