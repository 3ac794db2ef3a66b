import NetWatch.Collector.SinkClickhouse
import NetWatch.Collector.Ticks
import NetWatch.Lib.Replacing

namespace NetWatch.Collector.ProcessTable

open Procfs Model Views Ticks SinkClickhouse Lib.Outbox Lib.Replacing Lib.Runs

def rowId (r : ProcRow) : ProcId := (r.pid, r.procStart)

/-- The row that the table `processes` keeps for a process instance. -/
def keptRow (id : ProcId) (table : List ProcRow) : Option ProcRow :=
  kept rowId (fun r => r.version.toNat) id table

def viewIn (t : Tick) (id : ProcId) : Option ProcView := t.procs.find? fun v => viewId v = id

def lastView (ts : List Tick) (id : ProcId) : Option ProcView :=
  ts.foldl (fun last t => (viewIn t id).or last) none

structure Matches (r : ProcRow) (v : ProcView) : Prop where
  id : rowId r = viewId v
  startMs : r.startMs = v.startMs
  name : r.name = v.name
  cmdline : r.cmdline = v.cmdline
  uid : r.uid = v.uid
  firstSeen : r.firstSeen = v.firstSeenMs
  lastSeen : r.lastSeen = v.lastSeenMs
  ended : r.ended = v.endedMs
  txTotal : r.txTotal = v.txTotal
  rxTotal : r.rxTotal = v.rxTotal

theorem procRow_matches (t : Tick) (v : ProcView) : Matches (procRow t v) v :=
  ⟨rfl, rfl, rfl, rfl, rfl, rfl, rfl, rfl, rfl, rfl⟩

theorem lastView_snoc (ts : List Tick) (t : Tick) (id : ProcId) :
    lastView (ts ++ [t]) id = (viewIn t id).or (lastView ts id) := by
  simp only [lastView, List.foldl_append, List.foldl_cons, List.foldl_nil]

theorem viewIn_some {t : Tick} {id : ProcId} {v : ProcView} (h : viewIn t id = some v) :
    v ∈ t.procs ∧ viewId v = id :=
  ⟨List.mem_of_find?_eq_some h, by simpa using List.find?_some h⟩

theorem viewIn_mem {t : Tick} (hn : (t.procs.map viewId).Nodup) {v : ProcView} (hv : v ∈ t.procs) :
    viewIn t (viewId v) = some v := by
  cases hfind : viewIn t (viewId v) with
  | none => exact absurd (by simp) (List.find?_eq_none.mp hfind v hv)
  | some w =>
      obtain ⟨hw, hid⟩ := viewIn_some hfind
      rw [view_unique hn hw hv hid]

theorem mem_procRows {t : Tick} {r : ProcRow} (h : r ∈ procRows t) :
    ∃ v ∈ t.procs, v.changed = true ∧ r = procRow t v := by
  obtain ⟨v, hv, rfl⟩ := List.mem_map.mp h
  obtain ⟨hmem, hc⟩ := List.mem_filter.mp hv
  exact ⟨v, hmem, hc, rfl⟩

/-- In a coherent sequence, a view without the mark that it changed is the last
view published before. -/
theorem unchanged_lastView {ts : List Tick} {t : Tick} (h : Coherent (ts ++ [t])) {v : ProcView}
    (hv : v ∈ t.procs) (hc : v.changed = false) :
    ∃ w, lastView ts (viewId v) = some w ∧ v = { w with changed := false } := by
  rcases List.eq_nil_or_concat' ts with rfl | ⟨ts, t₀, rfl⟩
  · exact absurd ((h.first t rfl v hv).symm.trans hc) nofun
  · have hsucc : Succeeds t₀ t := coherent_last h
    obtain ⟨w, hw, hview⟩ := hsucc.unchanged v hv hc
    have hid : viewId v = viewId w := by rw [hview]; rfl
    refine ⟨w, ?_, hview⟩
    rw [lastView_snoc, hid, viewIn_mem (h.nodup t₀ (by simp)) hw, Option.some_or]

theorem lastRow_view {t : Tick} {id : ProcId} {r : ProcRow}
    (h : ((procRows t).filter fun r => rowId r = id).getLast? = some r) :
    ∃ v ∈ t.procs, viewId v = id ∧ r = procRow t v := by
  obtain ⟨hr, hid⟩ := List.mem_filter.mp (List.mem_of_getLast? h)
  obtain ⟨v, hv, -, rfl⟩ := mem_procRows hr
  exact ⟨v, hv, of_decide_eq_true hid, rfl⟩

theorem lastRow_none {t : Tick} {v : ProcView} (hv : v ∈ t.procs)
    (h : ((procRows t).filter fun r => rowId r = viewId v).getLast? = none) : v.changed = false := by
  by_contra hc
  have hmem : procRow t v ∈ (procRows t).filter fun r => rowId r = viewId v := by
    refine List.mem_filter.mpr ⟨List.mem_map_of_mem (List.mem_filter.mpr ⟨hv, ?_⟩), decide_eq_true rfl⟩
    simpa using hc
  rw [List.getLast?_eq_none_iff.mp h] at hmem
  cases hmem

structure Timed (ts : List Tick) : Prop where
  inRange : ∀ t ∈ ts, 0 ≤ t.tsMs ∧ t.tsMs < 2 ^ 62
  sorted : ts.Pairwise fun t t' => t.tsMs ≤ t'.tsMs

def versionOf (t : Tick) : Nat := (UInt64.ofInt t.tsMs).toNat

theorem versionOf_mono {ts : List Tick} {t u : Tick} (h : Timed (ts ++ [t])) (hu : u ∈ ts) :
    versionOf u ≤ versionOf t := by
  have hle : u.tsMs ≤ t.tsMs := (List.pairwise_append.mp h.sorted).2.2 u hu t (by simp)
  have hword : ∀ n : Int, 0 ≤ n → n < 2 ^ 62 → (UInt64.ofInt n).toNat = n.toNat := by
    intro n h0 h62
    have hmod : n % 2 ^ 64 = n := Int.emod_eq_of_lt h0 (by omega)
    rw [UInt64.ofInt, hmod, UInt64.toNat_ofNat']
    exact Nat.mod_eq_of_lt (by omega)
  have hu' := h.inRange u (List.mem_append_left _ hu)
  have ht := h.inRange t (by simp)
  rw [versionOf, versionOf, hword _ hu'.1 hu'.2, hword _ ht.1 ht.2]
  omega

theorem timed_init {ts : List Tick} {t : Tick} (h : Timed (ts ++ [t])) : Timed ts where
  inRange u hu := h.inRange u (List.mem_append_left _ hu)
  sorted := (List.pairwise_append.mp h.sorted).1

/-- The table keeps, for every process that was ever published, the state it had
in the last tick that contained it. -/
theorem keptRow_lastView {ts : List Tick} {old : List ProcRow} (hc : Coherent ts) (ht : Timed ts)
    (hold : ∀ r ∈ old, ∀ t ∈ ts, r.version.toNat ≤ versionOf t) {id : ProcId} {v : ProcView}
    (hv : lastView ts id = some v) : ∃ r, keptRow id (old ++ ts.flatMap procRows) = some r ∧ Matches r v := by
  induction ts using List.reverseRecOn generalizing v with
  | nil => cases hv
  | append_singleton ts t ih =>
      have holder : ∀ r ∈ old ++ ts.flatMap procRows, r.version.toNat ≤ versionOf t := by
        intro r hr
        rcases List.mem_append.mp hr with hr | hr
        · exact hold r hr t (by simp)
        · obtain ⟨u, hu, hr⟩ := List.mem_flatMap.mp hr
          obtain ⟨w, -, -, rfl⟩ := mem_procRows hr
          exact versionOf_mono ht hu
      have hbatch : ∀ r ∈ procRows t, r.version.toNat = versionOf t := by
        intro r hr
        obtain ⟨w, -, -, rfl⟩ := mem_procRows hr
        rfl
      have hkept : kept rowId (fun r => r.version.toNat) id ((old ++ ts.flatMap procRows) ++ procRows t) =
          (((procRows t).filter fun r => rowId r = id).getLast?).or
            (kept rowId (fun r => r.version.toNat) id (old ++ ts.flatMap procRows)) := kept_append holder hbatch
      have hnodup := hc.nodup t (by simp)
      have hprev : ∀ w, lastView ts id = some w → ∃ r, keptRow id (old ++ ts.flatMap procRows) = some r ∧ Matches r w :=
        fun w hw => ih (coherent_init hc) (timed_init ht)
          (fun r hr u hu => hold r hr u (List.mem_append_left _ hu)) hw
      rw [List.flatMap_append, ← List.append_assoc, List.flatMap_singleton, keptRow, hkept]
      rw [lastView_snoc] at hv
      cases hrow : ((procRows t).filter fun r => rowId r = id).getLast? with
      | some r =>
          obtain ⟨u, hu, rfl, rfl⟩ := lastRow_view hrow
          rw [viewIn_mem hnodup hu, Option.some_or] at hv
          obtain rfl := Option.some.inj hv
          exact ⟨procRow t u, rfl, procRow_matches t u⟩
      | none =>
          cases hview : viewIn t id with
          | none =>
              rw [hview, Option.none_or] at hv
              exact hprev v hv
          | some w =>
              rw [hview, Option.some_or] at hv
              obtain rfl := Option.some.inj hv
              obtain ⟨hw, rfl⟩ := viewIn_some hview
              obtain ⟨w', hlast, hsame⟩ := unchanged_lastView hc hw (lastRow_none hw hrow)
              obtain ⟨r, hr, hm⟩ := hprev w' hlast
              refine ⟨r, hr, ?_⟩
              rw [hsame]
              exact ⟨hm.id, hm.startMs, hm.name, hm.cmdline, hm.uid, hm.firstSeen, hm.lastSeen, hm.ended,
                hm.txTotal, hm.rxTotal⟩

theorem step_timed {s s' : Source} {x : Input} (hs : Timed s.ticks) (hg : Onward s x) (h : s.step x = some s') :
    Timed s'.ticks := by
  obtain ⟨⟨a', t⟩, hin, -, hticks⟩ := step_ingest h
  obtain ⟨es, mid, hpass⟩ := Ingest.ingest_pass hin
  rw [hticks]
  constructor
  · intro t ht
    rcases List.mem_append.mp ht with ht | ht
    · exact hs.inRange t ht
    · rw [List.mem_singleton.mp ht, hpass.tsMs]
      exact ⟨x.clock.nonneg, x.clock.inRange⟩
  · refine List.pairwise_append.mpr ⟨hs.sorted, List.pairwise_singleton _ _, ?_⟩
    intro t ht u hu
    rw [List.mem_singleton.mp hu, hpass.tsMs]
    exact hg t ht

theorem timed_initial {ts us : List Tick} (h : Timed us) (hp : ts <+: us) : Timed ts :=
  ⟨fun t ht => h.inRange t (hp.subset ht), h.sorted.sublist hp.sublist⟩

/-- Whenever the buffer of process rows is empty, and if none was ever trimmed,
the table holds for every process of every tick received so far the state of its
last tick. -/
theorem processes_converge {clkTck : ClkTck} {xs : List Input} {src : Source} {max : Nat}
    {oldFlows : List FlowRow} {old : List ProcRow} {es : List Turn} {s : Sink}
    (hsrc : Run Source.step Onward (.start clkTck) xs src)
    (hrun : Run (Sink.step max) Free (.start oldFlows old) es s) (hticks : ticksOf es <+: src.ticks)
    (hold : ∀ r ∈ old, ∀ t ∈ src.ticks, r.version.toNat ≤ versionOf t)
    (hbuf : s.procs.buffer = []) (htrim : s.procs.dropped = []) (id : ProcId) (v : ProcView)
    (hv : lastView (ticksOf es) id = some v) : ∃ r, keptRow id s.procs.table = some r ∧ Matches r v := by
  have htimed : Timed src.ticks :=
    hsrc.invariant (I := fun s => Timed s.ticks) ⟨nofun, .nil⟩ fun _ _ _ hs hg hx => step_timed hs hg hx
  obtain ⟨-, settled, hmoved⟩ := run_advances hrun
  rw [hmoved.flushed hbuf htrim]
  exact keptRow_lastView (coherent_initial (run_ok hsrc).coherent hticks) (timed_initial htimed hticks)
    (fun r hr t ht => hold r hr t (hticks.subset ht)) hv

instance (s : Source) (x : Input) : Decidable (Onward s x) :=
  inferInstanceAs (Decidable (∀ t ∈ s.ticks, t.tsMs ≤ x.clock.wallMs))

def idleInput : Input := Conservation.sampleInput (Conservation.sampleClock 2000) [] []

theorem sampleSource_runs : (exec (checked Source.step Onward) (.start Conservation.sampleTck)
    [Conservation.sampleFirst, idleInput]).isSome = true := by decide +kernel

def sampleSource : Source := (exec (checked Source.step Onward) (.start Conservation.sampleTck)
  [Conservation.sampleFirst, idleInput]).get sampleSource_runs

/-- The first flush fails at the process rows, the second one succeeds. -/
def sampleFlushes : List Turn :=
  (sampleSource.ticks.zip [false, true]).map fun (t, ok) => ⟨some t, true, true, true, ok⟩

theorem sampleFlushes_run : (exec (Sink.step 10) (.start [] []) sampleFlushes).isSome = true := by decide +kernel

def flushedSink : Sink := (exec (Sink.step 10) (.start [] []) sampleFlushes).get sampleFlushes_run

theorem processes_converge_sample :
    ∃ r, keptRow (7, 5) flushedSink.procs.table = some r ∧ r.txTotal = 11 ∧ r.rxTotal = 22 := by
  have hlast : (lastView (ticksOf sampleFlushes) (7, 5)).isSome = true := by decide +kernel
  obtain ⟨v, hv⟩ := Option.isSome_iff_exists.mp hlast
  obtain ⟨r, hr, hm⟩ := processes_converge (Run.of_checked (Option.some_get sampleSource_runs).symm)
    (Run.of_exec (Option.some_get sampleFlushes_run).symm) (by decide +kernel) nofun (by decide +kernel)
    (by decide +kernel) (7, 5) v hv
  have htotals : (lastView (ticksOf sampleFlushes) (7, 5)).map (fun v => (v.txTotal, v.rxTotal)) = some (11, 22) := by
    decide +kernel
  rw [hv] at htotals
  obtain ⟨htx, hrx⟩ := Prod.mk.inj (Option.some.inj htotals)
  exact ⟨r, hr, hm.txTotal.trans htx, hm.rxTotal.trans hrx⟩

end NetWatch.Collector.ProcessTable
