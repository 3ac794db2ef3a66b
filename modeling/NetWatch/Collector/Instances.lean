import NetWatch.Collector.Conservation
import NetWatch.Kernel.DoubleBuffer
import NetWatch.Kernel.Reuse

namespace NetWatch.Collector.Instances

open Kernel.Types Kernel.Ledger Kernel.Reuse Model Ingest Lib.Runs Lib.Ledgers Lib.WordSum
open Kernel.Account (State Side Table Thread Credit Drain Steps collect)
open Kernel.DoubleBuffer (share counter_eq_share sum_map_ite)
open Conservation (Dir Trail Booked)

def counterOf : Dir → Counter
  | .tx => .txBytes
  | .rx => .rxBytes

structure System where
  world : World
  trail : Trail

def System.start (capacity : Nat) (clkTck : ClkTck) : System := ⟨.start capacity, .start clkTck⟩

inductive Event
  | world (e : Kernel.Reuse.Event)
  | tick (x : Input)

def Feeds (s : State) (x : Input) : Prop :=
  x.flows.map (fun f => (f.key, f.stats)) = s.out.map (fun r => (r.key, r.elem.stats)) ∧ x.exits = s.ring

instance (s : State) (x : Input) : Decidable (Feeds s x) := inferInstanceAs (Decidable (_ ∧ _))

def System.step (T : Table) (s : System) : Event → Option System
  | .world (.kernel .collect) => none
  | .world e => (s.world.step T e).map fun w => { s with world := w }
  | .tick x =>
      if Feeds s.world.kernel x then
        (s.world.step T (.kernel .collect)).bind fun w => (s.trail.step x).map fun tr => ⟨w, tr⟩
      else none

/-- An instance that is not in memory has not been drained before. -/
def Unforgotten (s : System) (x : Input) : Prop :=
  ∀ f ∈ x.flows, s.trail.agg.procs.get? f.id = none → ∀ r ∈ drained s.world.kernel, recordOwner r ≠ f.id

def NoReuse (s : System) : Event → Prop
  | .world e => KeepsApart s.world e
  | .tick x => Unforgotten s x

def written (c : Counter) (id : Instance) (s : State) : Nat :=
  ((s.threads.filter fun t => ownerOf t = id).map fun t => share c (credited t)).sum

def undrained (c : Counter) (id : Instance) (s : State) : Nat :=
  (((waiting s).filter fun r => recordOwner r = id).map fun r => share c r.elem.credits).sum

/-- No two instances are merged: a drained record has the bytes of one instance,
the totals of each instance are the bytes that its calls have written, but for
those that are not drained yet, and the exit of its leader is reported with its
start time. -/
structure Distinct (s : System) : Prop where
  records : ∀ r ∈ drained s.world.kernel, ∀ cr ∈ r.elem.credits, creditOwner cr = recordOwner r
  totals : ∀ id p, s.trail.agg.procs.get? id = some p → ∀ d, written (counterOf d) id s.world.kernel < 2 ^ 64 →
    (Conservation.total d p.view).toNat + undrained (counterOf d) id s.world.kernel =
      written (counterOf d) id s.world.kernel
  exits : ∀ e ∈ s.world.owed, e ∈ exits s.world.kernel

def owned (id : Instance) (c : Counter) (cr : Credit) : Nat := if creditOwner cr = id then (cr.weigh c).toNat else 0

theorem sum_owned_of_owner (id : Instance) (c : Counter) {o : Instance} {crs : List Credit}
    (h : ∀ cr ∈ crs, creditOwner cr = o) : (crs.map (owned id c)).sum = if o = id then share c crs else 0 := by
  have hmap : crs.map (owned id c) = crs.map fun cr => if o = id then (cr.weigh c).toNat else 0 :=
    List.map_congr_left fun cr hcr => by rw [owned, h cr hcr]
  rw [hmap]
  split
  · rfl
  · simp

theorem credited_owner {t : Thread} {cr : Credit} (h : cr ∈ credited t) : creditOwner cr = ownerOf t := by
  have hown : ∃ m, cr ∈ t.credits m := by
    rw [credited] at h
    split at h
    · exact ⟨_, List.mem_of_mem_take h⟩
    · exact ⟨_, h⟩
    · exact ⟨_, h⟩
    · cases h
  obtain ⟨m, hm⟩ := hown
  obtain ⟨hkey, -, hstart, -⟩ := credits_own hm
  exact Prod.ext (congrArg FlowKey.tgid hkey) hstart

theorem sum_owned_made (id : Instance) (c : Counter) (s : State) :
    ((made s).map (owned id c)).sum = written c id s := by
  rw [made, sum_flatMap, written, ← sum_map_ite]
  congr 1
  apply List.map_congr_left
  intro t _
  rw [sum_owned_of_owner id c fun cr hcr => credited_owner hcr]
  simp

section Records

variable {w : World}

theorem record_owner (hw : Apart w) {r : Kernel.Account.Record} (hr : r ∈ holdings w.kernel) {cr : Credit}
    (hcr : cr ∈ r.elem.credits) : creditOwner cr = recordOwner r :=
  Prod.ext (congrArg FlowKey.tgid (hw.accounted.own r hr cr hcr).1) (hw.pure r hr cr hcr)

theorem sum_owned_records (id : Instance) (c : Counter) {rs : List Kernel.Account.Record}
    (h : ∀ r ∈ rs, ∀ cr ∈ r.elem.credits, creditOwner cr = recordOwner r) :
    ((rs.flatMap fun r => r.elem.credits).map (owned id c)).sum =
      ((rs.filter fun r => recordOwner r = id).map fun r => share c r.elem.credits).sum := by
  rw [sum_flatMap, ← sum_map_ite]
  congr 1
  apply List.map_congr_left
  intro r hr
  rw [sum_owned_of_owner id c (h r hr)]
  simp

theorem written_split (hw : Apart w) (c : Counter) (id : Instance) :
    written c id w.kernel =
      (((drained w.kernel).filter fun r => recordOwner r = id).map fun r => share c r.elem.credits).sum +
        undrained c id w.kernel := by
  have hsum := (hw.accounted.balanced.map (owned id c)).sum_eq
  rw [sum_owned_made, held, sum_owned_records id c fun r hr cr hcr => record_owner hw hr hcr, holdings_split,
    List.filter_append, List.map_append, List.sum_append] at hsum
  exact hsum.symm

end Records

/-- The records that the aggregator has counted for an instance in memory are
the drained ones. -/
structure Linked (s : System) : Prop where
  apart : Apart s.world
  ok : s.trail.Ok
  counted : ∀ id p, s.trail.agg.procs.get? id = some p → (s.trail.log id).map Conservation.Record.stats =
    ((drained s.world.kernel).filter fun r => recordOwner r = id).map fun r => r.elem.stats

theorem start_linked (capacity : Nat) (clkTck : ClkTck) : Linked (.start capacity clkTck) where
  apart := start_apart capacity
  ok := Conservation.start_ok clkTck
  counted id _ hp := absurd ((Lib.Assoc.Dict.get?_empty id).symm.trans hp) nofun

theorem world_drained {T : Table} {w w' : World} {e : Kernel.Reuse.Event} (he : e ≠ .kernel .collect)
    (h : w.step T e = some w') : drained w'.kernel = drained w.kernel := by
  cases step_happens h with
  | fork | reap => rfl
  | threadExit =>
      obtain ⟨p, r, hx⟩ := Kernel.Account.schedProcessExit_frame w.kernel _ _ _ true
      rw [drained, hx]
      rfl
  | leaderExit =>
      obtain ⟨p, r, hx⟩ := Kernel.Account.schedProcessExit_frame w.kernel _ _ _ true
      rw [leaderExit, drained, hx]
      rfl
  | kernel _ hk => exact step_drained (fun hcollect => he (congrArg _ hcollect)) hk

theorem collect_drained {T : Table} {w w' : World} (h : w.step T (.kernel .collect) = some w') :
    drained w'.kernel = drained w.kernel ++ w.kernel.out := by
  cases step_happens h with
  | kernel hp hk =>
      cases hk with
      | collect => simp [drained, collect]

theorem feeds_stats {s : State} {x : Input} (h : Feeds s x) (id : Instance) :
    (x.flows.filter fun f => f.id = id).map Sample.stats =
      (s.out.filter fun r => recordOwner r = id).map fun r => r.elem.stats := by
  have hpairs := congrArg
    (fun l : List (FlowKey × FlowStats) => (l.filter fun p => (p.1.tgid, p.2.startNs) = id).map Prod.snd) h.1
  simp only [List.filter_map, List.map_map] at hpairs
  exact hpairs

theorem tick_counted {s : System} {x : Input} {es : List Entry} {mid : Lib.Assoc.Dict ProcId Proc} {a' : Aggregator}
    {t : Tick} (hs : Linked s) (hfeeds : Feeds s.world.kernel x) (hg : Unforgotten s x)
    (h : Pass s.trail.agg x es mid a' t) {id : ProcId} {p : Proc} (hp : a'.procs.get? id = some p) :
    (s.trail.logAfter x t id).map Conservation.Record.stats =
      ((drained s.world.kernel ++ s.world.kernel.out).filter fun r => recordOwner r = id).map fun r => r.elem.stats := by
  have hnew : ((entriesOf id es).map Conservation.Entry.counted).map Conservation.Record.stats =
      (s.world.kernel.out.filter fun r => recordOwner r = id).map fun r => r.elem.stats := by
    rw [← feeds_stats hfeeds id, ← h.samples, List.filter_map, List.map_map, List.map_map]
    rfl
  rw [Conservation.logAfter_pass h, List.map_append, List.filter_append, List.map_append, hnew]
  congr 1
  cases hold : s.trail.agg.procs.get? id with
  | some q => exact hs.counted id q hold
  | none =>
      have hmid : mid.get? id = some p := by
        rcases h.kept id with hk | ⟨hk, -⟩
        · exact hk ▸ hp
        · exact absurd (hk.symm.trans hp) nofun
      have hsome : entriesOf id es ≠ [] := by
        intro hnil
        have hmoved := h.moved id
        rw [hold, hnil, hmid] at hmoved
        cases hmoved
      obtain ⟨e, he⟩ := List.exists_mem_of_ne_nil _ hsome
      obtain ⟨he, hid⟩ := List.mem_filter.mp he
      have hflow : e.sample ∈ x.flows := h.samples ▸ List.mem_map_of_mem he
      have hfree : ∀ r ∈ drained s.world.kernel, recordOwner r ≠ id := by
        intro r hr
        have hid : e.sample.id = id := of_decide_eq_true hid
        exact hid ▸ hg e.sample hflow (hid ▸ hold) r hr
      rw [List.filter_eq_nil_iff.mpr (by simpa using hfree)]
      rfl

theorem step_linked {T : Table} {s s' : System} {e : Event} (hs : Linked s) (hg : NoReuse s e)
    (h : s.step T e = some s') : Linked s' := by
  cases e with
  | world e =>
      have hstep : e ≠ .kernel .collect ∧ ∃ w, s.world.step T e = some w ∧ s' = { s with world := w } := by
        unfold System.step at h
        split at h
        · cases h
        · rename_i e' hne heq
          obtain rfl := Event.world.inj heq
          obtain ⟨w, hw, rfl⟩ := Option.map_eq_some_iff.mp h
          exact ⟨fun he => hne (he ▸ rfl), w, hw, rfl⟩
        · rename_i heq
          cases heq
      obtain ⟨hne, w, hw, rfl⟩ := hstep
      refine ⟨step_apart hs.apart hg hw, hs.ok, ?_⟩
      rw [world_drained hne hw]
      exact hs.counted
  | tick x =>
      simp only [System.step, Option.ite_none_right_eq_some] at h
      obtain ⟨hfeeds, h⟩ := h
      obtain ⟨w, hw, h⟩ := Option.bind_eq_some_iff.mp h
      obtain ⟨tr, htr, rfl⟩ := Option.map_eq_some_iff.mp h
      obtain ⟨⟨a', t⟩, hin, rfl⟩ := Option.map_eq_some_iff.mp htr
      obtain ⟨es, mid, hpass⟩ := ingest_pass hin
      have hapart : KeepsApart s.world (.kernel .collect) := rfl
      refine ⟨step_apart hs.apart hapart hw, Conservation.pass_ok hs.ok hpass, ?_⟩
      rw [collect_drained hw]
      exact fun id p hp => tick_counted hs hfeeds hg hpass hp

theorem linked_totals {s : System} (hs : Linked s) {id : ProcId} {p : Proc} (hp : s.trail.agg.procs.get? id = some p)
    {d : Dir} (hlt : written (counterOf d) id s.world.kernel < 2 ^ 64) :
    (Conservation.total d p.view).toNat + undrained (counterOf d) id s.world.kernel =
      written (counterOf d) id s.world.kernel := by
  have hbytes : ∀ st : FlowStats, Conservation.bytes d st = st.counter (counterOf d) := by
    intro st
    cases d <;> rfl
  have hsum : Conservation.sumBytes d (s.trail.log id) =
      ((((drained s.world.kernel).filter fun r => recordOwner r = id).map
        fun r => share (counterOf d) r.elem.credits).map (· % 2 ^ 64)).sum := by
    have hstats := congrArg (List.map fun st => (Conservation.bytes d st).toNat) (hs.counted id p hp)
    rw [List.map_map, List.map_map] at hstats
    rw [Conservation.sumBytes, List.map_map]
    refine (congrArg List.sum hstats).trans (congrArg List.sum (List.map_congr_left fun r _ => ?_))
    rw [Function.comp_apply, Function.comp_apply, hbytes, counter_eq_share]
  have hsplit := written_split hs.apart (counterOf d) id
  have hdrained := (tally_sum_mod (((drained s.world.kernel).filter fun r => recordOwner r = id).map
    fun r => share (counterOf d) r.elem.credits)).2 (by omega)
  have htotal : (Conservation.total d p.view).toNat = Conservation.sumBytes d (s.trail.log id) :=
    ((hs.ok id p hp).exact (by omega)).1
  omega

/-- Reused ids do not merge instances in any run in which no call finds a record
of another instance under its key, every start time can be read and no drained
instance has been forgotten. -/
theorem instances_distinct {T : Table} {capacity : Nat} {clkTck : ClkTck} {es : List Event} {s : System}
    (h : Run (System.step T) NoReuse (.start capacity clkTck) es s) : Distinct s := by
  have hs : Linked s := h.invariant (start_linked capacity clkTck) fun _ _ _ hs hg ht => step_linked hs hg ht
  refine ⟨?_, fun id p hp d hlt => linked_totals hs hp hlt, hs.apart.reported⟩
  intro r hr cr hcr
  refine record_owner hs.apart ?_ hcr
  rw [holdings_split]
  exact List.mem_append_left _ hr

instance (s : System) (x : Input) : Decidable (Unforgotten s x) :=
  inferInstanceAs (Decidable (∀ f ∈ x.flows, _ → ∀ r ∈ drained s.world.kernel, recordOwner r ≠ f.id))

instance (s : System) : (e : Event) → Decidable (NoReuse s e)
  | .world e => inferInstanceAs (Decidable (keepsApart s.world e = true))
  | .tick x => inferInstanceAs (Decidable (Unforgotten s x))

def callOf (startNs tx : UInt64) : Kernel.Account.Call :=
  ⟨Kernel.DoubleBuffer.sampleKey, tx, 0, ⟨startNs, Vector.replicate commLen 0, 1000, true, true⟩, none⟩

def callEvents (i : Nat) (c : Kernel.Account.Call) : List Event :=
  .world (.kernel (.enter c)) :: List.replicate 4 (.world (.kernel (.advance i 0)))

def tickEvents (ms : Nat) (flows : List FlowStats) (exits : List ExitEvent) : List Event :=
  [.world (.kernel .flip), .world (.kernel .drainStart), .world (.kernel (.drainBatch 1)),
    .tick (Conservation.sampleInput (Conservation.sampleClock ms)
      (flows.map fun st => ⟨Kernel.DoubleBuffer.sampleKey, st, .gone⟩) exits)]

/-- The second instance calls with the key of the first one in the next
interval. -/
def reuseLater : List Event :=
  .world (.fork 7 5) :: callEvents 0 (callOf 5 100) ++ [.world (.exit 7 7 50), .world (.reap 7)] ++
    tickEvents 1000 [(callOf 5 100).firstStats] [⟨7, 5, 50⟩] ++
    .world (.fork 7 9) :: callEvents 1 (callOf 9 20) ++ [.world (.exit 7 7 90)] ++
    tickEvents 2000 [(callOf 9 20).firstStats] [⟨7, 9, 90⟩]

theorem reuseLater_runs : (exec (checked (System.step Kernel.DoubleBuffer.sampleTable) NoReuse)
    (.start 1 Conservation.sampleTck) reuseLater).isSome = true := by decide +kernel

def afterReuse : System := (exec (checked (System.step Kernel.DoubleBuffer.sampleTable) NoReuse)
  (.start 1 Conservation.sampleTck) reuseLater).get reuseLater_runs

theorem instances_distinct_sample :
    Distinct afterReuse ∧ afterReuse.world.owed = [⟨7, 5, 50⟩, ⟨7, 9, 90⟩] ∧ (drained afterReuse.world.kernel).length = 2 :=
  ⟨instances_distinct (Run.of_checked (Option.some_get reuseLater_runs).symm), by decide +kernel, by decide +kernel⟩

def NeverMerges (T : Table) (capacity : Nat) (clkTck : ClkTck) : Prop :=
  ∀ {es : List Event} {s : System}, Run (System.step T) Free (.start capacity clkTck) es s → Distinct s

/-- Both instances call in one interval. The second one only adds to what it
finds. -/
def reuseAtOnce : List Event :=
  .world (.fork 7 5) :: callEvents 0 (callOf 5 100) ++ [.world (.exit 7 7 50), .world (.reap 7)] ++
    .world (.fork 7 9) :: callEvents 1 (callOf 9 20) ++ [.world (.kernel (.advance 1 0))] ++
    tickEvents 1000 [((callOf 5 100).firstStats.atomicXadd 20 .txBytes).atomicXadd 1 .txCalls] [⟨7, 5, 50⟩]

theorem reuseAtOnce_runs : (exec (System.step Kernel.DoubleBuffer.sampleTable)
    (.start 1 Conservation.sampleTck) reuseAtOnce).isSome = true := by decide +kernel

def merged : System := (exec (System.step Kernel.DoubleBuffer.sampleTable)
  (.start 1 Conservation.sampleTck) reuseAtOnce).get reuseAtOnce_runs

theorem reuse_merges : ¬ NeverMerges Kernel.DoubleBuffer.sampleTable 1 Conservation.sampleTck := by
  intro h
  have hmixed : ∃ r ∈ drained merged.world.kernel, ∃ cr ∈ r.elem.credits, creditOwner cr ≠ recordOwner r := by
    decide +kernel
  obtain ⟨r, hr, cr, hcr, hne⟩ := hmixed
  exact hne ((h (Run.of_exec (Option.some_get reuseAtOnce_runs).symm)).records r hr cr hcr)

end NetWatch.Collector.Instances
