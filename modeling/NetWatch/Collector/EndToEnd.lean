import NetWatch.Collector.Instances
import NetWatch.Collector.SinkClickhouse
import NetWatch.Kernel.DoubleBuffer

namespace NetWatch.Collector.EndToEnd

open Kernel.Types Kernel.Ledger Model Ingest SinkClickhouse Lib.Runs Lib.Ledgers Lib.Outbox
open Instances (Feeds)
open Kernel.Account (State Table Thread Credit Drain Steps collect)
open Kernel.DoubleBuffer (share returned wasDropped counter_eq_share share_returned credited_key sum_map_ite DropsCounted
  step_drops)

/-- The collector with the kernel below it and its ClickHouse sink behind an
unbounded channel. The channel is closed once the loop has been left. -/
structure Pipeline where
  kernel : State
  agg : Aggregator
  queue : List Tick
  stopped : Bool
  sink : Sink

def Pipeline.start (capacity : Nat) (clkTck : ClkTck) (oldFlows : List FlowRow) (oldProcs : List ProcRow) : Pipeline :=
  ⟨Kernel.Account.init capacity, .new clkTck, [], false, .start oldFlows oldProcs⟩

/-- `tick` hands the drained records to `ingest` and sends what it returns. -/
inductive Event
  | kernel (e : Kernel.Account.Event)
  | tick (x : Input)
  | stop
  | turn (e : Turn)

def Pipeline.step (T : Table) (max : Nat) (p : Pipeline) : Event → Option Pipeline
  | .kernel .collect => none
  | .kernel .flip => if p.stopped then none else (Kernel.Account.step T p.kernel .flip).map fun k => { p with kernel := k }
  | .kernel e => (Kernel.Account.step T p.kernel e).map fun k => { p with kernel := k }
  | .tick x =>
      if Feeds p.kernel x then
        (Kernel.Account.step T p.kernel .collect).bind fun k =>
          (ingest p.agg x).map fun r => { p with kernel := k, agg := r.1, queue := p.queue ++ [r.2] }
      else none
  | .stop => match p.kernel.phase with
    | .running => some { p with stopped := true }
    | _ => none
  | .turn e =>
      -- `recv` waits while the channel is empty and open
      if e.tick = p.queue.head? ∧ (e.tick = none → p.stopped = true) then
        (p.sink.step max e).map fun s => { p with queue := p.queue.tail, sink := s }
      else none

def Guard (T : Table) (p : Pipeline) : Event → Prop
  | .kernel e => NoStale T p.kernel e
  | _ => True

structure Flow where
  pid : UInt32
  proto : String
  raddr : Vector UInt8 16
  rport : UInt16
  lport : UInt16
  deriving DecidableEq

def flowOf (k : FlowKey) : Flow := ⟨k.tgid, Classify.transport k.proto, k.raddr, k.rport, k.lport⟩

def rowFlow (r : FlowRow) : Flow := ⟨r.pid, r.proto, r.raddr, r.rport, r.lport⟩

/-- Rows have 64 bits for bytes and 32 for calls. -/
def limit : Counter → Nat
  | .txBytes | .rxBytes => 2 ^ 64
  | .txCalls | .rxCalls => 2 ^ 32

/-- The calls of a record that do not fit into a row saturate. -/
def clip : Counter → Nat → Nat
  | .txBytes, n | .rxBytes, n => n
  | .txCalls, n | .rxCalls, n => min n (2 ^ 32 - 1)

abbrev Content := Flow × (Counter → Nat)

def rowContent (r : FlowRow) : Content := (rowFlow r, r.counter)

def weigh (sel : Flow → Bool) (c : Counter) (x : Content) : Nat := if sel x.1 then x.2 c else 0

def counted (sel : Flow → Bool) (c : Counter) (rows : List FlowRow) : Nat := ((rows.map rowContent).map (weigh sel c)).sum

def sharesOf (sel : Flow → Bool) (c : Counter) (rs : List Kernel.Account.Record) : Nat :=
  (rs.map fun r => if sel (flowOf r.key) then share c r.elem.credits else 0).sum

def completed (sel : Flow → Bool) (c : Counter) (s : State) : Nat :=
  ((s.threads.filter fun t => sel (flowOf t.call.key) && returned t).map fun t => (t.call.amount c).toNat).sum

def underway (sel : Flow → Bool) (c : Counter) (s : State) : Nat :=
  ((s.threads.filter fun t => sel (flowOf t.call.key) && !returned t).map fun t => share c (credited t)).sum

section Kernel

variable {sel : Flow → Bool} {c : Counter}

def selected (sel : Flow → Bool) (c : Counter) (cr : Credit) : Nat := if sel (flowOf cr.key) then (cr.weigh c).toNat else 0

theorem sum_selected_of_own {k : FlowKey} {crs : List Credit} (h : ∀ cr ∈ crs, cr.key = k) :
    (crs.map (selected sel c)).sum = if sel (flowOf k) then share c crs else 0 := by
  have hmap : crs.map (selected sel c) = crs.map fun cr => if sel (flowOf k) then (cr.weigh c).toNat else 0 :=
    List.map_congr_left fun cr hcr => by rw [selected, h cr hcr]
  rw [hmap]
  split
  · rfl
  · simp

theorem sum_selected_made (sel : Flow → Bool) (c : Counter) (s : State) :
    ((made s).map (selected sel c)).sum = completed sel c s + underway sel c s := by
  have hthread : ∀ t ∈ s.threads, ((credited t).map (selected sel c)).sum =
      (if sel (flowOf t.call.key) && returned t then (t.call.amount c).toNat else 0) +
        if sel (flowOf t.call.key) && !returned t then share c (credited t) else 0 := by
    intro t _
    rw [sum_selected_of_own fun cr hcr => credited_key hcr]
    cases hs : sel (flowOf t.call.key) with
    | false => simp
    | true =>
        cases hr : returned t with
        | false => simp
        | true => simpa using share_returned hr c
  rw [made, sum_flatMap, List.map_congr_left hthread, List.sum_map_add, sum_map_ite, sum_map_ite]
  rfl

theorem written_split {s : State} (hs : Accounted s) (sel : Flow → Bool) (c : Counter) :
    completed sel c s + underway sel c s = sharesOf sel c (drained s) + sharesOf sel c (waiting s) := by
  have hsum := (hs.balanced.map (selected sel c)).sum_eq
  have hrecords : ∀ r ∈ holdings s, (r.elem.credits.map (selected sel c)).sum =
      if sel (flowOf r.key) then share c r.elem.credits else 0 :=
    fun r hr => sum_selected_of_own fun cr hcr => (hs.own r hr cr hcr).1
  rw [sum_selected_made, held, sum_flatMap, List.map_congr_left hrecords, holdings_split, List.map_append,
    List.sum_append] at hsum
  exact hsum.symm

end Kernel

section Steps

variable {T : Table} {max : Nat} {old : List FlowRow} {p p' : Pipeline} {received : List Tick}

end Steps

instance (T : Table) (p : Pipeline) : (e : Event) → Decidable (Guard T p e)
  | .kernel e => inferInstanceAs (Decidable (noStale T p.kernel e = true))
  | .tick _ | .stop | .turn _ => inferInstanceAs (Decidable True)

def sampleCall (tx : UInt64) : Kernel.Account.Call :=
  ⟨Kernel.DoubleBuffer.sampleKey, tx, 0, ⟨5, Vector.replicate commLen 0, 1000, true, true⟩, none⟩

def sampleInput : Input :=
  Conservation.sampleInput (Conservation.sampleClock 1000)
    [⟨Kernel.DoubleBuffer.sampleKey, (sampleCall 100).firstStats, .gone⟩] []

/-- One call is in the table after the last flush, another one comes too late to
be drained. -/
def sampleEvents : List Event :=
  .kernel (.enter (sampleCall 100)) :: List.replicate 4 (.kernel (.advance 0 0)) ++
    [.kernel .flip, .kernel .drainStart, .kernel (.drainBatch 1), .tick sampleInput] ++
    .kernel (.enter (sampleCall 20)) :: List.replicate 4 (.kernel (.advance 1 0)) ++
    [.stop, .turn ⟨(ingest (.new Conservation.sampleTck) sampleInput).map Prod.snd, false, true, true, true⟩,
      .turn ⟨none, false, true, true, true⟩]

theorem sampleEvents_run : (exec (checked (Pipeline.step Kernel.DoubleBuffer.sampleTable 10)
    (Guard Kernel.DoubleBuffer.sampleTable)) (.start 1 Conservation.sampleTck [] []) sampleEvents).isSome = true := by
  decide +kernel

end NetWatch.Collector.EndToEnd
