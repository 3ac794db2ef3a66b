import NetWatch.Collector.Model
import NetWatch.Lib.Outbox

namespace NetWatch.Collector.SinkClickhouse

open Model Lib.Outbox Lib.Runs

structure FlowRow where
  ts : Int
  intervalMs : UInt32
  pid : UInt32
  procStart : UInt64
  name : String
  uid : UInt32
  proto : String
  app : String
  raddr : Vector UInt8 16
  rport : UInt16
  lport : UInt16
  txBytes : UInt64
  rxBytes : UInt64
  txCalls : UInt32
  rxCalls : UInt32
  deriving DecidableEq

def FlowRow.counter (r : FlowRow) : Kernel.Types.Counter → Nat
  | .txBytes => r.txBytes.toNat
  | .txCalls => r.txCalls.toNat
  | .rxBytes => r.rxBytes.toNat
  | .rxCalls => r.rxCalls.toNat

structure ProcRow where
  pid : UInt32
  procStart : UInt64
  startMs : Int
  name : String
  cmdline : String
  uid : UInt32
  firstSeen : Int
  lastSeen : Int
  ended : Option Int
  txTotal : UInt64
  rxTotal : UInt64
  version : UInt64
  deriving DecidableEq

def flowRow (t : Tick) (f : FlowRec) : FlowRow where
  ts := t.tsMs
  intervalMs := t.intervalMs
  pid := f.pid
  procStart := f.startNs
  name := f.name
  uid := f.uid
  proto := f.proto
  app := f.app
  raddr := f.raddr
  rport := f.rport
  lport := f.lport
  txBytes := f.txBytes
  rxBytes := f.rxBytes
  txCalls := f.txCalls
  rxCalls := f.rxCalls

def procRow (t : Tick) (p : ProcView) : ProcRow where
  pid := p.pid
  procStart := p.startNs
  startMs := p.startMs
  name := p.name
  cmdline := p.cmdline
  uid := p.uid
  firstSeen := p.firstSeenMs
  lastSeen := p.lastSeenMs
  ended := p.endedMs
  txTotal := p.txTotal
  rxTotal := p.rxTotal
  version := .ofInt t.tsMs

def flowRows (t : Tick) : List FlowRow := t.flows.map (flowRow t)

def procRows (t : Tick) : List ProcRow := (t.procs.filter ProcView.changed).map (procRow t)

structure Sink where
  schemaOk : Bool
  flows : Lane FlowRow
  procs : Lane ProcRow
  closed : Bool

/-- The tables may hold rows of an earlier run of the collector. -/
def Sink.start (oldFlows : List FlowRow) (oldProcs : List ProcRow) : Sink :=
  ⟨false, .start oldFlows, .start oldProcs, false⟩

/-- One turn of the loop: the received tick, or `none` when the channel is
closed, whether the flush timer has run out, and how the statements sent to
ClickHouse go if they are sent. -/
structure Turn where
  tick : Option Tick
  due : Bool
  schema : Bool
  flowInsert : Bool
  procInsert : Bool

def append (t : Tick) (s : Sink) : Sink :=
  { s with flows := s.flows.put (flowRows t), procs := s.procs.put (procRows t) }

def receive (e : Turn) (s : Sink) : Sink :=
  match e.tick with
  | some t => append t s
  | none => s

section Lanes

variable {R : Type}

/-- One insert of the whole buffer, which is skipped for an empty one. It is
applied exactly if it succeeds. -/
def insert (ok : Bool) (l : Lane R) : Option (Lane R) :=
  if l.buffer = [] then some l else if ok then some l.insertAll else none

def trim (max : Nat) (l : Lane R) : Lane R :=
  if max < l.buffer.length then l.discard (l.buffer.length - max) else l

end Lanes

def flush (e : Turn) (s : Sink) : Sink × Bool :=
  match insert e.flowInsert s.flows with
  | none => (s, false)
  | some flows =>
    match insert e.procInsert s.procs with
    | none => ({ s with flows := flows }, false)
    | some procs => ({ s with flows := flows, procs := procs }, true)

def tryFlush (e : Turn) (s : Sink) : Sink :=
  if s.schemaOk || e.schema then { (flush e s).1 with schemaOk := (flush e s).2 } else s

def Turn.flushes (e : Turn) : Bool := e.tick.isNone || e.due

def Sink.step (max : Nat) (s : Sink) (e : Turn) : Option Sink :=
  if s.closed then none
  else
    let s := receive e s
    if e.flushes then
      let s := tryFlush e s
      some { s with flows := trim max s.flows, procs := trim max s.procs, closed := e.tick.isNone }
    else some s

theorem insert_moved {R : Type} {ok : Bool} {l l' : Lane R} (max : Nat) (h : insert ok l = some l') :
    ∃ es, l.Moved max [] es l' := by
  rw [insert] at h
  split_ifs at h with hbuf hok
  · obtain rfl := Option.some.inj h
    exact ⟨[], .refl max l⟩
  · obtain rfl := Option.some.inj h
    exact ⟨_, Lane.moved_insertAll max l⟩

theorem trim_moved {R : Type} (max : Nat) (l : Lane R) : ∃ es, l.Moved max [] es (trim max l) := by
  rw [trim]
  split_ifs with hmax
  · exact ⟨_, Lane.moved_discard _ hmax⟩
  · exact ⟨[], .refl max l⟩

def Advances (max : Nat) (s : Sink) (ticks : List Tick) (s' : Sink) : Prop :=
  (∃ es, s.flows.Moved max (ticks.flatMap flowRows) es s'.flows) ∧
    ∃ es, s.procs.Moved max (ticks.flatMap procRows) es s'.procs

theorem Advances.trans {max : Nat} {s t u : Sink} {ts ts' : List Tick} (h : Advances max s ts t)
    (h' : Advances max t ts' u) : Advances max s (ts ++ ts') u := by
  obtain ⟨⟨es, hf⟩, ⟨fs, hp⟩⟩ := h
  obtain ⟨⟨es', hf'⟩, ⟨fs', hp'⟩⟩ := h'
  refine ⟨⟨es ++ es', ?_⟩, ⟨fs ++ fs', ?_⟩⟩
  · rw [List.flatMap_append]
    exact hf.trans hf'
  · rw [List.flatMap_append]
    exact hp.trans hp'

theorem receive_advances (max : Nat) (e : Turn) (s : Sink) : Advances max s e.tick.toList (receive e s) := by
  rw [receive]
  cases e.tick with
  | none => exact ⟨⟨[], .refl max _⟩, ⟨[], .refl max _⟩⟩
  | some t =>
      simp only [Option.toList_some, Advances, List.flatMap_singleton]
      exact ⟨⟨[], Lane.moved_put max _ _⟩, ⟨[], Lane.moved_put max _ _⟩⟩

theorem tryFlush_advances (max : Nat) (e : Turn) (s : Sink) : Advances max s [] (tryFlush e s) := by
  have hflush : Advances max s [] (flush e s).1 := by
    rw [flush]
    cases hf : insert e.flowInsert s.flows with
    | none => exact ⟨⟨[], .refl max _⟩, ⟨[], .refl max _⟩⟩
    | some flows =>
        cases hp : insert e.procInsert s.procs with
        | none => exact ⟨insert_moved max hf, ⟨[], .refl max _⟩⟩
        | some procs => exact ⟨insert_moved max hf, insert_moved max hp⟩
  rw [tryFlush]
  split_ifs
  · exact hflush
  · exact ⟨⟨[], .refl max _⟩, ⟨[], .refl max _⟩⟩

theorem step_advances {max : Nat} {s s' : Sink} {e : Turn} (h : s.step max e = some s') :
    Advances max s e.tick.toList s' := by
  rw [Sink.step] at h
  split_ifs at h with hclosed hflush
  · obtain rfl := Option.some.inj h
    have htrim : ∀ u : Sink, Advances max u []
        { u with flows := trim max u.flows, procs := trim max u.procs, closed := e.tick.isNone } :=
      fun u => ⟨trim_moved max _, trim_moved max _⟩
    have hrun := ((receive_advances max e s).trans (tryFlush_advances max e (receive e s))).trans (htrim _)
    simpa only [List.append_nil] using hrun
  · obtain rfl := Option.some.inj h
    exact receive_advances max e s

def ticksOf (es : List Turn) : List Tick := es.flatMap fun e => e.tick.toList

theorem run_advances {max : Nat} {es : List Turn} {s u : Sink} (h : Run (Sink.step max) Free s es u) :
    Advances max s (ticksOf es) u := by
  induction h with
  | nil s => exact ⟨⟨[], .refl max _⟩, ⟨[], .refl max _⟩⟩
  | cons _ hs _ ih => exact (step_advances hs).trans ih

def sampleView : ProcView := ⟨7, 5, 0, "curl", "", 1000, 1000, 1000, none, 0, 0, 10, 20, true⟩

def sampleTick : Tick :=
  ⟨1000, 1000, 0, [⟨7, 5, "curl", 1000, "TCP", "HTTPS", Vector.replicate 16 0, 443, 50000, 10, 20, 1, 1, 0, 0⟩],
    [sampleView], []⟩

end NetWatch.Collector.SinkClickhouse
