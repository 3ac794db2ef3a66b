import Mathlib.Data.Prod.Lex
import Mathlib.Data.String.Basic
import NetWatch.Collector.Classify
import NetWatch.Collector.Procfs
import NetWatch.Lib.Assoc
import NetWatch.Lib.Binary64
import NetWatch.Lib.Runs
import NetWatch.Lib.SortDedup

namespace NetWatch.Collector.Model

open Kernel.Types Procfs Lib.Assoc Lib.SortDedup Lib.Runs
open Classify (Sniffed)

def endedRetainMs : Int := 60000

def livenessEveryMs : Int := 5000

def appCacheTtlMs : Int := 10 * 60000

abbrev ProcId := UInt32 × UInt64

structure FlowRec where
  pid : UInt32
  startNs : UInt64
  name : String
  uid : UInt32
  proto : String
  app : String
  raddr : Vector UInt8 16
  rport : UInt16
  lport : UInt16
  txBytes : UInt64
  rxBytes : UInt64
  txCalls : UInt32
  rxCalls : UInt32
  txKbps : ℚ
  rxKbps : ℚ
  deriving DecidableEq

structure ProcView where
  pid : UInt32
  startNs : UInt64
  startMs : Int
  name : String
  cmdline : String
  uid : UInt32
  firstSeenMs : Int
  lastSeenMs : Int
  endedMs : Option Int
  txKbps : ℚ
  rxKbps : ℚ
  txTotal : UInt64
  rxTotal : UInt64
  changed : Bool
  deriving DecidableEq

structure DestView where
  pid : UInt32
  startNs : UInt64
  proto : String
  app : String
  raddr : Vector UInt8 16
  rport : UInt16
  txTotal : UInt64
  rxTotal : UInt64
  deriving DecidableEq

structure Tick where
  tsMs : Int
  intervalMs : UInt32
  drops : UInt64
  flows : List FlowRec
  procs : List ProcView
  dests : List DestView
  deriving DecidableEq

structure DestKey where
  proto : UInt8
  app : String
  raddr : Vector UInt8 16
  rport : UInt16
  deriving DecidableEq

/-- The derived lexicographic order of `(ProcId, DestKey)`. -/
def touchedOrder (e : ProcId × DestKey) : ℕ ×ₗ ℕ ×ₗ ℕ ×ₗ String ×ₗ List ℕ ×ₗ ℕ :=
  toLex (e.1.1.toNat, toLex (e.1.2.toNat, toLex (e.2.proto.toNat, toLex (e.2.app,
    toLex (e.2.raddr.toList.map UInt8.toNat, e.2.rport.toNat)))))

structure Proc where
  view : ProcView
  tickTx : UInt64
  tickRx : UInt64
  dests : Dict DestKey (UInt64 × UInt64)

/-- The clock frequency of `/proc`. It is at most 10^9, so that a clock tick
lasts at least a nanosecond. -/
structure ClkTck where
  val : UInt64
  pos : 0 < val
  le : val ≤ 1000000000

def ClkTck.nsPerTick (t : ClkTck) : UInt64 := 1000000000 / t.val

/-- Every call of `ingest` reads the clock first, so that it is an argument of
the call here and not a field. -/
structure Aggregator where
  procs : Dict ProcId Proc
  appCache : Dict (FlowKey × UInt64) (Sniffed × Int)
  clkTck : ClkTck
  lastLivenessMs : Int
  lastPruneMs : Int
  pendingExits : List ExitEvent

def Aggregator.new (clkTck : ClkTck) : Aggregator := ⟨.empty, .empty, clkTck, 0, 0, []⟩

structure Duration where
  secs : UInt64
  nanos : UInt32
  lt : nanos < 1000000000

def Duration.asMillis (d : Duration) : Nat := d.secs.toNat * 1000 + d.nanos.toNat / 1000000

def Duration.asSecsF64 (d : Duration) : ℚ :=
  Lib.Binary64.add (Lib.Binary64.round d.secs.toNat) (Lib.Binary64.div (Lib.Binary64.round d.nanos.toNat) 1000000000)

def kbps (elapsed : Duration) (bytes : UInt64) : ℚ :=
  let secs := max elapsed.asSecsF64 (Lib.Binary64.round (1 / 1000))
  Lib.Binary64.div (Lib.Binary64.div (Lib.Binary64.mul (Lib.Binary64.round bytes.toNat) 8) 1000) secs

/-- A drained flow record, with what `/proc` says about its process when the
record is handled. -/
structure Sample where
  key : FlowKey
  stats : FlowStats
  fs : ProcFs

def Sample.id (x : Sample) : ProcId := (x.key.tgid, x.stats.startNs)

/-- The arguments of one call of `ingest` together with what it reads from the
clock and, in the liveness sweep, from `/proc`. -/
structure Input where
  clock : Clock
  flows : List Sample
  exits : List ExitEvent
  elapsed : Duration
  drops : UInt64
  sweepFs : ProcId → ProcFs

def Proc.startTick (p : Proc) : Proc where
  view := { p.view with changed := p.view.txKbps ≠ 0 || p.view.rxKbps ≠ 0 }
  tickTx := 0
  tickRx := 0
  dests := p.dests

def Proc.fresh (c : Clock) (k : FlowKey) (s : FlowStats) (cmdline : String) : Proc where
  view :=
    { pid := k.tgid
      startNs := s.startNs
      startMs := c.bootToWallMs s.startNs
      name := commStr s.comm.toList
      cmdline := cmdline
      uid := s.uid
      firstSeenMs := c.wallMs
      lastSeenMs := c.wallMs
      endedMs := none
      txKbps := 0
      rxKbps := 0
      txTotal := 0
      rxTotal := 0
      changed := true }
  tickTx := 0
  tickRx := 0
  dests := .empty

/-- `none` is a panic while the command line is read. -/
def newProc (c : Clock) (clkTck : ClkTck) (x : Sample) : Option Proc :=
  let alive := procStarttimeTicks x.fs = some (x.stats.startNs / clkTck.nsPerTick)
  (if alive then readCmdline x.fs else some "").map (Proc.fresh c x.key x.stats)

def Proc.record (now : Int) (s : FlowStats) (dk : DestKey) (p : Proc) : Proc where
  view :=
    let name := commStr s.comm.toList
    { p.view with
      name := if p.view.name ≠ name ∧ name ≠ "" then name else p.view.name
      lastSeenMs := now
      txTotal := p.view.txTotal + s.txBytes
      rxTotal := p.view.rxTotal + s.rxBytes
      changed := true }
  tickTx := p.tickTx + s.txBytes
  tickRx := p.tickRx + s.rxBytes
  dests :=
    let d := (p.dests.get? dk).getD (0, 0)
    p.dests.insert dk (d.1 + s.txBytes, d.2 + s.rxBytes)

def sniffHead (s : FlowStats) : Option Sniffed :=
  Classify.sniff (s.head.toList.take (min s.headLen.toNat s.head.toList.length))

structure Loop where
  procs : Dict ProcId Proc
  appCache : Dict (FlowKey × UInt64) (Sniffed × Int)
  destChanged : List (ProcId × DestKey)
  recs : List FlowRec

def sniffed (cache : Dict (FlowKey × UInt64) (Sniffed × Int)) (x : Sample) : Option Sniffed :=
  (sniffHead x.stats).or ((cache.get? (x.key, x.stats.startNs)).map Prod.fst)

/-- A successful sniff is cached, and a cached one is marked as seen. -/
def remember (now : Int) (cache : Dict (FlowKey × UInt64) (Sniffed × Int)) (x : Sample) :
    Dict (FlowKey × UInt64) (Sniffed × Int) :=
  match sniffHead x.stats with
  | some found => cache.insert (x.key, x.stats.startNs) (found, now)
  | none =>
    match cache.get? (x.key, x.stats.startNs) with
    | some (v, _) => cache.insert (x.key, x.stats.startNs) (v, now)
    | none => cache

def destKey (k : FlowKey) (app : String) : DestKey := ⟨k.proto, app, k.raddr, k.rport⟩

def flowRec (elapsed : Duration) (x : Sample) (name app : String) : FlowRec where
  pid := x.key.tgid
  startNs := x.stats.startNs
  name := name
  uid := x.stats.uid
  proto := Classify.transport x.key.proto
  app := app
  raddr := x.key.raddr
  rport := x.key.rport
  lport := x.key.lport
  txBytes := x.stats.txBytes
  rxBytes := x.stats.rxBytes
  txCalls := UInt32.ofNat (min x.stats.txCalls.toNat (2 ^ 32 - 1))
  rxCalls := UInt32.ofNat (min x.stats.rxCalls.toNat (2 ^ 32 - 1))
  txKbps := kbps elapsed x.stats.txBytes
  rxKbps := kbps elapsed x.stats.rxBytes

def procEntry (clkTck : ClkTck) (c : Clock) (procs : Dict ProcId Proc) (x : Sample) : Option Proc :=
  match procs.get? x.id with
  | some p => some p
  | none => newProc c clkTck x

def ingestFlow (clkTck : ClkTck) (c : Clock) (elapsed : Duration) (st : Loop) (x : Sample) : Option Loop :=
  (procEntry clkTck c st.procs x).map fun p =>
    let app := Classify.app x.key.proto x.key.rport x.key.lport (sniffed st.appCache x)
    let p' := p.record c.wallMs x.stats (destKey x.key app)
    { procs := st.procs.insert x.id p'
      appCache := remember c.wallMs st.appCache x
      destChanged := st.destChanged ++ [(x.id, destKey x.key app)]
      recs := st.recs ++ [flowRec elapsed x p'.view.name app] }

def gather (a : Aggregator) (x : Input) : Option Loop :=
  exec (ingestFlow a.clkTck x.clock x.elapsed) ⟨a.procs.mapVals fun _ p => p.startTick, a.appCache, [], []⟩ x.flows

def Proc.ended (t : Int) (p : Proc) : Proc :=
  { p with view := { p.view with endedMs := some t, changed := true } }

/-- One exit event: `retries` events of the previous call come first and are
not kept another time. -/
def markExit (c : Clock) (retries : Nat) (st : Dict ProcId Proc × List ExitEvent) (e : ExitEvent × Nat) :
    Dict ProcId Proc × List ExitEvent :=
  match st.1.get? (e.1.tgid, e.1.startNs) with
  | some p =>
    if p.view.endedMs = none then
      (st.1.insert (e.1.tgid, e.1.startNs) (p.ended (c.bootToWallMs e.1.tsNs)), st.2)
    else st
  | none => if retries ≤ e.2 then (st.1, st.2 ++ [e.1]) else st

def markExits (c : Clock) (retry exits : List ExitEvent) (procs : Dict ProcId Proc) :
    Dict ProcId Proc × List ExitEvent :=
  (retry ++ exits).zipIdx.foldl (markExit c retry.length) (procs, [])

def sweepOne (clkTck : ClkTck) (now : Int) (fs : ProcId → ProcFs) (id : ProcId) (p : Proc) : Proc :=
  if p.view.endedMs.isSome ∨ now - p.view.lastSeenMs < livenessEveryMs then p
  else if procStarttimeTicks (fs id) ≠ some (id.2 / clkTck.nsPerTick) then p.ended now
  else p

def sweepDead (clkTck : ClkTck) (now : Int) (fs : ProcId → ProcFs) (procs : Dict ProcId Proc) : Dict ProcId Proc :=
  procs.mapVals (sweepOne clkTck now fs)

def Proc.setRates (elapsed : Duration) (p : Proc) : Proc :=
  { p with view := { p.view with txKbps := kbps elapsed p.tickTx, rxKbps := kbps elapsed p.tickRx } }

def livenessDue (a : Aggregator) (now : Int) : Bool := livenessEveryMs ≤ now - a.lastLivenessMs

/-- Everything `ingest` does between the loop over the records and the moment
the tick is built. -/
def settle (a : Aggregator) (x : Input) (l : Loop) : Aggregator :=
  let now := x.clock.wallMs
  let marked := markExits x.clock a.pendingExits x.exits l.procs
  let swept := if livenessDue a now then sweepDead a.clkTck now x.sweepFs marked.1 else marked.1
  { procs := swept.mapVals fun _ p => p.setRates x.elapsed
    appCache := l.appCache
    clkTck := a.clkTck
    lastLivenessMs := if livenessDue a now then now else a.lastLivenessMs
    lastPruneMs := a.lastPruneMs
    pendingExits := marked.2 }

def destView (procs : Dict ProcId Proc) (e : ProcId × DestKey) : Option DestView := do
  let p ← procs.get? e.1
  let d ← p.dests.get? e.2
  return ⟨e.1.1, e.1.2, Classify.transport e.2.proto, e.2.app, e.2.raddr, e.2.rport, d.1, d.2⟩

def buildTick (x : Input) (l : Loop) (procs : Dict ProcId Proc) : Tick where
  tsMs := x.clock.wallMs
  intervalMs := UInt32.ofNat x.elapsed.asMillis
  drops := x.drops
  flows := l.recs
  procs := procs.values.map Proc.view
  dests := (sortDedup touchedOrder l.destChanged).filterMap (destView procs)

def retained (now : Int) (p : Proc) : Bool := p.view.endedMs.all fun t => now - t < endedRetainMs

def Aggregator.prune (a : Aggregator) (now : Int) : Aggregator :=
  if endedRetainMs ≤ now - a.lastPruneMs then
    let procs := a.procs.filter fun _ p => retained now p
    { a with
      procs := procs
      appCache := a.appCache.filter fun k v =>
        now - v.2 < appCacheTtlMs && (procs.get? (k.1.tgid, k.2)).isSome
      lastPruneMs := now }
  else a

/-- One call of `Aggregator::ingest`. `none` is a panic. -/
def ingest (a : Aggregator) (x : Input) : Option (Aggregator × Tick) :=
  (gather a x).map fun l =>
    let m := settle a x l
    (m.prune x.clock.wallMs, buildTick x l m.procs)

end NetWatch.Collector.Model
