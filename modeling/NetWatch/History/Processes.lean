import NetWatch.Collector.ProcessTable
import NetWatch.Lib.Aggregate

namespace NetWatch.History.Processes

open Collector.Model Collector.SinkClickhouse Collector.ProcessTable Lib.Aggregate

def version (r : ProcRow) : Nat := r.version.toNat

def leftUTF8 (s : String) (n : Nat) : String := .ofList (s.toList.take n)

def cmdlineChars : Nat := 120

/-- The position in an answer: the greatest value first, then by pid and start. -/
abbrev Rank := ℤᵒᵈ ×ₗ ℕ ×ₗ ℕ

def rank (value : Int) (id : ProcId) : Rank :=
  toLex (OrderDual.toDual value, toLex (id.1.toNat, id.2.toNat))

theorem rank_id {v w : Int} {id id' : ProcId} (h : rank v id = rank w id') : id = id' := by
  have hpair := congrArg (fun x => ofLex (ofLex x).2) h
  obtain ⟨hpid, hstart⟩ := Prod.mk.inj hpair
  exact Prod.ext (UInt32.toNat_inj.mp hpid) (UInt64.toNat_inj.mp hstart)

structure LifetimesOpts where
  start : Int
  stop : Int
  limit : Nat
  name : Option String
  uid : Option UInt32

structure Lifetime where
  id : ProcId
  name : String
  cmd : String
  uid : UInt32
  startMs : Int
  firstSeen : Int
  lastSeen : Int
  ended : Option Int
  tx : UInt64
  rx : UInt64
deriving DecidableEq

def matches? {α : Type} [DecidableEq α] (wanted : Option α) (x : α) : Bool := wanted.all (· = x)

/-- A comparison with NULL is not true. -/
def holds (p : Int → Bool) (x : Option Int) : Bool := x.any p

def lifetimesQuery (o : LifetimesOpts) : Select ProcRow ProcId Lifetime Rank where
  passes r := r.startMs < o.stop && matches? o.name r.name && matches? o.uid r.uid
  group id rows :=
    { id := id
      name := argMax version ProcRow.name rows
      cmd := leftUTF8 (argMax version ProcRow.cmdline rows) cmdlineChars
      uid := argMax version ProcRow.uid rows
      startMs := argMax version ProcRow.startMs rows
      firstSeen := argMax version ProcRow.firstSeen rows
      lastSeen := argMax version ProcRow.lastSeen rows
      ended := argMaxNullable version ProcRow.ended rows
      tx := argMax version ProcRow.txTotal rows
      rx := argMax version ProcRow.rxTotal rows }
  having l := l.ended.isNone || holds (o.start ≤ ·) l.ended
  order l := rank l.startMs l.id
  limit := o.limit

structure LifecycleOpts where
  start : Int
  stop : Int
  limit : Nat
  names : Option (List String)
  uid : Option UInt32

structure LifecycleProc where
  id : ProcId
  name : String
  cmd : String
  firstSeen : Int
  ended : Option Int
  bytes : UInt64
deriving DecidableEq

def lifecycleQuery (o : LifecycleOpts) : Select ProcRow ProcId LifecycleProc Rank where
  passes r := r.firstSeen < o.stop && o.names.all (r.name ∈ ·) && matches? o.uid r.uid
  group id rows :=
    { id := id
      name := argMax version ProcRow.name rows
      cmd := leftUTF8 (argMax version ProcRow.cmdline rows) cmdlineChars
      firstSeen := argMax version ProcRow.firstSeen rows
      ended := argMaxNullable version ProcRow.ended rows
      bytes := argMax version ProcRow.txTotal rows + argMax version ProcRow.rxTotal rows }
  having p :=
    (o.start ≤ p.firstSeen && p.firstSeen < o.stop) || holds (fun e => o.start ≤ e && e < o.stop) p.ended
  order p := rank p.bytes.toNat p.id
  limit := o.limit

def lifetimes (o : LifetimesOpts) (table : List ProcRow) : List Lifetime := select rowId (lifetimesQuery o) table

def lifecycle (o : LifecycleOpts) (table : List ProcRow) : List LifecycleProc := select rowId (lifecycleQuery o) table

end NetWatch.History.Processes
