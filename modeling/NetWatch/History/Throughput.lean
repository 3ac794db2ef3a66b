import NetWatch.History.Ranges
import NetWatch.Lib.Assoc
import NetWatch.Lib.Buckets

namespace NetWatch.History.Throughput

open Lib Lib.Assoc Lib.Buckets Lib.JsNumber Lib.JsValue Ranges

inductive ThroughputDir
  | both
  | tx
  | rx
  | total
  deriving DecidableEq

def throughputOther : Units := units "__other"

/-- A row of `flows` or `flows_1m` under the key it counts for. `time` is `ts` in
milliseconds or `minute` in seconds. -/
structure Stored where
  time : ℤ
  key : Units
  tx : ℕ
  rx : ℕ

def timeFilter (r : Range) (time : ℤ) : Bool :=
  match r.col with
  | .ts => r.fromMs ≤ time && time < r.toMs
  | .minute => r.fromMs.tdiv 1000 ≤ time && time < r.toMs.tdiv 1000

def bucketSeconds (r : Range) (time : ℤ) : ℤ :=
  match r.col with
  | .ts => time / 1000 / r.step * r.step
  | .minute => time / r.step * r.step

def alignRange (r : Range) : Range :=
  let stepMs := fl (r.step * 1000)
  { r with fromMs := fl (floorDiv r.fromMs stepMs * stepMs) }

structure ThroughputRow where
  t : ℤ
  key : Units
  tx : ℕ
  rx : ℕ

def selected (r : Range) (stored : List Stored) : List Stored := stored.filter fun s => timeFilter r s.time

/-- The rows of the answer, up to their order. -/
def throughputQuery (r : Range) (stored : List Stored) : List ThroughputRow :=
  (groupSums (fun s => (bucketSeconds r s.time, s.key)) (fun s => (s.tx, s.rx)) (selected r stored)).map fun e =>
    ⟨e.1.1, e.1.2, e.2.1, e.2.2⟩

def kbps (bytes : ℕ) (seconds : ℚ) : ℚ :=
  if 0 < seconds then
    Binary64.div (mathRound (Binary64.div (Binary64.mul (Binary64.round bytes) 8) seconds)) 1000
  else 0

def bucketCount (r : Range) : ℤ := max 1 (ceilDiv (fl (r.toMs - r.fromMs)) (fl (r.step * 1000)))

def coveredSeconds (r : Range) (t : List ℤ) : List ℚ :=
  let stepMs := fl (r.step * 1000)
  let dataEnd := if r.table = .flows then r.toMs else fl (ceilDiv r.toMs 60000 * 60000)
  t.map fun start => Binary64.div (fl (min (fl (start + stepMs)) (max dataEnd start) - start)) 1000

/-- The index of a row in `n` buckets, unless it is out of them. -/
def bucketIndex (fromMs stepMs n t : ℤ) : Option ℕ :=
  let i := roundDiv (fl (fl (t * 1000) - fromMs)) stepMs
  if i < 0 ∨ n ≤ i then none else some i.toNat

def bucketStarts (fromMs stepMs n : ℤ) : List ℤ :=
  (List.range n.toNat).map fun i : ℕ => fl (fromMs + fl (i * stepMs))

structure Series where
  tx : List ℕ
  rx : List ℕ
  total : ℕ

def ThroughputDir.pick (dir : ThroughputDir) (row : ThroughputRow) : ℕ :=
  match dir with
  | .tx => row.tx
  | .rx => row.rx
  | .both | .total => row.tx + row.rx

def Series.add (dir : ThroughputDir) (i : ℕ) (row : ThroughputRow) (s : Series) : Series where
  tx := s.tx.modify i (· + row.tx)
  rx := s.rx.modify i (· + row.rx)
  total := s.total + dir.pick row

/-- The bytes of each key, which are added exactly here. -/
def byKey (rows : List ThroughputRow) (r : Range) (dir : ThroughputDir) : Dict Units Series :=
  let n := bucketCount r
  rows.foldl (fun m row => (bucketIndex r.fromMs (fl (r.step * 1000)) n row.t).elim m fun i =>
    m.insert row.key (((m.get? row.key).getD ⟨.replicate n.toNat 0, .replicate n.toNat 0, 0⟩).add dir i row)) .empty

/-- The comparison that orders the keys, by the sign of the result. -/
def keyCompare (totals : Units → ℕ) (a b : Units) : ℤ :=
  if a = throughputOther ∨ b = throughputOther then if a = throughputOther then 1 else -1
  else if totals b ≠ totals a then totals b - totals a
  else if a < b then -1
  else if b < a then 1
  else 0

/-- The keys of a map in order. No key is compared with itself. -/
def sortKeys (totals : Units → ℕ) (keys : List Units) : List Units :=
  keys.mergeSort fun a b => a = b || keyCompare totals a b ≤ 0

/-- An assignment to a property of an object that was written as a literal. Under the
name `__proto__` it sets the prototype and makes no property. -/
def assign {V : Type} (o : Dict Units V) (name : Units) (v : V) : Dict Units V :=
  if name = units "__proto__" then o else o.insert name v

structure ThroughputResponse (L : Type) where
  step : ℤ
  fromMs : ℤ
  toMs : ℤ
  table : Table
  keys : List Units
  labels : Dict Units L
  t : List ℤ
  tx : Dict Units (List ℚ)
  rx : Dict Units (List ℚ)

/-- `labels` gives the property of each name, inherited ones included. -/
def buildThroughput {L : Type} (rows : List ThroughputRow) (r : Range) (dir : ThroughputDir) (labels : Units → Option L) :
    ThroughputResponse L :=
  let m := byKey rows r dir
  let keys := sortKeys (fun k => ((m.get? k).map Series.total).getD 0) (m.entries.map Prod.fst)
  let t := bucketStarts r.fromMs (fl (r.step * 1000)) (bucketCount r)
  let seconds := coveredSeconds r t
  let rate (bytes : List ℕ) : List ℚ := List.zipWith kbps bytes seconds
  { step := r.step
    fromMs := r.fromMs
    toMs := r.toMs
    table := r.table
    keys := keys
    labels := keys.foldl (fun o k => (labels k).elim o (assign o k)) .empty
    t := t
    tx := keys.foldl (fun o k => assign o k (rate (((m.get? k).map Series.tx).getD []))) .empty
    rx := keys.foldl (fun o k => assign o k (rate (((m.get? k).map Series.rx).getD []))) .empty }

section Tracks

structure UnknownRow where
  t : ℤ
  unk : ℕ
  total : ℕ

structure ThroughputUnknown where
  share : List (Option ℚ)
  bytes : List ℕ
  total : List ℕ

def unknownShare (tot bytes : ℕ) : Option ℚ :=
  if 0 < tot then
    some (Binary64.div
      (mathRound (Binary64.mul (Binary64.div (Binary64.round bytes) (Binary64.round tot)) 10000)) 10000)
  else none

def buildUnknown (rows : List UnknownRow) (r : Range) : ThroughputUnknown :=
  let stepMs := fl (r.step * 1000)
  let n := max 1 (ceilDiv (fl (r.toMs - r.fromMs)) stepMs)
  let index (row : UnknownRow) := bucketIndex r.fromMs stepMs n row.t
  let bytes := fill index UnknownRow.unk n.toNat rows
  let total := fill index UnknownRow.total n.toNat rows
  ⟨List.zipWith unknownShare total bytes, bytes, total⟩

structure CallsRow where
  t : ℤ
  tx : ℕ
  rx : ℕ

structure ThroughputCalls where
  tx : List ℚ
  rx : List ℚ

def perSecond (calls : ℕ) (seconds : ℚ) : ℚ :=
  if 0 < seconds then
    Binary64.div (mathRound (Binary64.mul (Binary64.div (Binary64.round calls) seconds) 1000000)) 1000000
  else 0

def buildCalls (rows : List CallsRow) (r : Range) : ThroughputCalls :=
  let stepMs := fl (r.step * 1000)
  let n := bucketCount r
  let index (row : CallsRow) := bucketIndex r.fromMs stepMs n row.t
  let seconds := coveredSeconds r (bucketStarts r.fromMs stepMs n)
  { tx := List.zipWith perSecond (fill index CallsRow.tx n.toNat rows) seconds
    rx := List.zipWith perSecond (fill index CallsRow.rx n.toNat rows) seconds }

structure ProcessCallsRow where
  t : ℤ
  tx : ℕ
  rx : ℕ
  txc : ℕ
  rxc : ℕ

structure ProcessCallsResponse where
  step : ℤ
  fromMs : ℤ
  toMs : ℤ
  t : List ℤ
  tx : List ℚ
  rx : List ℚ
  calls : ThroughputCalls

def buildProcessCalls (rows : List ProcessCallsRow) (r : Range) : ProcessCallsResponse :=
  let stepMs := fl (r.step * 1000)
  let n := bucketCount r
  let index (row : ProcessCallsRow) := bucketIndex r.fromMs stepMs n row.t
  let t := bucketStarts r.fromMs stepMs n
  let s := coveredSeconds r t
  { step := r.step
    fromMs := r.fromMs
    toMs := r.toMs
    t := t
    tx := List.zipWith kbps (fill index ProcessCallsRow.tx n.toNat rows) s
    rx := List.zipWith kbps (fill index ProcessCallsRow.rx n.toNat rows) s
    calls :=
      { tx := List.zipWith perSecond (fill index ProcessCallsRow.txc n.toNat rows) s
        rx := List.zipWith perSecond (fill index ProcessCallsRow.rxc n.toNat rows) s } }

end Tracks

section Burst

inductive BurstSide
  | tx
  | rx
  | total
  deriving DecidableEq

def sidesOf : ThroughputDir → List BurstSide
  | .both => [.tx, .rx]
  | .tx => [.tx]
  | .rx => [.rx]
  | .total => [.total]

structure BurstRow where
  t : ℤ
  intervalMs : ℕ
  bytes : BurstSide → Option ℕ
  kbps : BurstSide → Option (List ℚ)

def round3 (v : ℚ) : ℚ := Binary64.div (mathRound (Binary64.mul v 1000)) 1000

structure PaddedStats where
  p95 : ℚ
  max : ℚ

def paddedStats (samples : List ℚ) (ticks : ℤ) : PaddedStats :=
  let n := max ticks samples.length
  if n = 0 then ⟨0, 0⟩
  else
    let desc := samples.mergeSort fun a b => b ≤ a
    let i := n - (Binary64.mul (Binary64.round (95 / 100)) n).ceil
    ⟨round3 (max 0 ((if i < 0 then none else desc[i.toNat]?).getD 0)), round3 (max 0 (desc[0]?.getD 0))⟩

structure BurstStats where
  mean : List ℚ
  p95 : List ℚ
  max : List ℚ

structure BurstResponse where
  fromMs : ℤ
  toMs : ℤ
  step : ℤ
  dir : ThroughputDir
  t : List ℤ
  stats : BurstSide → Option BurstStats

def BurstRow.padded (row : BurstRow) (side : BurstSide) (seconds : ℚ) : PaddedStats :=
  let interval := if row.intervalMs = 0 then 1000 else row.intervalMs
  paddedStats ((row.kbps side).getD []) (mathRound (Binary64.div (Binary64.mul seconds 1000) interval))

def buildBurst (rows : List BurstRow) (r : Range) (dir : ThroughputDir) : BurstResponse :=
  let stepMs := fl (r.step * 1000)
  let n := bucketCount r
  let t := bucketStarts r.fromMs stepMs n
  let seconds := coveredSeconds { r with table := .flows } t
  let index (row : BurstRow) := bucketIndex r.fromMs stepMs n row.t
  let statsOf (side : BurstSide) : BurstStats :=
    { mean := overwrite index (fun i row => Throughput.kbps ((row.bytes side).getD 0) (seconds.getD i 0)) 0 n.toNat rows
      p95 := overwrite index (fun i row => (row.padded side (seconds.getD i 0)).p95) 0 n.toNat rows
      max := overwrite index (fun i row => (row.padded side (seconds.getD i 0)).max) 0 n.toNat rows }
  { fromMs := r.fromMs
    toMs := r.toMs
    step := r.step
    dir := dir
    t := t
    stats := fun side => if side ∈ sidesOf dir then some (statsOf side) else none }

end Burst

section Compare

inductive CompareOffset
  | day
  | week
  deriving DecidableEq

def CompareOffset.ms : CompareOffset → ℤ
  | .day => 86400000
  | .week => 7 * 86400000

def compareStep (r : Range) : ℤ := max 60 (fl (ceilDiv r.step 60 * 60))

structure CompareParams where
  gFrom : ℤ
  gTo : ℤ
  gStep : ℤ
  offsetS : ℤ

def compareParams (r : Range) (offset : CompareOffset) : CompareParams :=
  let step := compareStep r
  let fromMs := fl (fl (floorDiv r.fromMs (fl (step * 1000)) * step) * 1000)
  ⟨fl (fromMs - offset.ms), fl (r.toMs - offset.ms), step, offset.ms / 1000⟩

structure MinuteRow where
  minute : ℤ
  tx : ℕ
  rx : ℕ

structure CompareRow where
  t : ℤ
  tx : ℕ
  rx : ℕ

def CompareParams.selects (p : CompareParams) (minute : ℤ) : Bool :=
  p.gFrom.tdiv 1000 ≤ minute && minute < p.gTo.tdiv 1000

def CompareParams.bucket (p : CompareParams) (minute : ℤ) : ℤ := (minute + p.offsetS) / p.gStep * p.gStep

def compareQuery (r : Range) (offset : CompareOffset) (stored : List MinuteRow) : List CompareRow :=
  let p := compareParams r offset
  (groupSums (fun s => p.bucket s.minute) (fun s => (s.tx, s.rx)) (stored.filter fun s => p.selects s.minute)).map
    fun e => ⟨e.1, e.2.1, e.2.2⟩

structure ThroughputCompare where
  offset : ℤ
  step : ℤ
  since : ℤ
  t : List ℤ
  tx : List (Option ℚ)
  rx : List (Option ℚ)

/-- The quantities of `buildCompare` that do not depend on the rows. -/
structure Ghost where
  step : ℤ
  stepMs : ℤ
  fromMs : ℤ
  n : ℤ
  since : ℤ
  dataEnd : ℤ

def ghostOf (r : Range) (offset : CompareOffset) (firstMs : ℤ) : Ghost :=
  let step := compareStep r
  let stepMs := fl (step * 1000)
  let fromMs := fl (floorDiv r.fromMs stepMs * stepMs)
  { step := step
    stepMs := stepMs
    fromMs := fromMs
    n := max 1 (ceilDiv (fl (r.toMs - fromMs)) stepMs)
    since := max fromMs (fl (firstMs + offset.ms))
    dataEnd := fl (ceilDiv r.toMs 60000 * 60000) }

def Ghost.t (g : Ghost) : List ℤ := bucketStarts g.fromMs g.stepMs g.n

def Ghost.index (g : Ghost) (row : CompareRow) : Option ℕ := bucketIndex g.fromMs g.stepMs g.n row.t

def Ghost.seconds (g : Ghost) (start : ℤ) : ℚ :=
  Binary64.div (fl (min (fl (start + g.stepMs)) (max g.dataEnd start) - max start g.since)) 1000

def Ghost.rate (g : Ghost) (bytes : List ℕ) : List (Option ℚ) :=
  List.zipWith (fun b start => if fl (start + g.stepMs) ≤ g.since then none else some (kbps b (max 0 (g.seconds start))))
    bytes g.t

def buildCompare (rows : List CompareRow) (r : Range) (offset : CompareOffset) (firstMs : Option ℤ) :
    Option ThroughputCompare :=
  firstMs.bind fun firstMs =>
    if fl (r.toMs - offset.ms) ≤ firstMs then none
    else
      let g := ghostOf r offset firstMs
      some
        { offset := offset.ms
          step := g.step
          since := g.since
          t := g.t
          tx := g.rate (fill g.index CompareRow.tx g.n.toNat rows)
          rx := g.rate (fill g.index CompareRow.rx g.n.toNat rows) }

end Compare

end NetWatch.History.Throughput
