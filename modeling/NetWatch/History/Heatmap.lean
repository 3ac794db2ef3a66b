import Mathlib.Data.Int.Basic
import NetWatch.Lib.Assoc
import NetWatch.Lib.Binary64

namespace NetWatch.History.Heatmap

open Lib.Assoc

def hourMs : Int := 3600000

def weekMs : Int := 7 * 24 * hourMs

def quarterMs : Int := 15 * 60000

def heatmapCells : Nat := 168

inductive HeatWeeks
  | one
  | four
  | twelve

def HeatWeeks.num : HeatWeeks → Nat
  | .one => 1
  | .four => 4
  | .twelve => 12

/-- Whole weeks that end at the start of the hour `now` falls in. -/
def heatWindow (weeks : Nat) (now : Int) : Int × Int :=
  let stop := now / hourMs * hourMs
  (stop - weeks * weekMs, stop)

/-- A timezone as its UTC offset at each time. -/
abbrev Zone := Int → Int

/-- The hours since 1970 on the local clock. They stand for the text of the local
date and hour, which is the same for two times just when these are. -/
def localHour (tz : Zone) (t : Int) : Int := (t + tz t) / hourMs

/-- The weekday, from Monday on, and the hour of the day. The day 0 is a Thursday. -/
def cellOf (h : Int) : Nat := ((h / 24 + 3) % 7 * 24 + h % 24).toNat

def quarters (start stop : Int) : List Int :=
  let first := start / quarterMs * quarterMs
  (List.range ((stop - first + quarterMs - 1) / quarterMs).toNat).map fun i : Nat => first + i * quarterMs

structure Counting where
  last : Option Int
  out : List Nat

def Counting.start : Counting := ⟨none, List.replicate heatmapCells 0⟩

def Counting.step (tz : Zone) (s : Counting) (t : Int) : Counting :=
  let key := localHour tz t
  if s.last = some key then s else ⟨some key, s.out.modify (cellOf key) (· + 1)⟩

def sampleCounts (start stop : Int) (tz : Zone) : List Nat :=
  ((quarters start stop).foldl (Counting.step tz) .start).out

/-- A row of the query: the weekday counts from 1, the Monday. -/
structure HeatmapRow where
  key : String
  dow : Nat
  hour : Nat
  bytes : Nat
  days : Nat

structure Cells where
  bytes : List ℚ
  active : List ℚ

def Cells.empty : Cells := ⟨List.replicate heatmapCells 0, List.replicate heatmapCells 0⟩

structure HeatmapGrid where
  key : Option String
  bytes : ℚ
  kbps : List (Option ℚ)
  active : List ℚ

def HeatmapRow.cell (r : HeatmapRow) : Int := (r.dow - 1) * 24 + r.hour

def Cells.add (g : Cells) (r : HeatmapRow) : Cells where
  bytes := g.bytes.modify r.cell.toNat fun b => Lib.Binary64.add b (Lib.Binary64.round r.bytes)
  active := g.active.modify r.cell.toNat fun b => Lib.Binary64.add b (Lib.Binary64.round r.days)

def addRow (byKey : Dict String Cells) (r : HeatmapRow) : Dict String Cells :=
  if 0 ≤ r.cell ∧ r.cell < heatmapCells then byKey.insert r.key (((byKey.get? r.key).getD .empty).add r) else byKey

def rate (bytes : ℚ) (samples : ℚ) : ℚ :=
  Lib.Binary64.div (Lib.Binary64.div (Lib.Binary64.div (Lib.Binary64.mul bytes 8) 1000) 3600) samples

def grid (byApp : Bool) (samples : List Nat) (key : String) (g : Cells) : HeatmapGrid where
  key := if byApp then some key else none
  bytes := g.bytes.foldl Lib.Binary64.add 0
  kbps := List.zipWith (fun b (n : Nat) => if 0 < n then some (rate b n) else none) g.bytes samples
  active := g.active

/-- The grids of the answer. `compare` is how the keys of grids with equal bytes
are put in order. -/
def buildHeatmap (compare : Option String → Option String → Bool) (rows : List HeatmapRow) (byApp : Bool)
    (samples : List Nat) : List HeatmapGrid :=
  let byKey := rows.foldl addRow .empty
  (byKey.entries.map fun e => grid byApp samples e.1 e.2).mergeSort fun a b =>
    b.bytes < a.bytes || (a.bytes = b.bytes && compare a.key b.key)

end NetWatch.History.Heatmap
