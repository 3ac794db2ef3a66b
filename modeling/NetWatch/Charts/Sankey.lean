import Mathlib.Data.Finset.Insert
import Mathlib.Data.Finset.Card
import NetWatch.GeoIp.DestText
import NetWatch.GeoIp.Asn
import NetWatch.Lib.GroupFold
import NetWatch.Lib.SortBy

namespace NetWatch.Charts.Sankey

open GeoIp.Asn (Geo)
open GeoIp.DestText (destText)
open Lib.Assoc Lib.Buckets Lib.GroupFold Lib.JsText Lib.JsValue Lib.SortBy

section Labels

def legalForms : List Units :=
  ["inc", "inc.", "llc", "l.l.c.", "ltd", "ltd.", "limited", "corp", "corp.", "corporation", "co", "co.", "gmbh", "b.v.", "s.a.",
    "pbc", "plc", "ag", "sa"].map units

def lower (u : UInt16) : UInt16 := if 0x41 ≤ u ∧ u ≤ 0x5A then u + 0x20 else u

/-- A comma or none, spaces, a legal form, and the end. -/
def isSuffix (s : Units) : Bool :=
  let rest := if s.head? = some 0x2C then s.tail else s
  rest.head?.any isSpace && legalForms.contains ((rest.dropWhile isSpace).map lower)

/-- `replace(SUFFIX, '')`: the first place that matches. -/
def cutSuffix (s : Units) : Units := s.take (((List.range s.length).find? fun i => isSuffix (s.drop i)).getD s.length)

def shorten : ℕ → Units → Units
  | 0, s => s
  | n + 1, s =>
      let t := trim (cutSuffix s)
      if t = s ∨ t = [] then s else shorten n t

def shortOrg (org : Units) : Units := shorten 3 (trim org)

def clip (s : Units) (max : ℕ) : Units := if max < s.length then s.take (max - 1) ++ [0x2026] else s

def orgDestLabel (geo : Option Geo) (dest : Units) : Units :=
  match geo with
  | some g => clip (shortOrg g.org) 24 ++ units " (" ++ dest ++ units ")"
  | none => dest

def intUnits (n : ℤ) : Units := if n < 0 then 0x2D :: digitUnits 10 n.natAbs else digitUnits 10 n.natAbs

def asnLabel (g : Geo) : Units := units "AS" ++ intUnits g.asn ++ units " " ++ shortOrg g.org

end Labels

structure FlowAgg where
  name : Units
  proto : Units
  app : Units
  ip : Units
  rport : ℕ
  tx : ℚ
  rx : ℚ
  id : Units
  geo : Option Geo

inductive FlowDir
  | tx
  | rx
  | both
  deriving DecidableEq

inductive NodeKind
  | proc
  | app
  | dest
  deriving DecidableEq

structure SankeyOptions where
  dir : FlowDir
  topProcs : ℕ := 10
  topDests : ℕ := 15
  minShare : ℚ := 1 / 200
  byAsn : Bool := false

structure SankeyNode where
  id : Units
  label : Units
  depth : ℕ
  kind : NodeKind
  bucket : Bool
  value : ℚ := 0
  tx : ℚ := 0
  rx : ℚ := 0
  target : Option Units := none
  asn : Option ℤ := none
  deriving DecidableEq

structure SankeyLink where
  source : Units
  target : Units
  value : ℚ := 0
  tx : ℚ := 0
  rx : ℚ := 0
  deriving DecidableEq

structure SankeyGraph where
  nodes : List SankeyNode
  links : List SankeyLink
  total : ℚ
  deriving DecidableEq

def otherProcs : Units := units "p*other"

def unknownPeer : Units := units "d*unknown"

def otherDest (appLabel : Units) : Units := units "d*other:" ++ appLabel

def isUnknownPeer (ip : Units) (port : ℕ) : Bool :=
  port = 0 && (ip = [] || ip = units "0.0.0.0" || ip = units "::")

def destKey (ip : Units) (port : ℕ) : Units := destText ip port

def byValue : Units × ℚ → Units × ℚ → Ordering := compareLex (fun a b => compareOn Prod.snd b a) (compareOn Prod.fst)

def topKeys (sums : Dict Units ℚ) (n : ℕ) : List Units := ((sortBy byValue sums.entries).take n).map Prod.fst

structure Row where
  proc : Units
  app : Units
  appLabel : Units
  dest : Units
  value : ℚ
  tx : ℚ
  rx : ℚ
  name : Units
  id : Units
  destTarget : Option Units
  destLabel : Option Units
  asn : Option ℤ

section Rows

def pick (dir : FlowDir) (f : FlowAgg) : ℚ :=
  match dir with
  | .tx => f.tx
  | .rx => f.rx
  | .both => f.tx + f.rx

def carrying (dir : FlowDir) (flows : List FlowAgg) : List FlowAgg := flows.filter fun f => 0 < pick dir f

def protos (flows : List FlowAgg) : Dict Units (Finset Units) :=
  groupFold FlowAgg.app (fun _ => ∅) (fun s f => insert f.proto s) flows

def appLabel (protos : Dict Units (Finset Units)) (f : FlowAgg) : Units :=
  if 1 < ((protos.get? f.app).getD ∅).card then f.app ++ units "/" ++ f.proto else f.app

structure DestEnd where
  dest : Units
  destTarget : Option Units
  destLabel : Option Units
  asn : Option ℤ

def destEnd (byAsn : Bool) (f : FlowAgg) : DestEnd :=
  if isUnknownPeer f.ip f.rport then ⟨unknownPeer, none, none, none⟩
  else
    match if byAsn then f.geo else none with
    | some g => ⟨units "d:AS" ++ intUnits g.asn, none, some (asnLabel g), some g.asn⟩
    | none => ⟨units "d:" ++ destKey f.ip f.rport, some (destKey f.ip f.rport), some (orgDestLabel f.geo (destKey f.ip f.rport)), none⟩

def flowRow (opts : SankeyOptions) (label : FlowAgg → Units) (f : FlowAgg) : Row where
  proc := units "p:" ++ f.name
  app := units "a:" ++ label f
  appLabel := label f
  dest := (destEnd opts.byAsn f).dest
  value := pick opts.dir f
  tx := if opts.dir = .rx then 0 else f.tx
  rx := if opts.dir = .tx then 0 else f.rx
  name := f.name
  id := f.id
  destTarget := (destEnd opts.byAsn f).destTarget
  destLabel := (destEnd opts.byAsn f).destLabel
  asn := (destEnd opts.byAsn f).asn

def flowRows (flows : List FlowAgg) (opts : SankeyOptions) : List Row :=
  (carrying opts.dir flows).map (flowRow opts (appLabel (protos (carrying opts.dir flows))))

end Rows

section Folds

def Row.otherProc (r : Row) : Row := { r with proc := otherProcs }

def Row.toOther (r : Row) : Row := { r with dest := otherDest r.appLabel }

def cap (keptProcs keptDests : List Units) (r : Row) : Row :=
  let r := if r.proc ∈ keptProcs then r else r.otherProc
  if r.dest ∈ keptDests then r else r.toOther

def joined (a b : Units) : Units := a ++ 0 :: b

def linkSums (source target : Row → Units) (rows : List Row) : Dict Units ℚ :=
  sumBy (fun r => joined (source r) (target r)) Row.value rows

def sumOf (sums : Dict Units ℚ) (k : Units) : ℚ := (sums.get? k).getD 0

/-- A thin link of an app to a real destination goes to the other destinations of the app. -/
def foldDest (min : ℚ) (sums : Dict Units ℚ) (r : Row) : Row :=
  if units "d:" <+: r.dest ∧ sumOf sums (joined r.app r.dest) < min then r.toOther else r

def foldProc (min : ℚ) (sums : Dict Units ℚ) (r : Row) : Row :=
  if r.proc ≠ otherProcs ∧ sumOf sums (joined r.proc r.app) < min then r.otherProc else r

def minLink (flows : List FlowAgg) (opts : SankeyOptions) : ℚ := total Row.value (flowRows flows opts) * opts.minShare

def cappedRows (flows : List FlowAgg) (opts : SankeyOptions) : List Row :=
  (flowRows flows opts).map (cap (topKeys (sumBy Row.proc Row.value (flowRows flows opts)) opts.topProcs)
    (topKeys (sumBy Row.dest Row.value (flowRows flows opts)) opts.topDests))

def destRows (flows : List FlowAgg) (opts : SankeyOptions) : List Row :=
  (cappedRows flows opts).map (foldDest (minLink flows opts) (linkSums Row.app Row.dest (cappedRows flows opts)))

def placed (flows : List FlowAgg) (opts : SankeyOptions) : List Row :=
  (destRows flows opts).map (foldProc (minLink flows opts) (linkSums Row.proc Row.app (destRows flows opts)))

end Folds

section Graph

def Row.procNode (r : Row) : SankeyNode :=
  if r.proc = otherProcs then { id := r.proc, label := units "other processes", depth := 0, kind := .proc, bucket := true }
  else { id := r.proc, label := r.name, depth := 0, kind := .proc, bucket := false }

def Row.appNode (r : Row) : SankeyNode := { id := r.app, label := r.appLabel, depth := 1, kind := .app, bucket := false }

def Row.destNode (r : Row) : SankeyNode :=
  if r.dest = unknownPeer then { id := r.dest, label := units "unknown peer", depth := 2, kind := .dest, bucket := true }
  else if units "d*" <+: r.dest then
    { id := r.dest, label := units "other (" ++ r.appLabel ++ units ")", depth := 2, kind := .dest, bucket := true }
  else if r.asn.isSome then
    { id := r.dest, label := r.destLabel.getD [], depth := 2, kind := .dest, bucket := false, asn := r.asn }
  else { id := r.dest, label := r.destLabel.getD [], depth := 2, kind := .dest, bucket := false, target := r.destTarget }

def SankeyNode.add (n : SankeyNode) (r : Row) : SankeyNode :=
  { n with value := n.value + r.value, tx := n.tx + r.tx, rx := n.rx + r.rx }

def SankeyLink.add (l : SankeyLink) (r : Row) : SankeyLink :=
  { l with value := l.value + r.value, tx := l.tx + r.tx, rx := l.rx + r.rx }

def Row.nodes (r : Row) : List (SankeyNode × Row) := [(r.procNode, r), (r.appNode, r), (r.destNode, r)]

def Row.links (r : Row) : List (SankeyLink × Row) :=
  [({ source := r.proc, target := r.app }, r), ({ source := r.app, target := r.dest }, r)]

def nodeMap (rows : List Row) : Dict Units SankeyNode :=
  groupFold (fun t : SankeyNode × Row => t.1.id) Prod.fst (fun n t => n.add t.2) (rows.flatMap Row.nodes)

def linkMap (rows : List Row) : Dict Units SankeyLink :=
  groupFold (fun t : SankeyLink × Row => joined t.1.source t.1.target) Prod.fst (fun l t => l.add t.2) (rows.flatMap Row.links)

def instances (rows : List Row) : Dict Units (Dict Units ℚ) :=
  groupFold Row.proc (fun _ => .empty) (into Row.id (fun _ => 0) fun sum r => sum + r.value)
    (rows.filter fun r => r.proc ≠ otherProcs ∧ r.id ≠ [])

def busier (best : ℚ × Option Units) (e : Units × ℚ) : ℚ × Option Units :=
  if best.1 < e.2 ∨ e.2 = best.1 ∧ compare e.1 (best.2.getD []) = .lt then (e.2, some e.1) else best

def busiest (target : Option Units) (sums : Dict Units ℚ) : Option Units := (sums.entries.foldl busier (-1, target)).2

def withTargets (nodes : Dict Units SankeyNode) (instances : Dict Units (Dict Units ℚ)) : Dict Units SankeyNode :=
  nodes.mapVals fun id n => (instances.get? id).elim n fun sums => { n with target := busiest n.target sums }

def appsByLabel (nodes : List SankeyNode) : List Units :=
  (sortBy (compareOn SankeyNode.label) (nodes.filter fun n => n.kind = .app)).map SankeyNode.id

structure MainApp where
  app : Units
  value : ℚ

def linkEnds (apps : List Units) (l : SankeyLink) : Units × Units :=
  if l.target ∈ apps then (l.source, l.target) else (l.target, l.source)

def largerApp (apps : List Units) (cur : MainApp) (l : SankeyLink) : MainApp :=
  let app := (linkEnds apps l).2
  if cur.value < l.value ∨ l.value = cur.value ∧ apps.idxOf app < apps.idxOf cur.app then ⟨app, l.value⟩ else cur

def mainApps (apps : List Units) (links : List SankeyLink) : Dict Units MainApp :=
  groupFold (fun l => (linkEnds apps l).1) (fun l => ⟨(linkEnds apps l).2, l.value⟩) (largerApp apps) links

def group (apps : List Units) (mains : Dict Units MainApp) (n : SankeyNode) : ℕ :=
  if n.kind = .app then 0 else ((mains.get? n.id).map fun m => apps.idxOf m.app).getD 0

def nodeOrder (apps : List Units) (mains : Dict Units MainApp) : SankeyNode → SankeyNode → Ordering :=
  compareLex (compareOn SankeyNode.depth) (compareLex (compareOn (group apps mains)) (compareLex (compareOn fun n => n.bucket.toNat)
    (compareLex (compareOn SankeyNode.label) (compareOn SankeyNode.id))))

def linkOrder : SankeyLink → SankeyLink → Ordering := compareLex (compareOn SankeyLink.source) (compareOn SankeyLink.target)

/-- A node has to be compared with another of its layer, and has no main app. -/
def stray (nodes : List SankeyNode) (mains : Dict Units MainApp) : Bool :=
  nodes.any fun n => n.kind ≠ .app && (mains.get? n.id).isNone && nodes.any fun m => m.depth = n.depth && m.id ≠ n.id

def drawnNodes (rows : List Row) : Dict Units SankeyNode := withTargets (nodeMap rows) (instances rows)

def appOrder (rows : List Row) : List Units := appsByLabel (drawnNodes rows).values

def mainApp (rows : List Row) : Dict Units MainApp := mainApps (appOrder rows) (linkMap rows).values

/-- The graph of some rows; none when the comparison of two nodes throws. -/
def draw (rows : List Row) : Option (List SankeyNode × List SankeyLink) :=
  if stray (drawnNodes rows).values (mainApp rows) then none
  else some (sortBy (nodeOrder (appOrder rows) (mainApp rows)) (drawnNodes rows).values, sortBy linkOrder (linkMap rows).values)

def buildSankey (flows : List FlowAgg) (opts : SankeyOptions) : Option SankeyGraph :=
  (draw (placed flows opts)).map fun g => ⟨g.1, g.2, total Row.value (flowRows flows opts)⟩

end Graph

end NetWatch.Charts.Sankey
