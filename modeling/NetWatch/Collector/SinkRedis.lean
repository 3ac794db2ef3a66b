import NetWatch.Collector.Views
import NetWatch.Lib.IpText
import NetWatch.Lib.Redis

namespace NetWatch.Collector.SinkRedis

open Procfs Model Views Lib.Redis Lib.Texts Lib.IpText

def idText (id : ProcId) : String := toString id.1.toNat ++ ":" ++ toString id.2.toNat

inductive Key
  | snapshot
  | stream
  | metaInfo
  | alive
  | ended
  | proc (id : ProcId)
  | dests (id : ProcId)
  deriving DecidableEq

def Key.text : Key → String
  | .snapshot => "netwatch:snapshot"
  | .stream => "netwatch:stream"
  | .metaInfo => "netwatch:meta"
  | .alive => "netwatch:alive"
  | .ended => "netwatch:ended"
  | .proc id => "netwatch:proc:" ++ idText id
  | .dests id => "netwatch:proc:" ++ idText id ++ ":dests"

structure Config where
  endedTtlSecs : UInt64

def Config.ttl (cfg : Config) : Int := asI64 cfg.endedTtlSecs

def procFields (v : ProcView) : List (String × String) :=
  [("pid", toString v.pid.toNat),
    ("start_ns", toString v.startNs.toNat),
    ("start_ms", toString v.startMs),
    ("name", v.name),
    ("cmdline", v.cmdline),
    ("uid", toString v.uid.toNat),
    ("first_seen_ms", toString v.firstSeenMs),
    ("last_seen_ms", toString v.lastSeenMs),
    ("ended_ms", toString (v.endedMs.getD 0)),
    ("alive", if v.endedMs = none then "1" else "0"),
    ("tx_kbps", Lib.Binary64.toFixed 3 v.txKbps),
    ("rx_kbps", Lib.Binary64.toFixed 3 v.rxKbps),
    ("tx_total", toString v.txTotal.toNat),
    ("rx_total", toString v.rxTotal.toNat)]

def procCmds (ttl : Int) (v : ProcView) : List (Key × Op) :=
  let id := viewId v
  (.proc id, .hset (procFields v)) ::
    match v.endedMs with
    | none => [(.alive, .sadd (idText id))]
    | some ended =>
      [(.alive, .srem (idText id)), (.ended, .zadd (idText id) ended), (.proc id, .expire ttl), (.dests id, .expire ttl)]

def destField (d : DestView) : String :=
  d.proto ++ "|" ++ d.app ++ "|" ++ String.ofList (ipText d.raddr.toList) ++ "|" ++ toString d.rport.toNat

def destVal (tx rx : UInt64) : String :=
  "\x7b\"tx_total\":" ++ toString tx.toNat ++ ",\"rx_total\":" ++ toString rx.toNat ++ "\x7d"

def destCmd (d : DestView) : Key × Op :=
  (.dests (d.pid, d.startNs), .hset [(destField d, destVal d.txTotal d.rxTotal)])

def written (full : Bool) (t : Tick) : List ProcView := t.procs.filter fun v => full || v.changed

/-- The pipeline of one tick. `snap` is the JSON text of its snapshot. -/
def build (cfg : Config) (snap : String) (t : Tick) (full prune : Bool) : List (Key × Op) :=
  [(.snapshot, .set snap),
    (.stream, .xadd),
    (.metaInfo, .hset [("last_tick_ms", toString t.tsMs), ("interval_ms", toString t.intervalMs.toNat),
      ("drops", toString t.drops.toNat)])] ++
  (if full then [(.alive, .del)] else []) ++
  (written full t).flatMap (procCmds cfg.ttl) ++
  t.dests.map destCmd ++
  (if prune then
    [(.ended, .zremrangebyscore (Int.bmod (t.tsMs - Int.bmod (cfg.ttl * 1000) (2 ^ 64)) (2 ^ 64)))]
  else [])

structure Sink where
  con : Bool
  fullSync : Bool
  lastPrune : Int
  db : Db

def Sink.start (db : Db) : Sink := ⟨false, true, 0, db⟩

/-- How a write ends. A failed one may have been applied all the same, and it
may have cost the connection. -/
inductive Reply
  | ok
  | failed (applied dropped : Bool)
  deriving DecidableEq

/-- One tick for the sink, with the clock of the server and how the connect, if
there is one, and the write go. -/
structure Attempt where
  tick : Tick
  snap : String
  now : Int
  connect : Bool
  reply : Reply

def commands (cfg : Config) (s : Sink) (e : Attempt) : List (String × Op) :=
  (build cfg e.snap e.tick s.fullSync (60000 ≤ e.tick.tsMs - s.lastPrune)).map fun c => (c.1.text, c.2)

def Sink.write (cfg : Config) (s : Sink) (e : Attempt) : Option Sink :=
  match e.reply with
  | .ok =>
    (transaction e.now s.db (commands cfg s e)).map fun db =>
      { s with
        fullSync := false
        lastPrune := if 60000 ≤ e.tick.tsMs - s.lastPrune then e.tick.tsMs else s.lastPrune
        db := db }
  | .failed true dropped =>
    (transaction e.now s.db (commands cfg s e)).map fun db => { s with con := !dropped, fullSync := true, db := db }
  | .failed false dropped => some { s with con := !dropped, fullSync := true }

def Sink.step (cfg : Config) (s : Sink) (e : Attempt) : Option Sink :=
  if s.con then s.write cfg e
  else if e.connect then Sink.write cfg { s with con := true, fullSync := true } e
  else some s

def Writes (s : Sink) (e : Attempt) : Prop := (s.con = true ∨ e.connect = true) ∧ e.reply = .ok

theorem toList_idText (id : ProcId) : (idText id).toList = decimal id.1.toNat ++ ':' :: decimal id.2.toNat := by
  simp [idText, decimal]

theorem idText_injective : Function.Injective idText := by
  intro a b h
  have hlist := congrArg String.toList h
  rw [toList_idText, toList_idText] at hlist
  obtain ⟨hpid, hstart⟩ := append_sep_inj (notMem_decimal rfl _) (notMem_decimal rfl _) hlist
  exact Prod.ext (UInt32.toNat_inj.mp (decimal_injective hpid)) (UInt64.toNat_inj.mp (decimal_injective hstart))

theorem toList_proc (id : ProcId) : (Key.proc id).text.toList = "netwatch:proc:".toList ++ (idText id).toList :=
  String.toList_append

theorem toList_dests (id : ProcId) :
    (Key.dests id).text.toList = "netwatch:proc:".toList ++ ((idText id).toList ++ ":dests".toList) := by
  rw [← String.toList_append, ← String.toList_append, ← String.append_assoc]
  rfl

/-- The two characters after `netwatch:` tell the kinds of keys apart. -/
def kindChars (s : String) : List Char := (s.toList.drop 9).take 2

def Key.kind : Key → List Char
  | .snapshot => ['s', 'n']
  | .stream => ['s', 't']
  | .metaInfo => ['m', 'e']
  | .alive => ['a', 'l']
  | .ended => ['e', 'n']
  | .proc _ | .dests _ => ['p', 'r']

theorem kind_append (l : List Char) : (("netwatch:proc:".toList ++ l).drop 9).take 2 = ['p', 'r'] := by
  rw [List.drop_append_of_le_length (by decide), List.take_append_of_le_length (by decide)]
  decide

theorem kindChars_text (k : Key) : kindChars k.text = k.kind := by
  cases k with
  | proc id => rw [kindChars, toList_proc, kind_append]; rfl
  | dests id => rw [kindChars, toList_dests, kind_append]; rfl
  | _ => decide

theorem procKey_ne_destsKey (a b : ProcId) : (Key.proc a).text ≠ (Key.dests b).text := by
  intro h
  have hlist := congrArg String.toList h
  rw [toList_proc, toList_dests] at hlist
  have hrest := List.append_cancel_left hlist
  rw [toList_idText, toList_idText, List.append_assoc, List.cons_append] at hrest
  obtain ⟨-, hstart⟩ := append_sep_inj (notMem_decimal rfl _) (notMem_decimal rfl _) hrest
  have hcolon : ':' ∈ decimal a.2.toNat := by
    rw [hstart]
    exact List.mem_append_right _ (by decide)
  exact notMem_decimal rfl _ hcolon

theorem text_injective : Function.Injective Key.text := by
  intro j k h
  have hkind : j.kind = k.kind := by rw [← kindChars_text, ← kindChars_text, h]
  have hlist := congrArg String.toList h
  cases j with
  | proc a =>
      cases k with
      | proc b =>
          rw [toList_proc, toList_proc] at hlist
          rw [idText_injective (String.toList_injective (List.append_cancel_left hlist))]
      | dests b => exact absurd h (procKey_ne_destsKey a b)
      | _ => simp [Key.kind] at hkind
  | dests a =>
      cases k with
      | proc b => exact absurd h.symm (procKey_ne_destsKey b a)
      | dests b =>
          rw [toList_dests, toList_dests] at hlist
          have hid := List.append_cancel_right (List.append_cancel_left hlist)
          rw [idText_injective (String.toList_injective hid)]
      | _ => simp [Key.kind] at hkind
  | _ =>
      cases k <;> first
        | rfl
        | simp [Key.kind] at hkind

def keyOps (k : Key) (cmds : List (Key × Op)) : List Op := (cmds.filter fun c => c.1 = k).map Prod.snd

theorem opsOf_text (k : Key) (cmds : List (Key × Op)) :
    opsOf k.text (cmds.map fun c => (c.1.text, c.2)) = keyOps k cmds := by
  rw [opsOf, keyOps, List.filter_map, List.map_map]
  congr 1
  apply List.filter_congr
  intro c _
  simp [text_injective.eq_iff]

theorem keyOps_append (k : Key) (cs ds : List (Key × Op)) : keyOps k (cs ++ ds) = keyOps k cs ++ keyOps k ds := by
  simp only [keyOps, List.filter_append, List.map_append]

theorem keyOps_flatMap {α : Type} (k : Key) (f : α → List (Key × Op)) (l : List α) :
    keyOps k (l.flatMap f) = l.flatMap fun a => keyOps k (f a) := by
  induction l with
  | nil => rfl
  | cons a l ih => rw [List.flatMap_cons, keyOps_append, ih, List.flatMap_cons]

theorem keyOps_of_notMem {k : Key} {cmds : List (Key × Op)} (h : ∀ c ∈ cmds, c.1 ≠ k) : keyOps k cmds = [] := by
  rw [keyOps, List.filter_eq_nil_iff.mpr (by simpa using h), List.map_nil]

end NetWatch.Collector.SinkRedis
