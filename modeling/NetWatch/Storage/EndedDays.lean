import NetWatch.Collector.RedisMirror

namespace NetWatch.Storage.EndedDays

open Collector.Model Collector.Views Collector.Ticks Collector.SinkRedis Lib.Redis Lib.Runs

def chunk : Nat := 500

def procKeys (id : String) : List String := ["netwatch:proc:" ++ id, "netwatch:proc:" ++ id ++ ":dests"]

/-- A call of `deleteEndedDays` that is not done: the ids of its list that are
left, and whether the hashes of the first chunk of these are unlinked already. -/
structure Deletion where
  left : List String
  unlinked : Bool

/-- The ids of `netwatch:ended` that ended on one of the days. The timezone is in
`dayOf`. -/
def doomed (ended : List (String × Int)) (dayOf : Int → String) (days : List String) : List String :=
  (ended.filter fun e => dayOf e.2 ∈ days).map Prod.fst

/-- The collector with the ticks its Redis sink has still to write, the sink with
the database, and the deletions that the web server runs beside them. -/
structure System where
  agg : Aggregator
  queue : List Tick
  sink : Sink
  deletions : List Deletion

def System.start (clkTck : ClkTck) (db : Db) : System := ⟨.new clkTck, [], .start db, []⟩

inductive Event
  | ingest (x : Input)
  | write (snap : String) (now : Int)
  | read (now : Int) (dayOf : Int → String) (days : List String)
  | unlink (i : Nat)
  | zrem (i : Nat)

namespace System

def withDb (s : System) (db : Db) : System := { s with sink := { s.sink with db := db } }

def step (cfg : Config) (s : System) : Event → Option System
  | .ingest x => (ingest s.agg x).map fun r => { s with agg := r.1, queue := s.queue ++ [r.2] }
  | .write snap now =>
      match s.queue with
      | [] => none
      | t :: rest => (s.sink.step cfg ⟨t, snap, now, true, .ok⟩).map fun sink => { s with queue := rest, sink := sink }
  | .read now dayOf days =>
      ((s.sink.db Key.ended.text).purge now).zrange.map fun ended =>
        { s with deletions := s.deletions ++ [⟨doomed ended dayOf days, false⟩] }
  | .unlink i =>
      s.deletions[i]?.bind fun d =>
        if d.unlinked || d.left.isEmpty then none
        else
          some { s.withDb (Lib.Redis.unlink s.sink.db ((d.left.take chunk).flatMap procKeys)) with
            deletions := s.deletions.set i { d with unlinked := true } }
  | .zrem i =>
      s.deletions[i]?.bind fun d =>
        if d.unlinked then
          ((s.sink.db Key.ended.text).zrem (d.left.take chunk)).map fun cell =>
            { s.withDb (Function.update s.sink.db Key.ended.text cell) with
              deletions := s.deletions.set i ⟨d.left.drop chunk, false⟩ }
        else none

def unlinks (s : System) : Event → List String
  | .unlink i => (s.deletions[i]?.map fun d => (d.left.take chunk).flatMap procKeys).getD []
  | _ => []

def alive (s : System) : List String := (s.sink.db Key.alive.text).members

def ended (s : System) : List String := (s.sink.db Key.ended.text).zmembers

def Untouched (s : System) (e : Event) : Prop := ∀ m ∈ s.alive, ∀ k ∈ procKeys m, k ∉ s.unlinks e

/-- Ids that `netwatch:ended` has, that a deletion still has on its list, or that
the sink will add to `netwatch:ended`. -/
def Marked (s : System) (m : String) : Prop :=
  m ∈ s.ended ∨ (∃ d ∈ s.deletions, m ∈ d.left) ∨
    ∃ t ∈ s.queue, ∃ v ∈ t.procs, v.endedMs ≠ none ∧ idText (viewId v) = m

/-- No record brings a process back that is marked as ended: one that the
aggregator has not in memory, or no longer. -/
def NotSeenAgain (s : System) : Event → Prop
  | .ingest x => ∀ y ∈ x.flows, s.agg.procs.get? y.id = none → ¬ s.Marked (idText y.id)
  | _ => True

end System

/-- The two index keys hold ids of processes, and none of them is in both. -/
structure Apart (db : Db) : Prop where
  alive : ∀ m ∈ (db Key.alive.text).members, ∃ id, idText id = m
  ended : ∀ m ∈ (db Key.ended.text).zmembers, ∃ id, idText id = m
  disjoint : ∀ m ∈ (db Key.alive.text).members, m ∉ (db Key.ended.text).zmembers

end NetWatch.Storage.EndedDays
