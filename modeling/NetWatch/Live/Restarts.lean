import NetWatch.Live.Link

namespace NetWatch.Live.Restarts

open Hub Store Link Lib.Timeline Lib.Runs

variable {α : Type}

/-- The snapshots of the stream, the first of which are trimmed, and the hub of the
API server. `pos` counts the entries that a hub has passed, and `fetching` has the
range that a running backfill reads. `held` keeps all ticks that a hub has accepted. -/
structure Source (α : Type) where
  log : List (CompactTick α)
  trimmed : Nat
  hub : LiveHub α
  pos : Nat
  fetching : Option (Nat × Nat)
  held : List (CompactTick α)

def Source.start : Source α := ⟨[], 0, .new, 0, none, []⟩

namespace Source

variable (cap : Capacity)

def add (s : Source α) (entry : CompactTick α) : Source α := { s with log := s.log ++ [entry] }

def trim (s : Source α) (n : Nat) : Option (Source α) :=
  if s.trimmed + n ≤ s.log.length then some { s with trimmed := s.trimmed + n } else none

def restart (s : Source α) : Source α := { s with hub := .new, fetching := none }

/-- The first page of a backfill is read: this is where the later pages end. -/
def fetch (s : Source α) : Option (Source α) :=
  if s.hub.loaded then none
  else some { s with fetching := some (max s.trimmed (s.log.length - cap.val), s.log.length) }

/-- All pages are read, except for entries that were trimmed meanwhile. -/
def backfill (s : Source α) (first : Nat) : Option (Source α) :=
  match s.fetching with
  | some (low, high) =>
      if low ≤ first ∧ first ≤ max low s.trimmed ∧ first ≤ high then
        let all := s.hub.backfill cap ((s.log.take high).drop first)
        some { s with hub := all.1, pos := high, fetching := none, held := s.held ++ all.2 }
      else none
  | none => none

def trimmedPast (s : Source α) : Option (Source α) :=
  if s.hub.loaded then some { s with hub := { s.hub with pendingGap := true } } else none

/-- The next entry that is not trimmed, with the tick to be sent out. -/
def read (s : Source α) : Option (Source α × Option (CompactTick α)) :=
  if s.hub.loaded then
    match s.log[max s.pos s.trimmed]? with
    | some entry =>
        let one := s.hub.ingest cap entry
        some ({ s with hub := one.1, pos := max s.pos s.trimmed + 1, held := s.held ++ one.2.toList }, one.2)
    | none => none
  else none

end Source

/-- The API server, a tab and what is between them. An event stream whose server is
gone is not `attached`, but what is in flight may still arrive. `told` is the time
the event stream told last, in its hello or with a tick, and `before` the one it had
told when the first tick was parked, unless hello came without a request since. -/
structure Site (α : Type) where
  source : Source α
  store : LiveStore α
  wire : Option (List (Message α))
  attached : Bool
  request : Option (Option (List (CompactTick α)))
  told : Option Int
  before : Option Int

def Site.start : Site α := ⟨.start, .new, none, false, none, none, none⟩

inductive Event (α : Type)
  | add (entry : CompactTick α)
  | trim (n : Nat)
  | restart
  | fetch
  | backfill (first : Nat)
  | trimmedPast
  | read
  | openStream
  | connect
  | deliver
  | disconnect (closed : Bool)
  | serve
  | respond
  | fail (message : String)
  | close

namespace Site

variable (cap : Capacity)

def broadcast (s : Site α) (next : Source α × Option (CompactTick α)) : Site α :=
  { s with
    source := next.1
    wire := if s.attached then s.wire.map fun ms => ms ++ next.2.toList.map .tick else s.wire }

def deliverHello (s : Site α) (latestTs : Option Int) (rest : List (Message α)) : Site α :=
  let next := s.store.onHello latestTs
  { s with
    store := next.1
    wire := some rest
    request := if next.2 then some none else s.request
    told := latestTs
    before := if next.2 then latestTs else if next.1.pending.any List.isEmpty then none else s.before }

def deliverTick (s : Site α) (tick : CompactTick α) (rest : List (Message α)) : Site α :=
  { s with store := s.store.onTick tick, wire := some rest, told := some tick.ts }

def step (s : Site α) : Event α → Option (Site α)
  | .add entry => some { s with source := s.source.add entry }
  | .trim n => (s.source.trim n).map fun source => { s with source := source }
  | .restart => some { s with source := s.source.restart, attached := false }
  | .fetch => (s.source.fetch cap).map fun source => { s with source := source }
  | .backfill first => (s.source.backfill cap first).map fun source => { s with source := source }
  | .trimmedPast => s.source.trimmedPast.map fun source => { s with source := source }
  | .read => (s.source.read cap).map s.broadcast
  | .openStream => if s.store.es then none else some { s with store := s.store.openStream }
  | .connect =>
      if s.store.es && s.wire.isNone then
        some { s with wire := some [.hello s.source.hub.latestTs], attached := true }
      else none
  | .deliver =>
      match s.wire with
      | some (.hello latestTs :: rest) => some (s.deliverHello latestTs rest)
      | some (.tick t :: rest) => some (s.deliverTick t rest)
      | _ => none
  | .disconnect closed =>
      if s.store.es then some { s with store := s.store.onError closed, wire := none, attached := false } else none
  | .serve =>
      match s.request with
      | some none => some { s with request := some (some (s.source.hub.series capacity)) }
      | _ => none
  | .respond =>
      match s.request with
      | some (some series) => some { s with store := s.store.seriesLoaded series, request := none }
      | _ => none
  | .fail message =>
      match s.request with
      | some _ => some { s with store := s.store.seriesFailed message, request := none }
      | none => none
  | .close => some { s with store := .new, wire := none, attached := false, request := none }

end Site

end NetWatch.Live.Restarts
