import NetWatch.Lib.Runs
import NetWatch.Live.Store

namespace NetWatch.Live.Link

open Hub Store Lib.Timeline Lib.Runs

variable {α : Type}

inductive Message (α : Type)
  | hello (latestTs : Option Int)
  | tick (t : CompactTick α)

/-- The hub, a tab and what is between them: the messages of its event stream, if
it is connected, and its series request, if one is in flight, with the answer once
the hub has given it. `accepted`, `delivered` and `loaded` keep the history: all
ticks the hub has accepted, the time of the newest tick event delivered, and the
first tick and newest time of the last answer, until the stream is disconnected or
says hello. -/
structure Session (α : Type) where
  hub : LiveHub α
  store : LiveStore α
  wire : Option (List (Message α))
  request : Option (Option (List (CompactTick α)))
  accepted : List (CompactTick α)
  delivered : Option Int
  loaded : Option (CompactTick α × Int)

def Session.start : Session α := ⟨.new, .new, none, none, [], none, none⟩

inductive Event (α : Type)
  | backfill (entries : List (CompactTick α))
  | trimmed
  | read (entry : CompactTick α)
  | openStream
  | connect
  | deliver
  | disconnect (closed : Bool)
  | serve
  | respond
  | fail (message : String)
  | close

namespace Session

def broadcast (s : Session α) (tick : Option (CompactTick α)) : Session α :=
  { s with
    wire := s.wire.map fun ms => ms ++ tick.toList.map .tick
    accepted := s.accepted ++ tick.toList }

def deliverHello (s : Session α) (latestTs : Option Int) (rest : List (Message α)) : Session α :=
  let next := s.store.onHello latestTs
  { s with
    store := next.1
    wire := some rest
    request := if next.2 then some none else s.request
    loaded := none }

def deliverTick (s : Session α) (tick : CompactTick α) (rest : List (Message α)) : Session α :=
  { s with store := s.store.onTick tick, wire := some rest, delivered := some tick.ts }

def answerSpan (series : List (CompactTick α)) : Option (CompactTick α × Int) :=
  series.head?.bind fun first => series.getLast?.map fun newest => (first, newest.ts)

def step (cap : Capacity) (s : Session α) : Event α → Option (Session α)
  | .backfill entries =>
      if s.hub.loaded then none
      else
        let all := s.hub.backfill cap entries
        some { s with hub := all.1, accepted := s.accepted ++ all.2 }
  | .trimmed => if s.hub.loaded then some { s with hub := { s.hub with pendingGap := true } } else none
  | .read entry =>
      if s.hub.loaded then
        let one := s.hub.ingest cap entry
        some (broadcast { s with hub := one.1 } one.2)
      else none
  | .openStream => if s.store.es then none else some { s with store := s.store.openStream }
  | .connect =>
      if s.store.es && s.wire.isNone then some { s with wire := some [.hello s.hub.latestTs] } else none
  | .deliver =>
      match s.wire with
      | some (.hello latestTs :: rest) => some (s.deliverHello latestTs rest)
      | some (.tick t :: rest) => some (s.deliverTick t rest)
      | _ => none
  | .disconnect closed =>
      if s.store.es then
        some { s with
          store := s.store.onError closed
          wire := none
          loaded := if s.wire.isSome then none else s.loaded }
      else none
  | .serve =>
      match s.request with
      | some none => some { s with request := some (some (s.hub.series capacity)) }
      | _ => none
  | .respond =>
      match s.request with
      | some (some series) =>
          some { s with store := s.store.seriesLoaded series, request := none, loaded := answerSpan series }
      | _ => none
  | .fail message =>
      match s.request with
      | some _ => some { s with store := s.store.seriesFailed message, request := none }
      | none => none
  | .close => some { s with store := .new, wire := none, request := none, loaded := none }

end Session

/-- The newest time that has come to the tab: of the answer or of a tick event. -/
def upTo (newest : Int) : Option Int → Int
  | none => newest
  | some delivered => max newest delivered

theorem le_upTo (c : Int) (o : Option Int) : c ≤ upTo c o := by
  cases o with
  | none => exact le_refl c
  | some d => exact le_max_left c d

theorem upTo_lt {c x : Int} {o : Option Int} (hc : c < x) (ho : ∀ d, o = some d → d < x) : upTo c o < x := by
  cases o with
  | none => exact hc
  | some d => exact max_lt hc (ho d rfl)

def markHead (mark : Bool) : List (CompactTick α) → List (CompactTick α)
  | [] => []
  | first :: rest => { first with gap := first.gap || mark } :: rest

theorem markHead_snoc {l : List (CompactTick α)} {t : CompactTick α} (mark : Bool) (h : l ≠ []) :
    markHead mark (l ++ [t]) = markHead mark l ++ [t] := by
  cases l with
  | nil => exact absurd rfl h
  | cons x l => rfl

theorem markHead_newest (mark : Bool) (l : List (CompactTick α)) :
    (markHead mark l).getLast?.map CompactTick.ts = l.getLast?.map CompactTick.ts := by
  cases l with
  | nil => rfl
  | cons x l =>
      cases l with
      | nil => rfl
      | cons y l => rfl

theorem mem_markHead {mark : Bool} {l : List (CompactTick α)} {t : CompactTick α} (h : t ∈ markHead mark l) :
    ∃ u ∈ l, t.ts = u.ts := by
  cases l with
  | nil => cases h
  | cons x l =>
      rcases List.mem_cons.mp h with rfl | h
      · exact ⟨x, List.mem_cons_self, rfl⟩
      · exact ⟨t, List.mem_cons_of_mem x h, rfl⟩

theorem increasing_markHead {l : List (CompactTick α)} (mark : Bool) (h : Increasing CompactTick.ts l) :
    Increasing CompactTick.ts (markHead mark l) := by
  cases l with
  | nil => exact h
  | cons x l =>
      obtain ⟨hx, hl⟩ := List.pairwise_cons.mp h
      exact List.pairwise_cons.mpr ⟨hx, hl⟩

/-- The buffer from the first tick of the answer on is what the hub has accepted
from that tick up to time `n`, but for what the capacity cuts off at its beginning
and for a mark on that tick that ticks before it are missing. -/
def CopyUpTo (s : Session α) (first : CompactTick α) (n : Int) : Prop :=
  ∃ mark, (s.store.ticks.filter fun t => decide (first.ts ≤ t.ts)) =
    latest capacity (markHead mark (span CompactTick.ts first.ts n s.accepted))

end NetWatch.Live.Link
