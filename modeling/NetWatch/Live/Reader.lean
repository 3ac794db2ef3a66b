import Mathlib.Data.List.DropRight
import Mathlib.Data.Prod.Lex
import NetWatch.Lib.Runs
import NetWatch.Lib.Timeline
import NetWatch.Live.Hub

namespace NetWatch.Live.Reader

open Hub Lib.Timeline

/-- Stream ids `ms-seq`, compared as numbers. -/
abbrev StreamId := ℕ ×ₗ ℕ

def zeroId : StreamId := toLex (0, 0)

structure Entry (β : Type) where
  id : StreamId
  message : β

/-- What `parseSnapshot` and `compactTick` make of an entry: the first refuses it,
the second throws, or there is a snapshot. -/
inductive Decoded (σ : Type)
  | unparsable
  | broken
  | snap (s : σ)

/-- What the hub needs of the entries and their snapshots. Comparing the intervals
of two ticks throws if one of them does not convert to a number; otherwise `far`
says whether the second tick is more than 2.5 intervals after the first one. -/
structure Format (β σ τ φ : Type) where
  decode : β → Decoded σ
  ts : σ → τ
  converts : σ → Bool
  far : σ → σ → Bool
  flows : σ → φ

def page : Nat := 300

def readCount : Nat := 50

def recentFlows : Nat := 30

structure Tick (σ : Type) where
  snap : σ
  gap : Bool

structure State (σ τ φ : Type) where
  ring : List (Tick σ)
  recent : List (τ × φ)
  lastId : Option StreamId
  resync : Bool
  pendingGap : Bool

def State.new {σ τ φ : Type} : State σ τ φ := ⟨[], [], none, false, false⟩

inductive Taken (σ : Type)
  | skipped
  | threw
  | accepted (t : Tick σ)

section Ingest

variable {β σ τ φ : Type} [LinearOrder τ] (f : Format β σ τ φ) (cap : Capacity)

/-- `#ingest` up to where it changes the hub. -/
def State.judge (h : State σ τ φ) (message : β) : Taken σ :=
  match f.decode message with
  | .unparsable => .skipped
  | .broken => .threw
  | .snap s =>
      match h.ring.getLast? with
      | none => .accepted ⟨s, h.pendingGap⟩
      | some prev =>
          if f.ts s ≤ f.ts prev.snap then .skipped
          else if h.pendingGap then .accepted ⟨s, true⟩
          else if f.converts s && f.converts prev.snap then .accepted ⟨s, f.far prev.snap s⟩
          else .threw

def State.push (h : State σ τ φ) (t : Tick σ) : State σ τ φ :=
  let recent := h.recent ++ [(f.ts t.snap, f.flows t.snap)]
  { h with
    ring := latest cap.val (h.ring ++ [t])
    recent := if recent.length > recentFlows then recent.tail else recent
    pendingGap := false }

/-- The entries of a backfill, oldest first, up to the first that throws. -/
def State.ingestAll (h : State σ τ φ) : List β → State σ τ φ × List (Tick σ) × Bool
  | [] => (h, [], false)
  | m :: ms =>
      match h.judge f m with
      | .skipped => State.ingestAll h ms
      | .threw => (h, [], true)
      | .accepted t =>
          let rest := State.ingestAll (h.push f cap t) ms
          (rest.1, t :: rest.2.1, rest.2.2)

/-- Ticks of the last seconds. `cut` is the time so many seconds before another. -/
def State.series (cut : τ → Nat → τ) (h : State σ τ φ) (seconds : Nat) : List (Tick σ) :=
  match h.ring.getLast? with
  | none => []
  | some newest => h.ring.rtakeWhile fun t => cut (f.ts newest.snap) seconds < f.ts t.snap

def State.flowsOf (cut : τ → Nat → τ) (h : State σ τ φ) (seconds : Nat) : List (τ × φ) :=
  match h.recent.getLast? with
  | none => []
  | some newest => h.recent.rtakeWhile fun r => cut newest.1 seconds < r.1

end Ingest

/-- Where `#run` waits, with the reply of Redis once it is given: at the top of its
loop, for a page of the backfill, for EXISTS, for XINFO or for XREAD. A reply of
XREAD comes with the number of entries trimmed by then. -/
inductive Phase (β : Type)
  | top
  | paging (entries : List (Entry β)) (reply : Option (List (Entry β)))
  | checking (reply : Option Bool)
  | info (reply : Option (Option StreamId))
  | reading (reply : Option (List (Entry β) × Nat))

/-- A subscriber, with the number of ticks sent out before it joined and those it
was called with. -/
structure Listener (σ : Type) where
  name : Nat
  joined : Nat
  got : List (Tick σ)

/-- The stream, of whose entries the first ones are trimmed, the hub and its
subscribers. The rest is history since the last backfill began to take entries up:
the place in the log of its first entry, the entries passed with whether they were
in the stream when it was read, and the ticks accepted and sent out. -/
structure World (β σ τ φ : Type) where
  log : List (Entry β)
  trimmed : Nat
  hub : State σ τ φ
  phase : Phase β
  listeners : List (Listener σ)
  warnings : Nat
  begun : Nat
  block : Nat
  passed : List (Entry β × Bool)
  accepted : List (Tick σ)
  sent : List (Tick σ)

def World.start {β σ τ φ : Type} : World β σ τ φ := ⟨[], 0, .new, .top, [], 0, 0, 0, [], [], []⟩

inductive Event (β : Type)
  | append (e : Entry β)
  | trim (n : Nat)
  | subscribe (name : Nat)
  | unsubscribe (name : Nat)
  | ready
  | answer
  | resume
  | fail

namespace World

variable {β σ τ φ : Type} [LinearOrder τ] (f : Format β σ τ φ) (cap : Capacity) (throws : Nat → Tick σ → Bool)

def stream (w : World β σ τ φ) : List (Entry β) := w.log.drop w.trimmed

def pageCount (entries : List (Entry β)) : Nat := min page (cap.val - entries.length)

/-- XREVRANGE from the newest entry, or from before the oldest one read so far. -/
def revRange (w : World β σ τ φ) (entries : List (Entry β)) : List (Entry β) :=
  let upTo := w.stream.filter fun e => entries.getLast?.all fun oldest => e.id < oldest.id
  upTo.reverse.take (pageCount cap entries)

def readAfter (w : World β σ τ φ) (last : StreamId) : List (Entry β) :=
  (w.stream.filter fun e => last < e.id).take readCount

def answer (w : World β σ τ φ) : Option (Phase β) :=
  match w.phase, w.hub.lastId with
  | .paging entries none, _ => some (.paging entries (some (w.revRange cap entries)))
  | .checking none, _ => some (.checking (some !w.log.isEmpty))
  | .info none, _ => some (.info (some (w.stream.head?.map Entry.id)))
  | .reading none, some last => some (.reading (some (w.readAfter last, w.trimmed)))
  | _, _ => none

/-- The catch block of the loop. -/
def caught (w : World β σ τ φ) : World β σ τ φ := { w with hub := { w.hub with resync := true }, phase := .top }

def toRead (w : World β σ τ φ) : World β σ τ φ :=
  { w with hub := { w.hub with resync := false }, phase := .reading none }

def loaded (w : World β σ τ φ) (entries : List (Entry β)) (hub : State σ τ φ) (ts : List (Tick σ)) : World β σ τ φ :=
  { w with
    hub := hub
    begun := (w.log.filter fun e => entries.getLast?.any fun first => e.id < first.id).length
    block := entries.length
    passed := entries.reverse.map fun e => (e, true)
    accepted := ts
    sent := [] }

/-- The end of `#backfill`, once all pages are read. -/
def load (w : World β σ τ φ) (entries : List (Entry β)) : World β σ τ φ :=
  let all := State.ingestAll f cap { w.hub with ring := [], recent := [] } (entries.reverse.map Entry.message)
  if all.2.2 then (w.loaded entries all.1 all.2.1).caught
  else (w.loaded entries { all.1 with lastId := some ((entries.head?.map Entry.id).getD zeroId) } all.2.1).toRead

def notify (w : World β σ τ φ) (t : Tick σ) : World β σ τ φ :=
  { w with
    listeners := w.listeners.map fun l => { l with got := l.got ++ [t] }
    warnings := w.warnings + (w.listeners.filter fun l => throws l.name t).length
    sent := w.sent ++ [t] }

/-- The loop of `#readOnce`. -/
def readAll (w : World β σ τ φ) : List (Entry β) → World β σ τ φ
  | [] => { w with phase := .top }
  | e :: es =>
      let w := { w with hub := { w.hub with lastId := some e.id }, passed := w.passed ++ [(e, true)] }
      match w.hub.judge f e.message with
      | .skipped => readAll w es
      | .threw => w.caught
      | .accepted t =>
          readAll (notify throws { w with hub := w.hub.push f cap t, accepted := w.accepted ++ [t] } t) es

/-- Entries that were trimmed before the first of `entries` could be read. -/
def passTrimmed (w : World β σ τ φ) (entries : List (Entry β)) (trimmed : Nat) : World β σ τ φ :=
  if entries.isEmpty then w
  else
    let missed := (w.log.take trimmed).filter fun e => w.hub.lastId.any fun last => last < e.id
    { w with passed := w.passed ++ missed.map fun e => (e, false) }

def resume (w : World β σ τ φ) : Option (World β σ τ φ) :=
  match w.phase with
  | .paging entries (some got) =>
      let all := entries ++ got
      if got.length < pageCount cap entries ∨ cap.val ≤ all.length then some (w.load f cap all)
      else some { w with phase := .paging all none }
  | .checking (some true) => some { w with phase := .info none }
  | .checking (some false) => some w.toRead
  | .info (some first) =>
      let trimmedPast := w.hub.lastId.any fun last => first.any fun id => last < id
      some (toRead { w with hub := { w.hub with pendingGap := w.hub.pendingGap || trimmedPast } })
  | .reading (some (entries, trimmed)) => some ((w.passTrimmed entries trimmed).readAll f cap throws entries)
  | _ => none

/-- The body of the loop from its top to the first wait. -/
def enter (w : World β σ τ φ) : Option (World β σ τ φ) :=
  match w.phase with
  | .top =>
      if w.hub.lastId.isNone then some { w with phase := .paging [] none }
      else if w.hub.resync then some { w with phase := .checking none }
      else some w.toRead
  | _ => none

def step (w : World β σ τ φ) : Event β → Option (World β σ τ φ)
  | .append e => some { w with log := w.log ++ [e] }
  | .trim n => if w.trimmed + n ≤ w.log.length then some { w with trimmed := w.trimmed + n } else none
  | .subscribe name =>
      if w.listeners.any fun l => l.name = name then none
      else some { w with listeners := w.listeners ++ [⟨name, w.sent.length, []⟩] }
  | .unsubscribe name => some { w with listeners := w.listeners.filter fun l => l.name ≠ name }
  | .ready => w.enter
  | .answer => (w.answer cap).map fun phase => { w with phase := phase }
  | .resume => w.resume f cap throws
  | .fail => some w.caught

end World

end NetWatch.Live.Reader
