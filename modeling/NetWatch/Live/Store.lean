import NetWatch.Live.Hub

namespace NetWatch.Live.Store

open Hub Lib.Timeline

variable {α : Type}

@[irreducible] def capacity : Nat := 3600

theorem capacity_pos : 0 < capacity := by simp [capacity]

inductive LiveStatus
  | connecting
  | live
  | reconnecting
  deriving DecidableEq

/-- The live buffer of a browser tab. `pending` has the ticks that arrive while a
series request is in flight, and `es` tells whether there is an event source. -/
structure LiveStore (α : Type) where
  ticks : List (CompactTick α)
  status : LiveStatus
  error : Option String
  pending : Option (List (CompactTick α))
  es : Bool

namespace LiveStore

def new : LiveStore α := ⟨[], .connecting, none, none, false⟩

def append (s : LiveStore α) (incoming : List (CompactTick α)) : LiveStore α :=
  { s with ticks := latest capacity (extend CompactTick.ts s.ticks incoming) }

def mergeHead (kept : List (CompactTick α)) (first : CompactTick α) : CompactTick α :=
  if kept.getLast?.any fun prev => overGap prev.ts first.ts first.intervalMs then { first with gap := true } else first

def merge (s : LiveStore α) (series pending : List (CompactTick α)) : LiveStore α :=
  match series with
  | [] => s.append pending
  | first :: rest =>
      let kept := s.ticks.filter fun t => t.ts < first.ts
      append { s with ticks := kept ++ mergeHead kept first :: rest } pending

/-- The flag tells whether the series is requested. -/
def onHello (s : LiveStore α) (latestTs : Option Int) : LiveStore α × Bool :=
  let s := { s with status := .live, error := none }
  if latestTs ≠ none ∧ latestTs ≠ s.ticks.getLast?.map CompactTick.ts then ({ s with pending := some [] }, true)
  else (s, false)

def onTick (s : LiveStore α) (tick : CompactTick α) : LiveStore α :=
  match s.pending with
  | some pending => { s with pending := some (pending ++ [tick]) }
  | none => s.append [tick]

/-- The event source retries by itself unless it is closed. -/
def onError (s : LiveStore α) (closed : Bool) : LiveStore α :=
  { s with status := .reconnecting, es := s.es && !closed }

def seriesLoaded (s : LiveStore α) (series : List (CompactTick α)) : LiveStore α :=
  merge { s with pending := none } series (s.pending.getD [])

def seriesFailed (s : LiveStore α) (message : String) : LiveStore α :=
  { append { s with pending := none } (s.pending.getD []) with error := some message }

def openStream (s : LiveStore α) : LiveStore α := { s with es := true }

end LiveStore

structure InOrder (s : LiveStore α) : Prop where
  increasing : Increasing CompactTick.ts s.ticks
  short : s.ticks.length ≤ capacity

section Buffer

variable {s : LiveStore α}

theorem append_inOrder (h : Increasing CompactTick.ts s.ticks) (incoming : List (CompactTick α)) :
    InOrder (s.append incoming) where
  increasing := increasing_latest capacity (increasing_extend h)
  short := length_latest_le capacity (extend CompactTick.ts s.ticks incoming)

theorem mem_append_ticks {incoming : List (CompactTick α)} {t : CompactTick α} (h : t ∈ (s.append incoming).ticks) :
    t ∈ s.ticks ∨ t ∈ incoming :=
  mem_extend ((latest_suffix _ _).mem h)

theorem mergeHead_ts (kept : List (CompactTick α)) (first : CompactTick α) : (LiveStore.mergeHead kept first).ts = first.ts := by
  rw [LiveStore.mergeHead]
  split_ifs <;> rfl

theorem seriesLoaded_pending (series : List (CompactTick α)) : (s.seriesLoaded series).pending = none := by
  cases series with
  | nil => rfl
  | cons first rest => rfl

end Buffer

end NetWatch.Live.Store
