import Mathlib.Data.List.DropRight
import NetWatch.Lib.Timeline

namespace NetWatch.Live.Hub

open Lib.Timeline

variable {α : Type}

/-- A tick for the live charts. What they draw of it is the body. -/
structure CompactTick (α : Type) where
  ts : Int
  intervalMs : Nat
  gap : Bool
  body : α

/-- More than 2.5 intervals lie between two times. -/
def overGap (before after : Int) (intervalMs : Nat) : Bool := 5 * (intervalMs : Int) < 2 * (after - before)

/-- The setting `LIVE_BACKFILL`. -/
structure Capacity where
  val : Nat
  pos : 0 < val
  le : val ≤ 86400

structure LiveHub (α : Type) where
  ring : List (CompactTick α)
  pendingGap : Bool
  loaded : Bool

def LiveHub.new : LiveHub α := ⟨[], false, false⟩

/-- Takes up a parsed stream entry, unless its time does not go forward. The
accepted tick goes to the subscribers. -/
def LiveHub.ingest (capacity : Capacity) (hub : LiveHub α) (entry : CompactTick α) :
    LiveHub α × Option (CompactTick α) :=
  if hub.ring.getLast?.any fun prev => entry.ts ≤ prev.ts then (hub, none)
  else
    let far := hub.ring.getLast?.any fun prev => overGap prev.ts entry.ts (max entry.intervalMs prev.intervalMs)
    let tick := { entry with gap := hub.pendingGap || far }
    ({ hub with ring := latest capacity.val (hub.ring ++ [tick]), pendingGap := false }, some tick)

def LiveHub.ingestAll (capacity : Capacity) (hub : LiveHub α) : List (CompactTick α) → LiveHub α × List (CompactTick α)
  | [] => (hub, [])
  | entry :: entries =>
      let one := hub.ingest capacity entry
      let rest := LiveHub.ingestAll capacity one.1 entries
      (rest.1, one.2.toList ++ rest.2)

def LiveHub.backfill (capacity : Capacity) (hub : LiveHub α) (entries : List (CompactTick α)) :
    LiveHub α × List (CompactTick α) :=
  let all := LiveHub.ingestAll capacity { hub with ring := [] } entries
  ({ all.1 with loaded := true }, all.2)

def LiveHub.series (hub : LiveHub α) (seconds : Nat) : List (CompactTick α) :=
  match hub.ring.getLast? with
  | none => []
  | some newest => hub.ring.rtakeWhile fun t => newest.ts - seconds * 1000 < t.ts

def LiveHub.latestTs (hub : LiveHub α) : Option Int := hub.ring.getLast?.map CompactTick.ts

structure Keeps (capacity : Capacity) (hub : LiveHub α) (accepted : List (CompactTick α)) : Prop where
  increasing : Increasing CompactTick.ts accepted
  ring : hub.ring = latest capacity.val accepted

section Ingest

variable {capacity : Capacity} {hub : LiveHub α} {accepted : List (CompactTick α)}

theorem Keeps.newest (h : Keeps capacity hub accepted) : hub.ring.getLast? = accepted.getLast? := by
  rw [h.ring, getLast?_latest capacity.pos]

theorem Keeps.latestTs (h : Keeps capacity hub accepted) : hub.latestTs = accepted.getLast?.map CompactTick.ts := by
  rw [LiveHub.latestTs, h.newest]

theorem ingest_keeps (h : Keeps capacity hub accepted) (entry : CompactTick α) :
    Keeps capacity (hub.ingest capacity entry).1 (accepted ++ (hub.ingest capacity entry).2.toList) ∧
      ∀ t, (hub.ingest capacity entry).2 = some t → ∀ x ∈ accepted, x.ts < t.ts := by
  by_cases hold : hub.ring.getLast?.any fun prev => decide (entry.ts ≤ prev.ts)
  · simp only [LiveHub.ingest, if_pos hold]
    exact ⟨by simpa using h, nofun⟩
  · simp only [LiveHub.ingest, if_neg hold]
    have hnewer : ∀ x ∈ accepted, x.ts < entry.ts := by
      intro x hx
      rw [h.newest] at hold
      cases hz : accepted.getLast? with
      | none => rw [List.getLast?_eq_none_iff.mp hz] at hx; cases hx
      | some z =>
          have hlt : z.ts < entry.ts := by simpa [hz] using hold
          exact lt_of_le_of_lt (le_last h.increasing hz hx) hlt
    refine ⟨⟨increasing_snoc h.increasing hnewer, ?_⟩, ?_⟩
    · simp only [h.ring, latest_append_latest, Option.toList_some]
    · intro t ht
      obtain rfl := Option.some.inj ht
      exact hnewer

theorem ingest_loaded (entry : CompactTick α) : (hub.ingest capacity entry).1.loaded = hub.loaded := by
  rw [LiveHub.ingest]
  split_ifs
  · rfl
  · rfl

theorem ingestAll_keeps (h : Keeps capacity hub accepted) (entries : List (CompactTick α)) :
    Keeps capacity (hub.ingestAll capacity entries).1 (accepted ++ (hub.ingestAll capacity entries).2) := by
  induction entries generalizing hub accepted with
  | nil => simpa [LiveHub.ingestAll] using h
  | cons entry entries ih =>
      have hrest := ih (ingest_keeps h entry).1
      rwa [List.append_assoc] at hrest

theorem backfill_keeps (hub : LiveHub α) (entries : List (CompactTick α)) :
    Keeps capacity (hub.backfill capacity entries).1 (hub.backfill capacity entries).2 := by
  have hempty : Keeps capacity ({ hub with ring := [] } : LiveHub α) [] := ⟨List.Pairwise.nil, by simp [latest]⟩
  have hall := ingestAll_keeps hempty entries
  exact ⟨hall.increasing, hall.ring⟩

theorem series_suffix (h : Keeps capacity hub accepted) (seconds : Nat) : hub.series seconds <:+ accepted := by
  rw [LiveHub.series]
  split
  · exact List.nil_suffix
  · exact (List.rtakeWhile_suffix _ _).trans (h.ring ▸ latest_suffix _ _)

theorem series_newest (h : Keeps capacity hub accepted) {seconds : Nat} (hs : 0 < seconds) :
    (hub.series seconds).getLast? = accepted.getLast? := by
  rw [← h.newest]
  rw [LiveHub.series]
  split
  · rename_i hnone
    rw [hnone]
    rfl
  · rename_i newest hnewest
    obtain ⟨older, hring⟩ := List.getLast?_eq_some_iff.mp hnewest
    have hin : newest.ts - seconds * 1000 < newest.ts := by omega
    rw [hring, List.rtakeWhile_concat_pos _ _ _ (by simpa using hin)]
    simp

end Ingest

end NetWatch.Live.Hub
