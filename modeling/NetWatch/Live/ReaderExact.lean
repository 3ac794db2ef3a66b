import NetWatch.Live.ReaderInvariant

namespace NetWatch.Live.ReaderExact

open Hub Reader ReaderInvariant Lib.Timeline Lib.Runs

variable {β σ τ φ : Type} [LinearOrder τ] {f : Format β σ τ φ} {cap : Capacity} {throws : Nat → Reader.Tick σ → Bool}
  {w : World β σ τ φ}

section Windows

variable {h : State σ τ φ} {accepted : List (Reader.Tick σ)} {cut : τ → Nat → τ}

theorem ring_increasing (hh : Holds f cap h accepted) : h.ring.Pairwise fun a b => f.ts a.snap < f.ts b.snap := by
  rw [hh.ring]
  exact hh.increasing.sublist (latest_suffix _ _).sublist

theorem recent_increasing (hh : Holds f cap h accepted) : h.recent.Pairwise fun a b => a.1 < b.1 := by
  rw [hh.recent]
  refine List.Pairwise.sublist (latest_suffix _ _).sublist ?_
  rw [List.pairwise_map]
  exact hh.increasing

theorem series_filter (hh : Holds f cap h accepted) {newest : Reader.Tick σ} (hn : h.ring.getLast? = some newest)
    (seconds : Nat) :
    h.series f cut seconds = h.ring.filter fun t => cut (f.ts newest.snap) seconds < f.ts t.snap := by
  rw [State.series, hn]
  exact rtakeWhile_later (ring_increasing hh) _

theorem flowsOf_filter (hh : Holds f cap h accepted) {newest : τ × φ} (hn : h.recent.getLast? = some newest)
    (seconds : Nat) : h.flowsOf cut seconds = h.recent.filter fun r => cut newest.1 seconds < r.1 := by
  rw [State.flowsOf, hn]
  exact rtakeWhile_later (recent_increasing hh) _

end Windows

instance (m : β) : Decidable (Compacts f m) :=
  match h : f.decode m with
  | .unparsable => .isTrue ⟨fun hb => (nomatch h.symm.trans hb), fun _ hs => (nomatch h.symm.trans hs)⟩
  | .broken => .isFalse fun hc => hc.1 h
  | .snap s => decidable_of_iff (f.converts s = true)
      ⟨fun hs => ⟨fun hb => (nomatch h.symm.trans hb), fun _ ht => Decoded.snap.inj (h.symm.trans ht) ▸ hs⟩,
        fun hc => hc.2 s h⟩

instance (w : World β σ τ φ) (ev : Event β) : Decidable (Orderly f w ev) :=
  match ev with
  | .append e => inferInstanceAs (Decidable ((∀ x ∈ w.log, x.id < e.id) ∧ zeroId < e.id ∧ Compacts f e.message))
  | .trim _ => .isTrue trivial
  | .subscribe _ => .isTrue trivial
  | .unsubscribe _ => .isTrue trivial
  | .ready => .isTrue trivial
  | .answer => .isTrue trivial
  | .resume => .isTrue trivial
  | .fail => .isTrue trivial

section Ticks

variable {α : Type}

def ticks : Format (Option (CompactTick α)) (CompactTick α) Int Unit where
  decode m := m.elim .unparsable .snap
  ts := CompactTick.ts
  converts _ := true
  far prev s := overGap prev.ts s.ts (max s.intervalMs prev.intervalMs)
  flows _ := ()

@[simp] theorem ticks_decode (t : CompactTick α) : ticks.decode (some t) = .snap t := rfl

@[simp] theorem ticks_ts (t : CompactTick α) : ticks.ts t = t.ts := rfl

@[simp] theorem ticks_converts (t : CompactTick α) : ticks.converts t = true := rfl

@[simp] theorem ticks_far (prev t : CompactTick α) :
    ticks.far prev t = overGap prev.ts t.ts (max t.intervalMs prev.intervalMs) := rfl

def drawn (t : Reader.Tick (CompactTick α)) : CompactTick α := { t.snap with gap := t.gap }

def view (h : State (CompactTick α) Int Unit) : LiveHub α := ⟨h.ring.map drawn, h.pendingGap, h.lastId.isSome⟩

@[simp] theorem view_pendingGap (h : State (CompactTick α) Int Unit) : (view h).pendingGap = h.pendingGap := rfl

@[simp] theorem view_loaded (h : State (CompactTick α) Int Unit) : (view h).loaded = h.lastId.isSome := rfl

end Ticks

/-- What the hub owes its stream and its subscribers when it has read up to `i`.
The entries passed are those of the log from the first backfilled one to `i`, and
each was read or had been trimmed by then. `cut` takes seconds off a time. -/
structure Exact (f : Format β σ τ φ) (cap : Capacity) (cut : τ → Nat → τ) (w : World β σ τ φ) (i : StreamId) : Prop where
  passed : w.passed.map Prod.fst = (w.log.drop w.begun).filter fun e => e.id ≤ i
  once : (w.passed.map Prod.fst).Pairwise fun a b => a.id < b.id
  missed : ∀ e, (e, false) ∈ w.passed → e ∈ w.log.take w.trimmed
  whole : w.block = cap.val ∨ w.begun ≤ w.trimmed
  accepted : w.accepted.map Reader.Tick.snap = taken f none ((w.passed.filter Prod.snd).map fun x => x.1.message)
  loaded : ∃ loaded, w.accepted = loaded ++ w.sent ∧ (∀ x ∈ w.passed.take w.block, x.2 = true) ∧
    loaded.map Reader.Tick.snap = taken f none ((w.passed.take w.block).map fun x => x.1.message)
  ring : w.hub.ring = latest cap.val w.accepted
  increasing : w.hub.ring.Pairwise fun a b => f.ts a.snap < f.ts b.snap
  recent : w.hub.recent = latest recentFlows (w.accepted.map fun t => (f.ts t.snap, f.flows t.snap))
  called : ∀ l ∈ w.listeners, l.got = w.sent.drop l.joined
  series : ∀ seconds newest, w.hub.ring.getLast? = some newest →
    w.hub.series f cut seconds = w.hub.ring.filter fun t => cut (f.ts newest.snap) seconds < f.ts t.snap
  flows : ∀ seconds newest, w.hub.recent.getLast? = some newest →
    w.hub.flowsOf cut seconds = w.hub.recent.filter fun r => cut newest.1 seconds < r.1

/-- In every run in which entries come with growing ids, however the stream is
trimmed and wherever Redis fails, the hub takes up what it has read just once and in
order from its backfill on. -/
theorem read_exactly {evs : List (Event β)} {i : StreamId} (h : Run (World.step f cap throws) (Orderly f) .start evs w)
    (hi : w.hub.lastId = some i) (cut : τ → Nat → τ) : Exact f cap cut w i := by
  have hok := ok_run h
  have hreads := hok.reads i hi
  obtain ⟨before, rest, hplaced⟩ := hreads.placed
  obtain ⟨loaded, haccepted, hsnaps, hread⟩ := hreads.loaded
  exact {
    passed := hplaced.filter_le.symm
    once := by
      rw [← hplaced.filter_le]
      exact (hok.sorted.sublist (List.drop_sublist _ _)).filter _
    missed := hreads.missed
    whole := hreads.whole
    accepted := hreads.accepted
    loaded := ⟨loaded, haccepted, hread, hsnaps⟩
    ring := hreads.holds.ring
    increasing := ring_increasing hreads.holds
    recent := hreads.holds.recent
    called := fun l hl => (hok.listeners l hl).2
    series := fun seconds newest hn => series_filter hreads.holds hn seconds
    flows := fun seconds newest hn => flowsOf_filter hreads.holds hn seconds }

def sampleTick (ts : Int) : CompactTick Unit := ⟨ts, 1000, false, ()⟩

def sampleEntry (id : Nat) (m : Option (CompactTick Unit)) : Entry (Option (CompactTick Unit)) := ⟨toLex (id, 0), m⟩

/-- The first page of a backfill is lost. It is read again, and later entries are
read with one that does not parse and one that is back in time. -/
def sampleEvents : List (Event (Option (CompactTick Unit))) :=
  [.append (sampleEntry 1 (some (sampleTick 1000))), .append (sampleEntry 2 (some (sampleTick 2000))),
   .append (sampleEntry 3 (some (sampleTick 3000))), .ready, .answer, .fail, .ready, .answer, .resume, .subscribe 7,
   .append (sampleEntry 4 none), .append (sampleEntry 5 (some (sampleTick 2500))),
   .append (sampleEntry 6 (some (sampleTick 4000))), .answer, .trim 4, .resume]

theorem read_exactly_sample :
    ∃ w : World (Option (CompactTick Unit)) (CompactTick Unit) Int Unit,
      Run (World.step ticks ⟨2, by decide, by decide⟩ fun _ _ => true) (Orderly ticks) .start sampleEvents w ∧
      w.hub.lastId = some (toLex (6, 0)) ∧ (w.accepted.map fun t => t.snap.ts) = [2000, 3000, 4000] ∧
      (w.sent.map fun t => t.snap.ts) = [4000] ∧ w.warnings = 1 ∧
      Exact ticks ⟨2, by decide, by decide⟩ (fun t s => t - 1000 * s) w (toLex (6, 0)) := by
  have hruns : ((exec (checked (World.step ticks ⟨2, by decide, by decide⟩ fun _ _ => true) (Orderly ticks)) .start
      sampleEvents).map fun w => (w.hub.lastId, w.accepted.map fun t => t.snap.ts, w.sent.map fun t => t.snap.ts,
        w.warnings)) = some (some (toLex (6, 0)), [2000, 3000, 4000], [4000], 1) := by decide
  obtain ⟨w, hw, hend⟩ := Option.map_eq_some_iff.mp hruns
  have hrun := Run.of_checked hw
  simp only [Prod.mk.injEq] at hend
  obtain ⟨hlast, haccepted, hsent, hwarned⟩ := hend
  exact ⟨w, hrun, hlast, haccepted, hsent, hwarned, read_exactly hrun hlast _⟩

end NetWatch.Live.ReaderExact
