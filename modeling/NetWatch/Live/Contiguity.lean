import NetWatch.Live.Deliver
import NetWatch.Live.Series

namespace NetWatch.Live.Contiguity

open Hub Store Link Invariant Deliver Series Lib.Timeline Lib.Runs

variable {α : Type}

theorem step_sound {cap : Capacity} {s s' : Session α} {e : Event α} (hs : Sound cap s) (h : s.step cap e = some s') :
    Sound cap s' := by
  cases e with
  | backfill entries =>
      simp only [Session.step, Option.ite_none_left_eq_some, Bool.not_eq_true, Option.some.injEq] at h
      obtain ⟨hload, rfl⟩ := h
      exact backfill_sound hs hload entries
  | trimmed =>
      simp only [Session.step, Option.ite_none_right_eq_some, Option.some.injEq] at h
      obtain ⟨-, rfl⟩ := h
      exact frame_sound hs ⟨hs.hub.increasing, hs.hub.ring⟩ hs.empty rfl rfl (.inl rfl) (.inl rfl)
  | read entry =>
      simp only [Session.step, Option.ite_none_right_eq_some, Option.some.injEq] at h
      obtain ⟨hload, rfl⟩ := h
      exact read_sound hs hload entry
  | openStream =>
      simp only [Session.step, Option.ite_none_left_eq_some, Option.some.injEq] at h
      obtain ⟨-, rfl⟩ := h
      exact frame_sound hs hs.hub hs.empty rfl rfl (.inl rfl) (.inl rfl)
  | connect =>
      simp only [Session.step, Option.ite_none_right_eq_some, Option.some.injEq] at h
      obtain ⟨-, rfl⟩ := h
      exact connect_sound hs
  | deliver =>
      simp only [Session.step] at h
      split at h
      · rename_i latestTs rest hwire
        obtain rfl := Option.some.inj h
        exact hello_sound hs (hs.wire _ hwire)
      · rename_i t rest hwire
        obtain rfl := Option.some.inj h
        exact tick_sound hs (hs.wire _ hwire)
      · cases h
  | disconnect closed =>
      simp only [Session.step, Option.ite_none_right_eq_some, Option.some.injEq] at h
      obtain ⟨-, rfl⟩ := h
      refine frame_sound hs hs.hub hs.empty rfl rfl (.inr rfl) ?_
      split_ifs
      · exact .inr rfl
      · exact .inl rfl
  | serve =>
      simp only [Session.step] at h
      split at h
      · rename_i hreq
        obtain rfl := Option.some.inj h
        exact serve_sound hs hreq
      · cases h
  | respond =>
      simp only [Session.step] at h
      split at h
      · rename_i series hreq
        obtain rfl := Option.some.inj h
        exact respond_sound hs hreq
      · cases h
  | fail message =>
      simp only [Session.step] at h
      split at h
      · rename_i answer hreq
        obtain rfl := Option.some.inj h
        exact fail_sound hs hreq message
      · cases h
  | close =>
      obtain rfl := Option.some.inj h
      exact ⟨hs.hub, hs.empty, ⟨List.Pairwise.nil, Nat.zero_le _⟩, nofun, hs.delivered, nofun, fun _ => rfl, nofun, nofun⟩

theorem run_sound {cap : Capacity} {es : List (Event α)} {s : Session α}
    (h : Run (Session.step cap) Free .start es s) : Sound cap s :=
  h.invariant (start_sound cap) fun _ _ _ hs _ ht => step_sound hs ht

/-- After every event the buffer is in order and no longer than its capacity, and
after a load it is a copy of the ticks of the hub, up to the newest one in the
answer or delivered, until the stream is disconnected or says hello. -/
theorem live_copy_contiguous {cap : Capacity} {es : List (Event α)} {s : Session α}
    (h : Run (Session.step cap) Free .start es s) :
    Increasing CompactTick.ts s.store.ticks ∧ s.store.ticks.length ≤ 3600 ∧
      ∀ first newest, s.loaded = some (first, newest) → CopyUpTo s first (upTo newest s.delivered) := by
  have hs := run_sound h
  refine ⟨hs.order.increasing, ?_, ?_⟩
  · have hshort := hs.order.short
    rwa [capacity] at hshort
  · intro first newest hloaded
    obtain ⟨kept, mark, hkept, hticks⟩ := (hs.copied first newest hloaded).2.copy
    refine ⟨mark, ?_⟩
    rw [hticks]
    apply filter_latest hkept
    intro t ht
    obtain ⟨u, hu, htu⟩ := mem_markHead ht
    rw [htu]
    exact (mem_span.mp hu).2.1

def sampleEntry (ts : Int) : CompactTick Unit := ⟨ts, 1000, false, ()⟩

def sampleCapacity : Capacity := ⟨900, by decide, by decide⟩

/-- The answer has a tick that is still on the wire. -/
def sampleEvents : List (Event Unit) :=
  [.backfill [sampleEntry 1000], .openStream, .connect, .deliver, .read (sampleEntry 2000), .read (sampleEntry 3000),
    .deliver, .serve, .respond]

theorem sampleEvents_run : (exec (Session.step sampleCapacity) .start sampleEvents).isSome = true := by decide +kernel

def sampleSession : Session Unit := (exec (Session.step sampleCapacity) .start sampleEvents).get sampleEvents_run

theorem live_copy_contiguous_sample : sampleSession.loaded.isSome = true ∧ ∀ first newest,
    sampleSession.loaded = some (first, newest) → CopyUpTo sampleSession first (upTo newest sampleSession.delivered) :=
  ⟨by decide +kernel, (live_copy_contiguous (Run.of_exec (Option.some_get sampleEvents_run).symm)).2.2⟩

def CopiesDelivered (cap : Capacity) : Prop :=
  ∀ {es : List (Event Unit)} {s : Session Unit}, Run (Session.step cap) Free .start es s →
    ∀ first newest delivered, s.loaded = some (first, newest) → s.delivered = some delivered →
      CopyUpTo s first delivered

theorem answer_ahead : ¬ CopiesDelivered sampleCapacity := by
  intro h
  have hrun : Run (Session.step sampleCapacity) Free .start sampleEvents sampleSession :=
    Run.of_exec (Option.some_get sampleEvents_run).symm
  have hloaded : sampleSession.loaded.map (fun l => (l.1.ts, l.2)) = some (1000, 3000) := by decide +kernel
  obtain ⟨⟨first, newest⟩, hfirst, hts⟩ := Option.map_eq_some_iff.mp hloaded
  obtain ⟨mark, hcopy⟩ := h hrun first newest 2000 hfirst (by decide +kernel)
  obtain ⟨hone, -⟩ := Prod.mk.inj hts
  rw [hone] at hcopy
  have hlength := congrArg List.length hcopy
  have hshort : ∀ mark, (latest capacity (markHead mark
      (span CompactTick.ts 1000 2000 sampleSession.accepted))).length = 2 := by decide +kernel
  rw [hshort mark] at hlength
  exact absurd hlength (by decide +kernel)

/-- The series is loaded while the stream is down. -/
def downEvents : List (Event Unit) :=
  [.backfill [sampleEntry 1000], .openStream, .connect, .deliver, .disconnect false, .serve, .respond,
    .read (sampleEntry 2000), .connect, .deliver, .read (sampleEntry 3000), .deliver]

/-- From the next hello on, ticks that are delivered wait for another answer. -/
theorem hello_waits : (exec (Session.step sampleCapacity) .start downEvents).map (fun s =>
    (s.delivered, s.accepted.map CompactTick.ts, s.store.ticks.map CompactTick.ts)) =
      some (some 3000, [1000, 2000, 3000], [1000]) := by
  decide +kernel

def narrowCapacity : Capacity := ⟨2, by decide, by decide⟩

/-- The hub has let go of the ticks between those of the tab and those of the answer. -/
def evictedEvents : List (Event Unit) :=
  [.backfill [sampleEntry 1000], .openStream, .connect, .deliver, .serve, .respond, .disconnect false,
    .read (sampleEntry 9000), .read (sampleEntry 10000), .read (sampleEntry 11000), .connect, .deliver, .serve, .respond]

/-- The first tick of the answer gets a mark that it does not have in the hub. -/
theorem answer_marked : (exec (Session.step narrowCapacity) .start evictedEvents).map (fun s =>
    (s.loaded.map fun l => l.1.ts, s.accepted.map fun t => (t.ts, t.gap), s.store.ticks.map fun t => (t.ts, t.gap))) =
      some (some 10000, [(1000, false), (9000, true), (10000, false), (11000, false)],
        [(1000, false), (10000, true), (11000, false)]) := by
  decide +kernel

end NetWatch.Live.Contiguity
