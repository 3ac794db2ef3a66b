import NetWatch.Live.LiveFlows
import NetWatch.Live.ReaderExact

namespace NetWatch.Live.FlowsRoute

open Hub Reader ReaderInvariant LiveFlows Lib Lib.JsText Lib.JsValue Lib.Runs Lib.Timeline
open Charts.Sankey (FlowAgg)
open GeoIp.Asn (Geo)

abbrev Table := Option (Units → Option Geo)

def enrich (table : Table) (rows : List FlowAgg) : List FlowAgg :=
  match table with
  | none => rows
  | some lookup => rows.map fun r => { r with geo := (lookup r.ip).or r.geo }

structure LiveFlowsResponse (τ : Type) where
  ts : Option τ
  ticks : ℕ
  flows : List FlowAgg

structure FlowsCache (τ : Type) where
  ts : τ
  seconds : ℕ
  res : LiveFlowsResponse τ

/-- The hub, the table of addresses and the answer that is kept. All tables so far are
history. -/
structure Server (β σ τ : Type) where
  world : World β σ τ (List LiveFlow)
  table : Table
  flowsCache : Option (FlowsCache τ)
  tables : List Table

inductive Happening (β : Type)
  | hub (ev : Event β)
  | reload (table : Table)
  | request (raw : Option Units)

def parseSeconds (raw : Option Units) : Option ℕ :=
  (digits? 10 (raw.getD (units "10"))).filter fun n => 1 ≤ n ∧ n ≤ recentFlows

def respond {τ : Type} (table : Table) (recent : List (τ × List LiveFlow)) : LiveFlowsResponse τ :=
  match recent.getLast? with
  | none => ⟨none, 0, []⟩
  | some newest => ⟨some newest.1, recent.length, enrich table (aggregateFlows (recent.map Prod.snd))⟩

namespace Server

variable {β σ τ : Type} [LinearOrder τ] (f : Format β σ τ (List LiveFlow)) (cap : Capacity) (throws : ℕ → Reader.Tick σ → Bool)
  (cut : τ → ℕ → τ)

def start (table : Table) : Server β σ τ := ⟨.start, table, none, [table]⟩

def liveFlows (s : Server β σ τ) (seconds : ℕ) : Server β σ τ × LiveFlowsResponse τ :=
  let recent := s.world.hub.flowsOf cut seconds
  match recent.getLast? with
  | none => (s, ⟨none, 0, []⟩)
  | some newest =>
      match s.flowsCache.filter fun c => c.ts = newest.1 ∧ c.seconds = seconds with
      | some c => (s, c.res)
      | none =>
          let res := respond s.table recent
          ({ s with flowsCache := some ⟨newest.1, seconds, res⟩ }, res)

def step (s : Server β σ τ) : Happening β → Option (Server β σ τ)
  | .hub ev => (s.world.step f cap throws ev).map fun w => { s with world := w }
  | .reload table => some { s with table := table, tables := s.tables ++ [table] }
  | .request raw => some ((parseSeconds raw).elim s fun seconds => (s.liveFlows cut seconds).1)

end Server

variable {β σ τ : Type} [LinearOrder τ] {f : Format β σ τ (List LiveFlow)} {cap : Capacity} {throws : ℕ → Reader.Tick σ → Bool}
  {cut : τ → ℕ → τ}

section HubStep

variable {w w' : World β σ τ (List LiveFlow)}

theorem readAll_grows (es : List (Entry β)) (hid : w.hub.lastId ≠ none) :
    (w.readAll f cap throws es).hub.lastId ≠ none ∧ w.accepted <+: (w.readAll f cap throws es).accepted := by
  induction es generalizing w with
  | nil => exact ⟨hid, List.prefix_rfl⟩
  | cons e es ih =>
      rw [World.readAll]
      dsimp only
      split
      · exact ih (Option.some_ne_none e.id)
      · exact ⟨Option.some_ne_none e.id, List.prefix_rfl⟩
      · rename_i t _
        have hrest := ih (w := World.notify throws
          { w with
            hub := State.push f cap { w.hub with lastId := some e.id } t
            passed := w.passed ++ [(e, true)]
            accepted := w.accepted ++ [t] } t) (Option.some_ne_none e.id)
        exact ⟨hrest.1, (List.prefix_append w.accepted [t]).trans hrest.2⟩

theorem load_known (h : Ok f cap w) {entries older newer : List (Entry β)} (hlog : w.log = older ++ entries.reverse ++ newer) :
    (w.load f cap entries).hub.lastId ≠ none := by
  have hempty : Holds f cap { w.hub with ring := [], recent := [] } [] :=
    ⟨by simp [latest], by simp [latest], .nil, by simp⟩
  have hcompacts : ∀ m ∈ entries.reverse.map Entry.message, Compacts f m := by
    intro m hm
    obtain ⟨e, he, rfl⟩ := List.mem_map.mp hm
    refine h.compacts e ?_
    rw [hlog]
    exact List.mem_append_left _ (List.mem_append_right _ he)
  obtain ⟨hub, ts, hall, -, -⟩ := hempty.ingestAll hcompacts
  rw [World.load, hall]
  exact Option.some_ne_none _

theorem hub_step {ev : Event β} (h : Ok f cap w) (hs : w.step f cap throws ev = some w') :
    w'.hub.recent = w.hub.recent ∧ w'.hub.lastId = w.hub.lastId ∧ w'.accepted = w.accepted ∨
      w.hub.lastId ≠ none ∧ w'.hub.lastId ≠ none ∧ w.accepted <+: w'.accepted ∨
      w.hub.lastId = none ∧ w'.hub.lastId ≠ none := by
  have hphase := h.phase
  cases ev with
  | append e =>
      cases hs
      exact .inl ⟨rfl, rfl, rfl⟩
  | trim n =>
      rw [World.step] at hs
      split_ifs at hs
      cases hs
      exact .inl ⟨rfl, rfl, rfl⟩
  | subscribe name =>
      rw [World.step] at hs
      split_ifs at hs
      cases hs
      exact .inl ⟨rfl, rfl, rfl⟩
  | unsubscribe name =>
      cases hs
      exact .inl ⟨rfl, rfl, rfl⟩
  | ready =>
      rw [World.step, World.enter] at hs
      split at hs
      · split_ifs at hs <;> cases hs <;> exact .inl ⟨rfl, rfl, rfl⟩
      · cases hs
  | answer =>
      obtain ⟨ph, -, rfl⟩ := Option.map_eq_some_iff.mp hs
      exact .inl ⟨rfl, rfl, rfl⟩
  | fail =>
      cases hs
      exact .inl ⟨rfl, rfl, rfl⟩
  | resume =>
      rw [World.step, World.resume] at hs
      split at hs
      case h_1 entries got hph =>
        rw [hph] at hphase
        obtain ⟨hid, -, -, older, newer, hlog, -⟩ := hphase
        dsimp only at hs
        split at hs
        · cases hs
          exact .inr (.inr ⟨hid, load_known h hlog⟩)
        · cases hs
          exact .inl ⟨rfl, rfl, rfl⟩
      case h_2 =>
        cases hs
        exact .inl ⟨rfl, rfl, rfl⟩
      case h_3 =>
        cases hs
        exact .inl ⟨rfl, rfl, rfl⟩
      case h_4 =>
        cases hs
        exact .inl ⟨rfl, rfl, rfl⟩
      case h_5 entries trimmed hph =>
        rw [hph] at hphase
        obtain ⟨-, i, hi, -⟩ := hphase
        cases hs
        have hid : w.hub.lastId ≠ none := by
          rw [hi]
          exact Option.some_ne_none i
        have hframe : (w.passTrimmed entries trimmed).hub = w.hub ∧ (w.passTrimmed entries trimmed).accepted = w.accepted := by
          rw [World.passTrimmed]
          split <;> exact ⟨rfl, rfl⟩
        have hread : (World.readAll f cap throws (w.passTrimmed entries trimmed) entries).hub.lastId ≠ none ∧
            (w.passTrimmed entries trimmed).accepted <+: _ := readAll_grows entries (by rwa [hframe.1])
        rw [hframe.2] at hread
        exact .inr (.inl ⟨hid, hread⟩)
      case h_6 => cases hs

end HubStep

section Coherence

def recentOf (f : Format β σ τ (List LiveFlow)) (accepted : List (Reader.Tick σ)) : List (τ × List LiveFlow) :=
  latest recentFlows (accepted.map fun t => (f.ts t.snap, f.flows t.snap))

def windowOf (cut : τ → ℕ → τ) (recent : List (τ × List LiveFlow)) (seconds : ℕ) : List (τ × List LiveFlow) :=
  match recent.getLast? with
  | none => []
  | some newest => recent.rtakeWhile fun r => cut newest.1 seconds < r.1

theorem flowsOf_eq (h : State σ τ (List LiveFlow)) (seconds : ℕ) : h.flowsOf cut seconds = windowOf cut h.recent seconds := by
  rw [State.flowsOf, windowOf]
  cases h.recent.getLast? <;> rfl

/-- The kept answer is one for some of the ticks, from the first one on. -/
structure Coherent (f : Format β σ τ (List LiveFlow)) (cap : Capacity) (cut : τ → ℕ → τ) (s : Server β σ τ) : Prop where
  ok : Ok f cap s.world
  quiet : s.world.hub.lastId = none → s.world.hub.recent = []
  table : s.table ∈ s.tables
  cached : ∀ c, s.flowsCache = some c → s.world.hub.lastId ≠ none ∧ ∃ old, old <+: s.world.accepted ∧
    (old.getLast?.map fun t => f.ts t.snap) = some c.ts ∧
    ∃ table ∈ s.tables, c.res = respond table (windowOf cut (recentOf f old) c.seconds)

theorem coherent_start (table : Table) : Coherent f cap cut (Server.start table : Server β σ τ) where
  ok := ok_start
  quiet _ := rfl
  table := List.mem_cons_self
  cached _ hc := by cases hc

variable {s : Server β σ τ}

theorem coherent_hub (h : Coherent f cap cut s) {ev : Event β} {w : World β σ τ (List LiveFlow)} (hg : Orderly f s.world ev)
    (hs : s.world.step f cap throws ev = some w) : Coherent f cap cut { s with world := w } := by
  refine ⟨ok_step h.ok hg hs, fun hnone => ?_, h.table, fun c hc => ?_⟩
  · obtain ⟨hrecent, hid, -⟩ | ⟨-, hid, -⟩ | ⟨-, hid⟩ := hub_step h.ok hs
    · exact hrecent.trans (h.quiet (hid.symm.trans hnone))
    · exact absurd hnone hid
    · exact absurd hnone hid
  · obtain ⟨hid, old, hold, hlast, hres⟩ := h.cached c hc
    obtain ⟨-, hsame, haccepted⟩ | ⟨-, hid', hgrows⟩ | ⟨hnone, -⟩ := hub_step h.ok hs
    · exact ⟨by rwa [hsame], old, by rwa [haccepted], hlast, hres⟩
    · exact ⟨hid', old, hold.trans hgrows, hlast, hres⟩
    · exact absurd hnone hid

theorem coherent_reload (h : Coherent f cap cut s) (table : Table) :
    Coherent f cap cut { s with table := table, tables := s.tables ++ [table] } where
  ok := h.ok
  quiet := h.quiet
  table := List.mem_append_right _ List.mem_cons_self
  cached c hc := by
    obtain ⟨hid, old, hold, hlast, t, ht, hres⟩ := h.cached c hc
    exact ⟨hid, old, hold, hlast, t, List.mem_append_left _ ht, hres⟩

theorem newest_window {recent : List (τ × List LiveFlow)} {seconds : ℕ} {newest : τ × List LiveFlow}
    (h : (windowOf cut recent seconds).getLast? = some newest) : recent.getLast? = some newest := by
  rw [windowOf] at h
  cases hlast : recent.getLast? with
  | none =>
      rw [hlast] at h
      cases h
  | some r =>
      rw [hlast] at h
      obtain ⟨pre, hpre⟩ := List.rtakeWhile_suffix (fun x : τ × List LiveFlow => decide (cut r.1 seconds < x.1)) recent
      rw [← hlast, ← hpre, List.getLast?_append, h]
      rfl

theorem prefix_newest {old accepted : List (Reader.Tick σ)} {ts : τ} (hincreasing : accepted.Pairwise fun a b => f.ts a.snap < f.ts b.snap)
    (hold : old <+: accepted) (hlast : (old.getLast?.map fun t => f.ts t.snap) = some ts)
    (hnewest : (accepted.getLast?.map fun t => f.ts t.snap) = some ts) : old = accepted := by
  obtain ⟨more, rfl⟩ := hold
  obtain rfl | ⟨init, t, rfl⟩ := List.eq_nil_or_concat' more
  · exact (List.append_nil old).symm
  · obtain ⟨u, hu, rfl⟩ := Option.map_eq_some_iff.mp hlast
    rw [← List.append_assoc, List.getLast?_concat] at hnewest
    have hlt := (List.pairwise_append.mp hincreasing).2.2 u (List.mem_of_getLast? hu) t
      (List.mem_append_right _ List.mem_cons_self)
    exact absurd (Option.some.inj hnewest) (ne_of_gt hlt)

/-- A request keeps the server coherent and is answered from the flows of the moment,
with a table of addresses that was in use. -/
theorem coherent_request (h : Coherent f cap cut s) (seconds : ℕ) :
    Coherent f cap cut (s.liveFlows cut seconds).1 ∧
      ∃ table ∈ s.tables, (s.liveFlows cut seconds).2 = respond table (s.world.hub.flowsOf cut seconds) := by
  rw [Server.liveFlows]
  dsimp only
  cases hnewest : (s.world.hub.flowsOf cut seconds).getLast? with
  | none =>
      refine ⟨h, s.table, h.table, ?_⟩
      rw [respond, hnewest]
  | some newest =>
      have hrecent : s.world.hub.recent.getLast? = some newest := by
        rw [flowsOf_eq] at hnewest
        exact newest_window hnewest
      obtain ⟨i, hi⟩ : ∃ i, s.world.hub.lastId = some i := by
        cases hid : s.world.hub.lastId with
        | some i => exact ⟨i, rfl⟩
        | none =>
            rw [h.quiet hid] at hrecent
            cases hrecent
      have hholds := (h.ok.reads i hi).holds
      have hwindow : s.world.hub.flowsOf cut seconds = windowOf cut (recentOf f s.world.accepted) seconds := by
        rw [flowsOf_eq, hholds.recent, recentOf]
      have hts : (s.world.accepted.getLast?.map fun t => f.ts t.snap) = some newest.1 := by
        rw [hholds.recent, getLast?_latest (by decide), List.getLast?_map] at hrecent
        obtain ⟨t, ht, hpair⟩ := Option.map_eq_some_iff.mp hrecent
        rw [ht, Option.map_some, ← hpair]
      dsimp only
      split
      · rename_i c hhit
        obtain ⟨hcache, hmatch⟩ := Option.filter_eq_some_iff.mp hhit
        obtain ⟨hctime, rfl⟩ := of_decide_eq_true hmatch
        obtain ⟨-, old, hold, hlast, table, htable, hres⟩ := h.cached c hcache
        rw [hctime] at hlast
        rw [prefix_newest hholds.increasing hold hlast hts, ← hwindow] at hres
        exact ⟨h, table, htable, hres⟩
      · refine ⟨⟨h.ok, h.quiet, h.table, fun c hc => ?_⟩, s.table, h.table, rfl⟩
        cases hc
        refine ⟨by rw [hi]; exact Option.some_ne_none i, s.world.accepted, List.prefix_rfl, hts, s.table, h.table, ?_⟩
        rw [← hwindow]

def Supplied (f : Format β σ τ (List LiveFlow)) (s : Server β σ τ) : Happening β → Prop
  | .hub ev => Orderly f s.world ev
  | .reload _ => True
  | .request _ => True

theorem coherent_run {table : Table} {es : List (Happening β)}
    (hrun : Run (Server.step f cap throws cut) (Supplied f) (.start table) es s) : Coherent f cap cut s := by
  refine hrun.invariant (coherent_start table) fun s e s' h hg hs => ?_
  cases e with
  | hub ev =>
      obtain ⟨w, hw, rfl⟩ := Option.map_eq_some_iff.mp hs
      exact coherent_hub h hg hw
  | reload t =>
      cases hs
      exact coherent_reload h t
  | request raw =>
      cases hs
      cases parseSeconds raw with
      | none => exact h
      | some seconds => exact (coherent_request h seconds).1

/-- However ticks, failures, reloads and requests interleave, the kept answer is only
given while it is the one that would be computed anew. -/
theorem flows_cache_exact {table : Table} {es : List (Happening β)}
    (hrun : Run (Server.step f cap throws cut) (Supplied f) (.start table) es s) (seconds : ℕ) :
    ∃ t ∈ s.tables, (s.liveFlows cut seconds).2 = respond t (s.world.hub.flowsOf cut seconds) :=
  (coherent_request (coherent_run hrun) seconds).2

instance (s : Server β σ τ) (e : Happening β) : Decidable (Supplied f s e) :=
  match e with
  | .hub ev => inferInstanceAs (Decidable (Orderly f s.world ev))
  | .reload _ => .isTrue trivial
  | .request _ => .isTrue trivial

def plainFormat : Format (ℤ × List LiveFlow) (ℤ × List LiveFlow) ℤ (List LiveFlow) :=
  ⟨.snap, Prod.fst, fun _ => true, fun _ _ => false, Prod.snd⟩

def msBefore (t : ℤ) (seconds : ℕ) : ℤ := t - seconds * 1000

def smallCap : Capacity := ⟨600, by decide, by decide⟩

/-- A tick, a request for it, and a new table of addresses. -/
def happenings : List (Happening (ℤ × List LiveFlow)) :=
  [.hub (.append ⟨toLex (1, 0), (1000, [oneFlow])⟩), .hub .ready, .hub .answer, .hub .resume, .request none,
    .reload (some fun _ => none)]

theorem happenings_run : (exec (checked (Server.step plainFormat smallCap (fun _ _ => false) msBefore) (Supplied plainFormat))
    (.start none) happenings).isSome = true := by decide +kernel

def served : Server (ℤ × List LiveFlow) (ℤ × List LiveFlow) ℤ :=
  (exec (checked (Server.step plainFormat smallCap (fun _ _ => false) msBefore) (Supplied plainFormat))
    (.start none) happenings).get happenings_run

theorem flows_cache_exact_sample : (served.flowsCache.map FlowsCache.seconds) = some 10 ∧
    ∃ t ∈ served.tables, (served.liveFlows msBefore 10).2 = respond t (served.world.hub.flowsOf msBefore 10) :=
  ⟨by decide +kernel, flows_cache_exact (Run.of_checked (Option.some_get happenings_run).symm) 10⟩

end Coherence

end NetWatch.Live.FlowsRoute
