import NetWatch.Collector.Exits

namespace NetWatch.Collector.Retention

open Kernel.Types Procfs Model Ingest Conservation Views Exits Lib.Assoc Lib.Runs

/-- The aggregator with the time of the last tick, the processes it has had records
of and the view of each process that was published last. -/
structure Memory where
  agg : Aggregator
  wall : Int
  seen : List ProcId
  shown : ProcId → Option ProcView

def Memory.start (clkTck : ClkTck) : Memory := ⟨.new clkTck, 0, [], fun _ => none⟩

def Memory.next (s : Memory) (x : Input) (a' : Aggregator) (t : Tick) : Memory where
  agg := a'
  wall := x.clock.wallMs
  seen := s.seen ++ x.flows.map Sample.id
  shown id := (t.procs.find? fun v => viewId v = id).or (s.shown id)

def Memory.step (s : Memory) (x : Input) : Option Memory := (ingest s.agg x).map fun (a', t) => s.next x a' t

def Recent (now : Int) (endedMs : Option Int) : Prop := ∀ e, endedMs = some e → now - e < endedRetainMs

def firstExit (a : Aggregator) (x : Input) (id : ProcId) : Option ExitEvent :=
  (a.pendingExits ++ x.exits).find? fun e => exitId e = id

/-- No process in memory ended a minute ago or more, and neither did one that an
event is about to end. -/
def Prompt (a : Aggregator) (x : Input) : Prop :=
  (∀ id p, a.procs.get? id = some p → Recent x.clock.wallMs p.view.endedMs) ∧
  ∀ id e, ((a.procs.get? id).isSome = true ∨ id ∈ x.flows.map Sample.id) →
    (∀ p, a.procs.get? id = some p → p.view.endedMs = none) → firstExit a x id = some e →
      Recent x.clock.wallMs (some (x.clock.bootToWallMs e.tsNs))

section Ends

variable {a a' : Aggregator} {x : Input} {l : Loop} {id : ProcId} {p q : Proc} {t : Tick}

theorem feed_endedMs {c : Clock} {es : List Entry} (h : feed c (some p) es = some q) : q.view.endedMs = p.view.endedMs := by
  induction es generalizing p with
  | nil =>
      obtain rfl := Option.some.inj h
      rfl
  | cons e es ih => exact ih (p := e.book c (some p)) h

theorem gather_endedMs (hl : gather a x = some l) (hp : l.procs.get? id = some p) :
    p.view.endedMs = (a.procs.get? id).bind fun p₀ => p₀.view.endedMs := by
  obtain ⟨es, -, -, hprocs, -, -⟩ := loop_entries hl
  rw [hprocs id, Dict.get?_mapVals] at hp
  cases ha : a.procs.get? id with
  | some p₀ =>
      rw [ha, Option.map_some] at hp
      exact feed_endedMs (p := p₀.startTick) hp
  | none =>
      rw [ha, Option.map_none] at hp
      cases hes : entriesOf id es with
      | nil => rw [hes] at hp; cases hp
      | cons e es' =>
          rw [hes] at hp
          exact feed_endedMs (p := e.book x.clock none) hp

theorem gather_isSome (hl : gather a x = some l) :
    (l.procs.get? id).isSome = true ↔ (a.procs.get? id).isSome = true ∨ id ∈ x.flows.map Sample.id := by
  obtain ⟨es, hsamples, -, hprocs, -, -⟩ := loop_entries hl
  have hrecords : id ∈ x.flows.map Sample.id ↔ entriesOf id es ≠ [] := by
    rw [← hsamples, List.map_map, List.mem_map, entriesOf, ne_eq, List.filter_eq_nil_iff]
    simp [Entry.id, eq_comm]
  rw [hprocs id, Dict.get?_mapVals, hrecords]
  cases hes : entriesOf id es with
  | nil => simp [feed]
  | cons e es' =>
      obtain ⟨r, hr⟩ := feed_isSome (c := x.clock) ((a.procs.get? id).map fun p => p.startTick) (List.cons_ne_nil e es')
      simp [hr]

/-- What a call makes of an end: one that there is stays, the first event sets it, or
the sweep does. -/
def EndAfter (c : Clock) (first : Option ExitEvent) (endedMs endedMs' : Option Int) : Prop :=
  match endedMs, first with
  | some e, _ => endedMs' = some e
  | none, some f => endedMs' = some (c.bootToWallMs f.tsNs)
  | none, none => endedMs' = none ∨ endedMs' = some c.wallMs

theorem recent_none (now : Int) : Recent now none := nofun

theorem recent_now (now : Int) : Recent now (some now) := by
  intro e he
  obtain rfl := Option.some.inj he
  rw [sub_self]
  decide

theorem recent_after {c : Clock} {first : Option ExitEvent} {endedMs endedMs' : Option Int}
    (h : EndAfter c first endedMs endedMs') : Recent c.wallMs endedMs' ↔ Recent c.wallMs endedMs ∧
      (endedMs = none → ∀ f, first = some f → Recent c.wallMs (some (c.bootToWallMs f.tsNs))) := by
  cases endedMs with
  | some e =>
      obtain rfl : endedMs' = some e := h
      simp
  | none =>
      cases first with
      | some f =>
          obtain rfl : endedMs' = some (c.bootToWallMs f.tsNs) := h
          simp [recent_none]
      | none =>
          have hrecent : Recent c.wallMs endedMs' := by
            rcases h with rfl | rfl
            · exact recent_none _
            · exact recent_now _
          simp [hrecent, recent_none]

theorem settle_endAfter (hp : l.procs.get? id = some p) : ∃ q, (settle a x l).procs.get? id = some q ∧
    EndAfter x.clock (firstExit a x id) p.view.endedMs q.view.endedMs := by
  obtain ⟨r, hr, hmarked⟩ : ∃ r, (markExits x.clock a.pendingExits x.exits l.procs).1.get? id = some r ∧
      r.view.endedMs = p.view.endedMs.or ((firstExit a x id).map fun f => x.clock.bootToWallMs f.tsNs) := by
    rw [markExits_eq, marks_get?, hp, Option.map_some]
    refine ⟨_, rfl, ?_⟩
    rw [firstExit]
    cases hv : p.view.endedMs with
    | some e => simp [hv]
    | none =>
        cases (a.pendingExits ++ x.exits).find? fun e => exitId e = id with
        | none => simp [hv]
        | some f => rfl
  obtain ⟨q, hq, hswept⟩ : ∃ q, (settle a x l).procs.get? id = some q ∧
      (q.view.endedMs = r.view.endedMs ∨ r.view.endedMs = none ∧ q.view.endedMs = some x.clock.wallMs) := by
    simp only [settle, Dict.get?_mapVals]
    split_ifs
    · rw [sweepDead, Dict.get?_mapVals, hr]
      refine ⟨_, rfl, ?_⟩
      simp only [Proc.setRates, sweepOne]
      split_ifs with hskip hdead
      · exact .inl rfl
      · rw [not_or, Bool.not_eq_true, Option.isSome_eq_false_iff, Option.isNone_iff_eq_none] at hskip
        exact .inr ⟨hskip.1, rfl⟩
      · exact .inl rfl
    · rw [hr]
      exact ⟨_, rfl, .inl rfl⟩
  refine ⟨q, hq, ?_⟩
  rw [hmarked] at hswept
  cases hv : p.view.endedMs with
  | some e => simpa [EndAfter, hv] using hswept
  | none =>
      cases hf : firstExit a x id with
      | some f => simpa [EndAfter, hv, hf] using hswept
      | none => simpa [EndAfter, hv, hf] using hswept

theorem settled_recent_iff (hk : Keyed a.procs) {l : Loop} (hl : gather a x = some l) :
    (∀ v ∈ (buildTick x l (settle a x l).procs).procs, Recent x.clock.wallMs v.endedMs) ↔
      ∀ id p, l.procs.get? id = some p → Recent x.clock.wallMs p.view.endedMs ∧
        (p.view.endedMs = none → ∀ f, firstExit a x id = some f →
          Recent x.clock.wallMs (some (x.clock.bootToWallMs f.tsNs))) := by
  obtain ⟨es, hpass⟩ := gather_pass hl
  constructor
  · intro hall id p hp
    obtain ⟨q, hq, hend⟩ := settle_endAfter (a := a) (x := x) hp
    have hid := pass_keyed_mid hpass hk _ q hq
    exact (recent_after hend).mp (hall q.view ((mem_tick_procs hpass hk q.view).mpr ⟨q, hid ▸ hq, rfl⟩))
  · intro hall v hv
    obtain ⟨q, hq, rfl⟩ := (mem_tick_procs hpass hk v).mp hv
    obtain ⟨p, hp⟩ : ∃ p, l.procs.get? (viewId q.view) = some p := by
      cases hp : l.procs.get? (viewId q.view) with
      | none => exact absurd ((settle_settles a x l).none_iff.mp hp) (by simp [hq])
      | some p => exact ⟨p, rfl⟩
    obtain ⟨q', hq', hend⟩ := settle_endAfter (a := a) (x := x) hp
    obtain rfl := Option.some.inj (hq'.symm.trans hq)
    exact (recent_after hend).mpr (hall _ p hp)

/-- The published list is recent exactly when every process in memory is and the
events that are about to end one are. -/
theorem procs_recent_iff (hk : Keyed a.procs) (h : ingest a x = some (a', t)) :
    (∀ v ∈ t.procs, Recent x.clock.wallMs v.endedMs) ↔ Prompt a x := by
  obtain ⟨l, hl, rfl, rfl⟩ := ingest_some h
  rw [settled_recent_iff hk hl]
  constructor
  · intro hall
    refine ⟨fun id p₀ hp₀ => ?_, fun id f hpresent hopen hf => ?_⟩
    · obtain ⟨p, hp⟩ := Option.isSome_iff_exists.mp ((gather_isSome hl).mpr (.inl (Option.isSome_of_eq_some hp₀)))
      have hrecent := (hall id p hp).1
      rwa [gather_endedMs hl hp, hp₀] at hrecent
    · obtain ⟨p, hp⟩ := Option.isSome_iff_exists.mp ((gather_isSome hl).mpr hpresent)
      have hnone : p.view.endedMs = none := by
        rw [gather_endedMs hl hp]
        cases hp₀ : a.procs.get? id with
        | none => rfl
        | some p₀ => exact hopen p₀ hp₀
      exact (hall id p hp).2 hnone f hf
  · rintro ⟨hrecent, hevents⟩ id p hp
    have hended := gather_endedMs hl hp
    refine ⟨?_, fun hnone f hf => hevents id f ((gather_isSome hl).mp (Option.isSome_of_eq_some hp)) ?_ hf⟩
    · cases hp₀ : a.procs.get? id with
      | none =>
          rw [hended, hp₀]
          exact recent_none _
      | some p₀ =>
          rw [hended, hp₀]
          exact hrecent id p₀ hp₀
    · intro p₀ hp₀
      rw [hnone, hp₀] at hended
      exact hended.symm

theorem listed_iff (hk : Keyed a.procs) (h : ingest a x = some (a', t)) :
    (∃ v ∈ t.procs, viewId v = id) ↔ (a.procs.get? id).isSome = true ∨ id ∈ x.flows.map Sample.id := by
  obtain ⟨l, hl, rfl, rfl⟩ := ingest_some h
  obtain ⟨es, hpass⟩ := gather_pass hl
  rw [← gather_isSome hl]
  constructor
  · rintro ⟨v, hv, rfl⟩
    obtain ⟨q, hq, -⟩ := (mem_tick_procs hpass hk v).mp hv
    rw [Option.isSome_iff_ne_none]
    intro hnone
    exact absurd ((settle_settles a x l).none_iff.mp hnone) (by simp [hq])
  · intro hsome
    obtain ⟨p, hp⟩ := Option.isSome_iff_exists.mp hsome
    obtain ⟨q, hq, -⟩ := settle_endAfter (a := a) (x := x) hp
    have hid := pass_keyed_mid hpass hk _ q hq
    exact ⟨q.view, (mem_tick_procs hpass hk q.view).mpr ⟨q, hid ▸ hq, rfl⟩, hid⟩

end Ends

/-- A process that was shown is in memory as it was shown, or has ended a minute ago
or more. -/
structure Remembers (s : Memory) : Prop where
  keyed : Keyed s.agg.procs
  seen : ∀ id ∈ s.seen, (s.shown id).isSome = true
  held : ∀ id v, s.shown id = some v → (∃ p, s.agg.procs.get? id = some p ∧ p.view = v) ∨
    s.agg.procs.get? id = none ∧ ¬ Recent s.wall v.endedMs

theorem start_remembers (clkTck : ClkTck) : Remembers (.start clkTck) where
  keyed := new_keyed clkTck
  seen := List.forall_mem_nil _
  held := fun _ v hv => absurd hv.symm (Option.some_ne_none v)

theorem retained_iff (now : Int) (p : Proc) : retained now p = true ↔ Recent now p.view.endedMs := by
  rw [retained, Recent]
  cases p.view.endedMs <;> simp

theorem recent_antitone {now now' : Int} (hle : now ≤ now') {endedMs : Option Int} (h : Recent now' endedMs) :
    Recent now endedMs := by
  intro e he
  have hlt := h e he
  omega

section Steps

variable {s : Memory} {x : Input} {a' : Aggregator} {t : Tick} {id : ProcId} {v : ProcView}

theorem shown_next_listed (h : (t.procs.find? fun v => viewId v = id) = some v) : (s.next x a' t).shown id = some v := by
  simp only [Memory.next, h, Option.some_or]

theorem shown_next_absent (h : ∀ v ∈ t.procs, viewId v ≠ id) : (s.next x a' t).shown id = s.shown id := by
  have hnone : (t.procs.find? fun v => viewId v = id) = none := by
    rw [List.find?_eq_none]
    simpa using h
  simp only [Memory.next, hnone, Option.none_or]

theorem listed_or_absent (t : Tick) (id : ProcId) :
    (∃ v, (t.procs.find? fun v => viewId v = id) = some v ∧ v ∈ t.procs ∧ viewId v = id) ∨
      ∀ v ∈ t.procs, viewId v ≠ id := by
  cases hfind : t.procs.find? fun v => viewId v = id with
  | none => exact .inr (by simpa using hfind)
  | some v => exact .inl ⟨v, rfl, List.mem_of_find?_eq_some hfind, by simpa using List.find?_some hfind⟩

theorem next_remembers (hs : Remembers s) (hc : Clocked Memory.wall s x) (h : ingest s.agg x = some (a', t)) :
    Remembers (s.next x a' t) := by
  obtain ⟨es, mid, hpass⟩ := ingest_pass h
  refine ⟨pass_keyed hpass hs.keyed, ?_, ?_⟩
  · intro id hid
    rcases listed_or_absent t id with ⟨v, hv, -, -⟩ | habsent
    · rw [shown_next_listed hv]
      rfl
    · rw [shown_next_absent habsent]
      rcases List.mem_append.mp hid with hold | hnew
      · exact hs.seen id hold
      · obtain ⟨v, hv, hvid⟩ := (listed_iff hs.keyed h).mpr (.inr hnew)
        exact absurd hvid (habsent v hv)
  · intro id v hv
    rcases listed_or_absent t id with ⟨w, hw, hmem, rfl⟩ | habsent
    · obtain rfl := Option.some.inj ((shown_next_listed hw).symm.trans hv)
      obtain ⟨q, hq, hview⟩ := (mem_tick_procs hpass hs.keyed w).mp hmem
      rcases hpass.kept (viewId w) with hkept | ⟨hgone, p, hp, hretained⟩
      · exact .inl ⟨q, hkept.trans hq, hview⟩
      · obtain rfl := Option.some.inj (hp.symm.trans hq)
        refine .inr ⟨hgone, fun hrecent => ?_⟩
        rw [← hview, Memory.next, ← retained_iff, hretained] at hrecent
        exact absurd hrecent nofun
    · rw [shown_next_absent habsent] at hv
      have hnotin : s.agg.procs.get? id = none := by
        rw [← Option.isNone_iff_eq_none, ← Option.isSome_eq_false_iff, ← Bool.not_eq_true]
        intro hsome
        obtain ⟨w, hw, hwid⟩ := (listed_iff hs.keyed h).mpr (.inl hsome)
        exact habsent w hw hwid
      rcases hs.held id v hv with ⟨p, hp, -⟩ | ⟨-, hold⟩
      · exact absurd (hnotin.symm.trans hp) nofun
      · refine .inr ⟨?_, fun hrecent => hold (recent_antitone hc hrecent)⟩
        cases hp : (s.next x a' t).agg.procs.get? id with
        | none => rfl
        | some p =>
            have hmid := pass_left hpass hp
            have hkey := pass_keyed_mid hpass hs.keyed id p hmid
            exact absurd hkey (habsent p.view ((mem_tick_procs hpass hs.keyed p.view).mpr ⟨p, hkey ▸ hmid, rfl⟩))

/-- The process list of a tick has every process seen so far that has not ended or
ended less than a minute ago. -/
def ListsRecent (s : Memory) (x : Input) (a' : Aggregator) (t : Tick) : Prop :=
  ∀ id ∈ (s.next x a' t).seen, ∃ v, (s.next x a' t).shown id = some v ∧ (Recent x.clock.wallMs v.endedMs → v ∈ t.procs)

/-- It has these processes and no others. -/
def ListsExactly (s : Memory) (x : Input) (a' : Aggregator) (t : Tick) : Prop :=
  ListsRecent s x a' t ∧ ∀ v ∈ t.procs, Recent x.clock.wallMs v.endedMs

theorem lists_recent (hs : Remembers s) (hc : Clocked Memory.wall s x) (h : ingest s.agg x = some (a', t)) : ListsRecent s x a' t := by
  intro id hid
  obtain ⟨v, hv⟩ := Option.isSome_iff_exists.mp ((next_remembers hs hc h).seen id hid)
  refine ⟨v, hv, fun hrecent => ?_⟩
  rcases listed_or_absent t id with ⟨w, hw, hmem, -⟩ | habsent
  · obtain rfl := Option.some.inj ((shown_next_listed hw).symm.trans hv)
    exact hmem
  · rw [shown_next_absent habsent] at hv
    rcases hs.held id v hv with ⟨p, hp, -⟩ | ⟨-, hold⟩
    · obtain ⟨w, hw, hwid⟩ := (listed_iff hs.keyed h).mpr (.inl (Option.isSome_of_eq_some hp))
      exact absurd hwid (habsent w hw)
    · exact absurd (recent_antitone hc hrecent) hold

end Steps

/-- Whatever the run, the list of a tick misses no process, and it has one too many
exactly when some end is a minute old when the call begins or an event makes it so. -/
theorem lists_exactly_iff {clkTck : ClkTck} {xs : List Input} {s : Memory} {x : Input} {a' : Aggregator} {t : Tick}
    (h : Run Memory.step (Clocked Memory.wall) (.start clkTck) xs s) (hc : Clocked Memory.wall s x) (hx : ingest s.agg x = some (a', t)) :
    ListsRecent s x a' t ∧ (ListsExactly s x a' t ↔ Prompt s.agg x) := by
  have hs : Remembers s := by
    refine h.invariant (start_remembers clkTck) ?_
    intro s x s' hs hc hstep
    obtain ⟨⟨a', t⟩, hin, rfl⟩ := Option.map_eq_some_iff.mp hstep
    exact next_remembers hs hc hin
  have hrecent := lists_recent hs hc hx
  refine ⟨hrecent, ?_⟩
  rw [← procs_recent_iff hs.keyed hx]
  exact ⟨fun hexact => hexact.2, fun hprocs => ⟨hrecent, hprocs⟩⟩

theorem exitInput_runs_memory : (Memory.step (.start sampleTck) exitInput).isSome = true := by decide +kernel

def justEnded : Memory := (Memory.step (.start sampleTck) exitInput).get exitInput_runs_memory

theorem justEnded_run : Run Memory.step (Clocked Memory.wall) (.start sampleTck) [exitInput] justEnded :=
  .cons (by decide) (Option.some_get exitInput_runs_memory).symm (.nil _)

def idleInput : Input := sampleInput (exitClock 159500 129500000000 (by decide)) [] []

theorem idleInput_runs : (ingest justEnded.agg idleInput).isSome = true := by decide +kernel

def idleTick : Aggregator × Tick := (ingest justEnded.agg idleInput).get idleInput_runs

theorem lists_exactly_iff_sample : Clocked Memory.wall justEnded idleInput ∧
    (ListsExactly justEnded idleInput idleTick.1 idleTick.2 ↔ Prompt justEnded.agg idleInput) := by
  have hc : Clocked Memory.wall justEnded idleInput := by decide +kernel
  exact ⟨hc, (lists_exactly_iff justEnded_run hc (Option.some_get idleInput_runs).symm).2⟩

/-- The tick still shows a process that ended 60.5 s ago: the last pruning was less
than a minute ago. -/
theorem ended_still_listed : ¬ ∀ {clkTck : ClkTck} {xs : List Input} {s : Memory} {x : Input} {a' : Aggregator} {t : Tick},
    Run Memory.step (Clocked Memory.wall) (.start clkTck) xs s → Clocked Memory.wall s x → ingest s.agg x = some (a', t) →
      ListsExactly s x a' t := by
  intro h
  have hc : Clocked Memory.wall justEnded idleInput := by decide +kernel
  have hrecent := (h justEnded_run hc (Option.some_get idleInput_runs).symm).2
  have hlisted : ∃ v ∈ idleTick.2.procs, v.endedMs = some 99000 := by decide +kernel
  obtain ⟨v, hv, hended⟩ := hlisted
  exact absurd (hrecent v hv 99000 hended) (by decide)

end NetWatch.Collector.Retention
