import NetWatch.Collector.SinkRedis
import NetWatch.Collector.Ticks

namespace NetWatch.Collector.RedisMirror

open Kernel.Types Procfs Model Views Ticks SinkRedis Lib.Redis Lib.Runs

def aliveOp (v : ProcView) : Op :=
  match v.endedMs with
  | none => .sadd (idText (viewId v))
  | some _ => .srem (idText (viewId v))

def procOps (ttl : Int) (v : ProcView) : List Op :=
  .hset (procFields v) :: if v.endedMs.isSome then [.expire ttl] else []

theorem keyOps_alive_procCmds (ttl : Int) (v : ProcView) : keyOps .alive (procCmds ttl v) = [aliveOp v] := by
  cases hv : v.endedMs with
  | none => simp [procCmds, keyOps, aliveOp, hv]
  | some ended => simp [procCmds, keyOps, aliveOp, hv]

theorem keyOps_proc_procCmds (ttl : Int) (id : ProcId) (v : ProcView) :
    keyOps (.proc id) (procCmds ttl v) = if viewId v = id then procOps ttl v else [] := by
  by_cases hid : viewId v = id
  · cases hv : v.endedMs with
    | none => simp [procCmds, keyOps, procOps, hv, hid]
    | some ended => simp [procCmds, keyOps, procOps, hv, hid]
  · cases hv : v.endedMs with
    | none => simp [procCmds, keyOps, hv, hid]
    | some ended => simp [procCmds, keyOps, hv, hid]

theorem keyOps_destCmds {k : Key} (hk : ∀ id, k ≠ .dests id) (ds : List DestView) : keyOps k (ds.map destCmd) = [] := by
  apply keyOps_of_notMem
  intro c hc
  obtain ⟨d, -, rfl⟩ := List.mem_map.mp hc
  exact (hk _).symm

theorem build_alive (cfg : Config) (snap : String) (t : Tick) (full prune : Bool) :
    keyOps .alive (build cfg snap t full prune) = (if full then [Op.del] else []) ++ (written full t).map aliveOp := by
  have hprocs : keyOps .alive ((written full t).flatMap (procCmds cfg.ttl)) = (written full t).map aliveOp := by
    rw [keyOps_flatMap, List.map_eq_flatMap]
    simp only [keyOps_alive_procCmds]
  simp only [build, keyOps_append, hprocs, keyOps_destCmds (k := .alive) (fun _ => nofun)]
  cases full <;> cases prune <;> simp [keyOps]

theorem build_proc (cfg : Config) (snap : String) (t : Tick) (full prune : Bool) (id : ProcId) :
    keyOps (.proc id) (build cfg snap t full prune) =
      (written full t).flatMap fun v => if viewId v = id then procOps cfg.ttl v else [] := by
  have hprocs : keyOps (.proc id) ((written full t).flatMap (procCmds cfg.ttl)) =
      (written full t).flatMap fun v => if viewId v = id then procOps cfg.ttl v else [] := by
    rw [keyOps_flatMap]
    simp only [keyOps_proc_procCmds]
  simp only [build, keyOps_append, hprocs, keyOps_destCmds (k := .proc id) (fun _ => nofun)]
  cases full <;> cases prune <;> simp [keyOps]

theorem flatMap_view {β : Type} {vs : List ProcView} (hn : (vs.map viewId).Nodup) {v : ProcView} (hv : v ∈ vs)
    (f : ProcView → List β) : (vs.flatMap fun u => if viewId u = viewId v then f u else []) = f v := by
  induction vs with
  | nil => cases hv
  | cons u vs ih =>
      rw [List.map_cons, List.nodup_cons] at hn
      rw [List.flatMap_cons]
      rcases List.mem_cons.mp hv with hvu | hv
      · have hrest : (vs.flatMap fun w => if viewId w = viewId v then f w else []) = [] := by
          rw [List.flatMap_eq_nil_iff]
          intro w hw
          have hne : viewId w ≠ viewId v := fun h => hn.1 (hvu ▸ h ▸ List.mem_map_of_mem hw)
          exact if_neg hne
        rw [hrest, List.append_nil, ← hvu, if_pos rfl]
      · have hne : viewId u ≠ viewId v := fun h => hn.1 (h ▸ List.mem_map_of_mem hv)
        rw [if_neg hne, List.nil_append, ih hn.2 hv]

theorem flatMap_noView {β : Type} {vs : List ProcView} {id : ProcId} (h : ∀ v ∈ vs, viewId v ≠ id)
    (f : ProcView → List β) : (vs.flatMap fun u => if viewId u = id then f u else []) = [] := by
  rw [List.flatMap_eq_nil_iff]
  exact fun v hv => if_neg (h v hv)

theorem isSet_congr {S S' : String → Prop} {c : Cell} (h : c.IsSet S) (hS : ∀ m, S m ↔ S' m) : c.IsSet S' := by
  rwa [← funext fun m => propext (hS m)]

theorem alive_exec {now : Int} {vs : List ProcView} {S : String → Prop} {c c' : Cell} (hc : c.IsSet S)
    (hn : (vs.map viewId).Nodup) (h : exec (Cell.exec now) c (vs.map aliveOp) = some c') :
    c'.IsSet fun m => (∃ v ∈ vs, v.endedMs = none ∧ idText (viewId v) = m) ∨
      S m ∧ ∀ v ∈ vs, idText (viewId v) ≠ m := by
  induction vs generalizing c S with
  | nil =>
      obtain rfl := Option.some.inj h
      exact isSet_congr hc fun m => by simp
  | cons v vs ih =>
      rw [List.map_cons, List.nodup_cons] at hn
      obtain ⟨c₁, hc₁, hrest⟩ := Option.bind_eq_some_iff.mp h
      have hother : ∀ w ∈ vs, idText (viewId w) ≠ idText (viewId v) := by
        intro w hw he
        exact hn.1 (idText_injective he ▸ List.mem_map_of_mem hw)
      cases hv : v.endedMs with
      | none =>
          rw [aliveOp, hv] at hc₁
          refine isSet_congr (ih (hc.sadd hc₁) hn.2 hrest) fun m => ?_
          constructor
          · rintro (⟨w, hw, hlive, hm⟩ | ⟨rfl | hS, hall⟩)
            · exact .inl ⟨w, List.mem_cons_of_mem v hw, hlive, hm⟩
            · exact .inl ⟨v, List.mem_cons_self, hv, rfl⟩
            · by_cases hm : idText (viewId v) = m
              · exact .inl ⟨v, List.mem_cons_self, hv, hm⟩
              · exact .inr ⟨hS, List.forall_mem_cons.mpr ⟨hm, hall⟩⟩
          · rintro (⟨w, hw, hlive, hm⟩ | ⟨hS, hall⟩)
            · rcases List.mem_cons.mp hw with rfl | hw
              · exact .inr ⟨.inl hm.symm, fun u hu => hm ▸ hother u hu⟩
              · exact .inl ⟨w, hw, hlive, hm⟩
            · exact .inr ⟨.inr hS, (List.forall_mem_cons.mp hall).2⟩
      | some t =>
          rw [aliveOp, hv] at hc₁
          refine isSet_congr (ih (hc.srem hc₁) hn.2 hrest) fun m => ?_
          constructor
          · rintro (⟨w, hw, hlive, hm⟩ | ⟨⟨hm, hS⟩, hall⟩)
            · exact .inl ⟨w, List.mem_cons_of_mem v hw, hlive, hm⟩
            · exact .inr ⟨hS, List.forall_mem_cons.mpr ⟨Ne.symm hm, hall⟩⟩
          · rintro (⟨w, hw, hlive, hm⟩ | ⟨hS, hall⟩)
            · rcases List.mem_cons.mp hw with rfl | hw
              · exact absurd (hv.symm.trans hlive) nofun
              · exact .inl ⟨w, hw, hlive, hm⟩
            · obtain ⟨hm, hall⟩ := List.forall_mem_cons.mp hall
              exact .inr ⟨⟨Ne.symm hm, hS⟩, hall⟩

structure Mirrors (db : Db) (t : Tick) : Prop where
  alive : (db Key.alive.text).IsSet fun m => ∃ v ∈ t.procs, v.endedMs = none ∧ idText (viewId v) = m
  hashes : ∀ v ∈ t.procs, (db (Key.proc (viewId v)).text).Holds (procFields v)

/-- A hash that is written for an ended process gets a positive time to live, and one
that is not written has some left. -/
def KeepsHash (cfg : Config) (full : Bool) (now : Int) (db : Db) (v : ProcView) : Prop :=
  if full || v.changed then v.endedMs.isSome = true → 0 < cfg.ttl
  else ∀ d ∈ (db (Key.proc (viewId v)).text).deadline?, now < d

def Keeps (cfg : Config) (t : Tick) (full : Bool) (now : Int) (db : Db) : Prop := ∀ v ∈ t.procs, KeepsHash cfg full now db v

theorem procFields_nodup (v : ProcView) : ((procFields v).map Prod.fst).Nodup := by simp [procFields]

theorem procOps_holds_iff {now ttl : Int} {v : ProcView} {c c' : Cell}
    (h : exec (Cell.exec now) c (procOps ttl v) = some c') : c'.Holds (procFields v) ↔ (v.endedMs.isSome = true → 0 < ttl) := by
  obtain ⟨c₁, hc₁, hrest⟩ := Option.bind_eq_some_iff.mp h
  have hholds := Cell.holds_hset (procFields_nodup v) hc₁
  split_ifs at hrest with hended
  · obtain ⟨c₂, hc₂, hnil⟩ := Option.bind_eq_some_iff.mp hrest
    obtain rfl := Option.some.inj hnil
    rw [hholds.expire_iff hc₂, forall_prop_of_true hended]
  · obtain rfl := Option.some.inj hrest
    exact iff_of_true hholds fun hsome => absurd hsome hended

theorem written_nodup {t : Tick} (hn : (t.procs.map viewId).Nodup) (full : Bool) :
    ((written full t).map viewId).Nodup :=
  hn.sublist (List.filter_sublist.map viewId)

section Transaction

variable {cfg : Config} {snap : String} {t : Tick} {full prune : Bool} {now : Int} {db db' : Db}

theorem transaction_alive (hn : (t.procs.map viewId).Nodup)
    (hprev : full = true ∨ ∃ t₀, Mirrors db t₀ ∧ Succeeds t₀ t ∧ (t₀.procs.map viewId).Nodup)
    (h : transaction now db ((build cfg snap t full prune).map fun c => (c.1.text, c.2)) = some db') :
    (db' Key.alive.text).IsSet fun m => ∃ v ∈ t.procs, v.endedMs = none ∧ idText (viewId v) = m := by
  have halive := transaction_cell h Key.alive.text
  rw [opsOf_text, build_alive] at halive
  cases full with
  | true =>
      have hset : Cell.IsSet (fun _ => False) .absent := .absent fun _ => id
      refine isSet_congr (alive_exec hset (written_nodup hn true) halive) fun m => ?_
      simp [written]
  | false =>
      obtain hfull | ⟨t₀, hmirror, hsucc, hn₀⟩ := hprev
      · cases hfull
      · refine isSet_congr (alive_exec (hmirror.alive.purge now) (written_nodup hn false) halive) fun m => ?_
        constructor
        · rintro (⟨v, hv, hlive, hm⟩ | ⟨⟨w, hw, hlive, hm⟩, hnot⟩)
          · exact ⟨v, (List.mem_filter.mp hv).1, hlive, hm⟩
          · obtain ⟨v, hv, hid⟩ := hsucc.present w hw hlive
            have hc : v.changed = false := by
              by_contra hc
              exact hnot v (List.mem_filter.mpr ⟨hv, by simpa using hc⟩) (by rw [hid, hm])
            obtain ⟨w', hw', rfl⟩ := hsucc.unchanged v hv hc
            obtain rfl := view_unique hn₀ hw' hw hid
            exact ⟨_, hv, hlive, hm⟩
        · rintro ⟨v, hv, hlive, hm⟩
          by_cases hc : v.changed = true
          · exact .inl ⟨v, List.mem_filter.mpr ⟨hv, by simpa using hc⟩, hlive, hm⟩
          · obtain ⟨w, hw, rfl⟩ := hsucc.unchanged v hv (by simpa using hc)
            refine .inr ⟨⟨w, hw, hlive, hm⟩, fun u hu he => ?_⟩
            obtain ⟨hu, huc⟩ := List.mem_filter.mp hu
            have hsame := view_unique hn hu hv (idText_injective (he.trans hm.symm))
            rw [hsame] at huc
            exact absurd huc nofun

theorem transaction_hash_iff (hn : (t.procs.map viewId).Nodup) (hprev : full = true ∨ ∃ t₀, Mirrors db t₀ ∧ Succeeds t₀ t)
    (h : transaction now db ((build cfg snap t full prune).map fun c => (c.1.text, c.2)) = some db') {v : ProcView}
    (hv : v ∈ t.procs) : (db' (Key.proc (viewId v)).text).Holds (procFields v) ↔ KeepsHash cfg full now db v := by
  have hproc := transaction_cell h (Key.proc (viewId v)).text
  rw [opsOf_text, build_proc] at hproc
  rw [KeepsHash]
  split
  case isTrue hwrite =>
    rw [flatMap_view (written_nodup hn full) (List.mem_filter.mpr ⟨hv, hwrite⟩)] at hproc
    exact procOps_holds_iff hproc
  case isFalse hskip =>
    have hnone : ∀ u ∈ written full t, viewId u ≠ viewId v := by
      intro u hu hid
      obtain ⟨hu, hwrite⟩ := List.mem_filter.mp hu
      exact hskip (view_unique hn hu hv hid ▸ hwrite)
    rw [flatMap_noView hnone] at hproc
    rw [← Option.some.inj hproc]
    obtain ⟨hfull, hc⟩ := Bool.or_eq_false_iff.mp (Bool.eq_false_iff.mpr hskip)
    obtain hall | ⟨t₀, hmirror, hsucc⟩ := hprev
    · exact absurd (hall.symm.trans hfull) nofun
    · obtain ⟨w, hw₀, rfl⟩ := hsucc.unchanged v hv hc
      exact (hmirror.hashes w hw₀).purge_iff now

theorem transaction_mirrors_iff (hn : (t.procs.map viewId).Nodup)
    (hprev : full = true ∨ ∃ t₀, Mirrors db t₀ ∧ Succeeds t₀ t ∧ (t₀.procs.map viewId).Nodup)
    (h : transaction now db ((build cfg snap t full prune).map fun c => (c.1.text, c.2)) = some db') :
    Mirrors db' t ↔ Keeps cfg t full now db := by
  have hbefore : full = true ∨ ∃ t₀, Mirrors db t₀ ∧ Succeeds t₀ t := hprev.imp_right fun ⟨t₀, hm, hsucc, _⟩ => ⟨t₀, hm, hsucc⟩
  constructor
  · intro hm v hv
    exact (transaction_hash_iff hn hbefore h hv).mp (hm.hashes v hv)
  · intro hk
    exact ⟨transaction_alive hn hprev h, fun v hv => (transaction_hash_iff hn hbefore h hv).mpr (hk v hv)⟩

end Transaction

/-- What the sink knows about Redis: without a pending full write, Redis shows
the last tick. -/
structure Synced (ts : List Tick) (s : Sink) : Prop where
  offline : s.con = false → s.fullSync = true
  shown : s.fullSync = false → ∃ t, ts.getLast? = some t ∧ Mirrors s.db t

/-- What a successful write asks of the state before it. -/
def Lasting (cfg : Config) (s : Sink) (e : Attempt) : Prop := Writes s e → Keeps cfg e.tick s.fullSync e.now s.db

theorem write_mirrors {cfg : Config} {ts : List Tick} {s s' : Sink} {e : Attempt} (hs : Synced ts s)
    (hc : Coherent (ts ++ [e.tick])) (hok : e.reply = .ok) (h : s.write cfg e = some s') :
    ((s'.db Key.alive.text).IsSet fun m => ∃ v ∈ e.tick.procs, v.endedMs = none ∧ idText (viewId v) = m) ∧
      (Mirrors s'.db e.tick ↔ Keeps cfg e.tick s.fullSync e.now s.db) := by
  have hn := hc.nodup e.tick (by simp)
  have hprev : s.fullSync = true ∨
      ∃ t₀, Mirrors s.db t₀ ∧ Succeeds t₀ e.tick ∧ (t₀.procs.map viewId).Nodup := by
    cases hf : s.fullSync with
    | true => exact .inl rfl
    | false =>
        obtain ⟨t₀, hlast, hm⟩ := hs.shown hf
        obtain ⟨us, rfl⟩ := List.getLast?_eq_some_iff.mp hlast
        exact .inr ⟨t₀, hm, coherent_last hc, hc.nodup t₀ (by simp)⟩
  rw [Sink.write, hok] at h
  obtain ⟨db, hdb, rfl⟩ := Option.map_eq_some_iff.mp h
  exact ⟨transaction_alive hn hprev hdb, transaction_mirrors_iff hn hprev hdb⟩

theorem write_synced {cfg : Config} {ts : List Tick} {s s' : Sink} {e : Attempt} (hs : Synced ts s) (hcon : s.con = true)
    (hc : Coherent (ts ++ [e.tick])) (hlast : Lasting cfg s e) (h : s.write cfg e = some s') : Synced (ts ++ [e.tick]) s' := by
  cases hreply : e.reply with
  | ok =>
      have hm := (write_mirrors hs hc hreply h).2.mpr (hlast ⟨.inl hcon, hreply⟩)
      rw [Sink.write, hreply] at h
      obtain ⟨db, -, rfl⟩ := Option.map_eq_some_iff.mp h
      exact ⟨fun hoff => absurd (hcon.symm.trans hoff) nofun, fun _ => ⟨e.tick, List.getLast?_concat, hm⟩⟩
  | failed applied dropped =>
      rw [Sink.write, hreply] at h
      cases applied with
      | true =>
          obtain ⟨db, -, rfl⟩ := Option.map_eq_some_iff.mp h
          exact ⟨fun _ => rfl, nofun⟩
      | false =>
          obtain rfl := Option.some.inj h
          exact ⟨fun _ => rfl, nofun⟩

/-- A step of the sink is a write in the state that a connect leaves, or nothing. -/
theorem step_cases {cfg : Config} {ts : List Tick} {s s' : Sink} {e : Attempt} (hs : Synced ts s) (h : s.step cfg e = some s') :
    (s.con = true ∨ e.connect = true) ∧ Sink.write cfg { s with con := true } e = some s' ∨
      s.con = false ∧ e.connect = false ∧ s' = s := by
  rw [Sink.step] at h
  split_ifs at h with hcon hconnect
  · have hsame : { s with con := true } = s := by rw [← hcon]
    exact .inl ⟨.inl hcon, hsame ▸ h⟩
  · have hfull := hs.offline (by simpa using hcon)
    have hsame : ({ s with con := true, fullSync := true } : Sink) = { s with con := true } := by rw [← hfull]
    exact .inl ⟨.inr hconnect, hsame ▸ h⟩
  · exact .inr ⟨by simpa using hcon, by simpa using hconnect, (Option.some.inj h).symm⟩

theorem synced_connected {ts : List Tick} {s : Sink} (hs : Synced ts s) : Synced ts { s with con := true } := ⟨nofun, hs.shown⟩

theorem step_synced {cfg : Config} {ts : List Tick} {s s' : Sink} {e : Attempt} (hs : Synced ts s)
    (hc : Coherent (ts ++ [e.tick])) (hlast : Lasting cfg s e) (h : s.step cfg e = some s') : Synced (ts ++ [e.tick]) s' := by
  obtain ⟨hcon, hwrite⟩ | ⟨hoff, -, rfl⟩ := step_cases hs h
  · exact write_synced (synced_connected hs) rfl hc (fun hw => hlast ⟨hcon, hw.2⟩) hwrite
  · exact ⟨hs.offline, fun hf => absurd ((hs.offline hoff).symm.trans hf) nofun⟩

theorem run_synced {cfg : Config} {db : Db} {es : List Attempt} {s : Sink}
    (h : Run (Sink.step cfg) (Lasting cfg) (.start db) es s) (hc : Coherent (es.map Attempt.tick)) :
    Synced (es.map Attempt.tick) s := by
  have hrun := h.history (P := fun es s => Coherent (es.map Attempt.tick) → Synced (es.map Attempt.tick) s)
    (fun _ => ⟨fun _ => rfl, nofun⟩) ?_
  · exact hrun hc
  · intro es t e u ih hlast hu hco
    rw [List.map_append] at hco ⊢
    exact step_synced (ih (coherent_init hco)) hco hlast hu

/-- The set of live processes is that of the tick, and the hash of every process of the
tick has the fields of its view. -/
def Mirrored (db : Db) (t : Tick) : Prop :=
  (∀ m, m ∈ (db Key.alive.text).members ↔ ∃ v ∈ t.procs, v.endedMs = none ∧ idText (viewId v) = m) ∧
    ∀ v ∈ t.procs, (db (Key.proc (viewId v)).text).Holds (procFields v)

/-- In a run whose writes keep the hashes, Redis mirrors the tick after a successful
write exactly when this write keeps them too. -/
theorem redis_mirrors_iff {clkTck : ClkTck} {xs : List Input} {src : Source} {cfg : Config} {db : Db}
    {es : List Attempt} {s s' : Sink} {e : Attempt} (hsrc : Run Source.step Free (.start clkTck) xs src)
    (hrun : Run (Sink.step cfg) (Lasting cfg) (.start db) es s) (hstep : s.step cfg e = some s')
    (hticks : (es ++ [e]).map Attempt.tick <+: src.ticks) (hw : Writes s e) : Mirrored s'.db e.tick ↔ Lasting cfg s e := by
  have hc := coherent_initial (run_ok hsrc).coherent hticks
  rw [List.map_append] at hc
  have hs := run_synced hrun (coherent_init hc)
  obtain ⟨-, hwrite⟩ | ⟨hoff, hconnect, -⟩ := step_cases hs hstep
  · obtain ⟨halive, hiff⟩ := write_mirrors (synced_connected hs) hc hw.2 hwrite
    rw [Lasting, forall_prop_of_true hw]
    constructor
    · intro hm
      exact hiff.mp ⟨halive, hm.2⟩
    · intro hk
      have hm := hiff.mpr hk
      exact ⟨hm.alive.members, hm.hashes⟩
  · rcases hw.1 with hon | hon
    · exact absurd (hoff.symm.trans hon) nofun
    · exact absurd (hconnect.symm.trans hon) nofun

def sampleInputs : List Input :=
  [Conservation.sampleInput (Conservation.sampleClock 100000) [Conservation.sampleFlow 5 10 20] [⟨7, 5, 0⟩],
    Conservation.sampleInput (Conservation.sampleClock 131000) [] [],
    Conservation.sampleInput (Conservation.sampleClock 162000) [] []]

theorem sampleInputs_run :
    (exec Source.step (.start Conservation.sampleTck) sampleInputs).isSome = true := by decide +kernel

def sampleSource : Source := (exec Source.step (.start Conservation.sampleTck) sampleInputs).get sampleInputs_run

theorem sampleSource_ticks : sampleSource.ticks.length = 3 := by decide +kernel

def sampleTick (i : Fin 3) : Tick := sampleSource.ticks.get (i.cast sampleSource_ticks.symm)

/-- The first tick is written, the second one half a minute later may fail. -/
def sampleAttempts (reply : Reply) : List Attempt :=
  [⟨sampleTick 0, "", 100000, true, .ok⟩, ⟨sampleTick 1, "", 131000, true, reply⟩]

def lastAttempt : Attempt := ⟨sampleTick 2, "", 162000, true, .ok⟩

def emptyDb : Db := fun _ => .absent

instance (s : Sink) (e : Attempt) : Decidable (Writes s e) :=
  inferInstanceAs (Decidable ((s.con = true ∨ e.connect = true) ∧ e.reply = .ok))

instance (cfg : Config) (full : Bool) (now : Int) (db : Db) (v : ProcView) : Decidable (KeepsHash cfg full now db v) :=
  inferInstanceAs (Decidable (if full || v.changed then v.endedMs.isSome = true → 0 < cfg.ttl
    else ∀ d ∈ (db (Key.proc (viewId v)).text).deadline?, now < d))

instance (cfg : Config) (t : Tick) (full : Bool) (now : Int) (db : Db) : Decidable (Keeps cfg t full now db) :=
  inferInstanceAs (Decidable (∀ v ∈ t.procs, KeepsHash cfg full now db v))

instance (cfg : Config) (s : Sink) (e : Attempt) : Decidable (Lasting cfg s e) :=
  inferInstanceAs (Decidable (Writes s e → Keeps cfg e.tick s.fullSync e.now s.db))

theorem lostReply_runs : (exec (checked (Sink.step ⟨604800⟩) (Lasting ⟨604800⟩)) (.start emptyDb)
    (sampleAttempts (.failed false true))).isSome = true := by decide +kernel

def lostReply : Sink :=
  (exec (checked (Sink.step ⟨604800⟩) (Lasting ⟨604800⟩)) (.start emptyDb) (sampleAttempts (.failed false true))).get lostReply_runs

theorem recovered_runs : (lostReply.step ⟨604800⟩ lastAttempt).isSome = true := by decide +kernel

def recovered : Sink := (lostReply.step ⟨604800⟩ lastAttempt).get recovered_runs

theorem redis_mirrors_iff_sample : (sampleTick 2).procs ≠ [] ∧ Mirrored recovered.db (sampleTick 2) :=
  ⟨by decide +kernel, (redis_mirrors_iff (Run.of_exec (Option.some_get sampleInputs_run).symm)
    (Run.of_checked (Option.some_get lostReply_runs).symm) (Option.some_get recovered_runs).symm
    (by decide +kernel) ⟨.inr rfl, rfl⟩).mpr (by decide +kernel)⟩

def MirrorsAlways (cfg : Config) : Prop :=
  ∀ {clkTck : ClkTck} {xs : List Input} {src : Source} {db : Db} {es : List Attempt} {s s' : Sink} {e : Attempt},
    Run Source.step Free (.start clkTck) xs src → Run (Sink.step cfg) Free (.start db) es s →
    s.step cfg e = some s' → (es ++ [e]).map Attempt.tick <+: src.ticks → Writes s e → Mirrored s'.db e.tick

/-- The main thread of a process has exited, and others run on. -/
def zombieLeader : ProcFs where
  stat := some ("7 (curl) Z 1 7 7 0 -1 0 0 0 0 0 0 0 0 0 20 0 2 0 0 0".toList.map fun c => UInt8.ofNat c.toNat)
  cmdline := some []

def againInput (ms : Nat) (flows : List Sample) (exits : List ExitEvent) : Input :=
  { Conservation.sampleInput (Conservation.sampleClock ms) flows exits with sweepFs := fun _ => zombieLeader }

def againFlow : Sample := { Conservation.sampleFlow 5 10 20 with fs := zombieLeader }

def againInputs : List Input :=
  [againInput 100000 [againFlow] [⟨7, 5, 0⟩], againInput 101000 [] [], againInput 162000 [] [], againInput 163000 [againFlow] [],
    againInput 164000 [] [], againInput 191500 [] []]

theorem againInputs_run : (exec Source.step (.start Conservation.sampleTck) againInputs).isSome = true := by decide +kernel

def againSource : Source := (exec Source.step (.start Conservation.sampleTck) againInputs).get againInputs_run

theorem againSource_ticks : againSource.ticks.length = 6 := by decide +kernel

def againTick (i : Fin 6) : Tick := againSource.ticks.get (i.cast againSource_ticks.symm)

def againAttempt (i : Fin 6) : Attempt := ⟨againTick i, "", (againTick i).tsMs, true, .ok⟩

def againAttempts : List Attempt := [againAttempt 0, againAttempt 1, againAttempt 2, againAttempt 3, againAttempt 4]

theorem again_runs : (exec (Sink.step ⟨90⟩) (.start emptyDb) againAttempts).isSome = true := by decide +kernel

def again : Sink := (exec (Sink.step ⟨90⟩) (.start emptyDb) againAttempts).get again_runs

theorem forgotten_runs : (again.step ⟨90⟩ (againAttempt 5)).isSome = true := by decide +kernel

def forgotten : Sink := (again.step ⟨90⟩ (againAttempt 5)).get forgotten_runs

def isLive : Cell → Bool
  | .live _ _ => true
  | _ => false

/-- The hash of a live process expires with the time to live of its earlier end. -/
theorem live_hash_expires : (∃ v ∈ (againTick 5).procs, v.endedMs = none ∧ isLive (forgotten.db (Key.proc (viewId v)).text) = false) ∧
    ¬ MirrorsAlways ⟨90⟩ := by
  have hgone : ∃ v ∈ (againTick 5).procs, v.endedMs = none ∧ isLive (forgotten.db (Key.proc (viewId v)).text) = false := by
    decide +kernel
  refine ⟨hgone, fun h => ?_⟩
  obtain ⟨v, hv, -, hdead⟩ := hgone
  obtain ⟨f, deadline, hlive, -⟩ := (h (Run.of_exec (Option.some_get againInputs_run).symm)
    (Run.of_exec (Option.some_get again_runs).symm) (Option.some_get forgotten_runs).symm
    (by decide +kernel) ⟨.inr rfl, rfl⟩).2 v hv
  rw [forgotten, hlive] at hdead
  cases hdead

end NetWatch.Collector.RedisMirror
