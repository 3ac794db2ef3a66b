import NetWatch.Collector.RedisDests
import NetWatch.Lib.RedisTtl

namespace NetWatch.Collector.RedisExpiry

open Model Views SinkRedis RedisMirror RedisDests Lib.Redis Lib.RedisTtl

def procTtl (now ttl : Int) (s : Ttl) (v : ProcView) : Ttl :=
  if v.endedMs.isSome then s.write.expire now ttl else s.write

def destsTtl (now ttl : Int) (s : Ttl) (v : ProcView) : Ttl := if v.endedMs.isSome then s.expire now ttl else s

section Views

variable {now ttl : Int} {vs : List ProcView} {id : ProcId}

theorem ttlOf_procOps (v : ProcView) (c : Cell) :
    ttlOf ((procOps ttl v).foldl (attempt now) c) = procTtl now ttl (ttlOf c) v := by
  rw [procOps, procTtl, List.foldl_cons]
  split_ifs
  · rw [List.foldl_cons, List.foldl_nil, ttlOf_expire, ttlOf_hset]
  · rw [List.foldl_nil, ttlOf_hset]

theorem ttlOf_expireOps (v : ProcView) (c : Cell) :
    ttlOf ((expireOps ttl v).foldl (attempt now) c) = destsTtl now ttl (ttlOf c) v := by
  rw [expireOps, destsTtl]
  split_ifs
  · rw [List.foldl_cons, List.foldl_nil, ttlOf_expire]
  · rw [List.foldl_nil]

theorem ttlOf_views {ops : ProcView → List Op} {next : Ttl → ProcView → Ttl}
    (h : ∀ v c, ttlOf ((ops v).foldl (attempt now) c) = next (ttlOf c) v) (id : ProcId) (vs : List ProcView) (c : Cell) :
    ttlOf ((vs.flatMap fun v => if viewId v = id then ops v else []).foldl (attempt now) c) =
      (vs.filter fun v => viewId v = id).foldl next (ttlOf c) := by
  induction vs generalizing c with
  | nil => rfl
  | cons v vs ih =>
      rw [List.flatMap_cons, List.foldl_append, ih]
      by_cases hid : viewId v = id
      · rw [if_pos hid, h, List.filter_cons_of_pos (by simpa using hid), List.foldl_cons]
      · rw [if_neg hid, List.foldl_nil, List.filter_cons_of_neg (by simpa using hid)]

theorem ttlOf_dests (ds : List DestView) (c : Cell) :
    ttlOf ((ds.map destOp).foldl (attempt now) c) = if ds = [] then ttlOf c else (ttlOf c).write := by
  induction ds generalizing c with
  | nil => rfl
  | cons d ds ih =>
      rw [List.map_cons, List.foldl_cons, ih, destOp, ttlOf_hset, if_neg (List.cons_ne_nil d ds)]
      cases hs : ttlOf c <;> simp [Ttl.write]

theorem timed_procTtl (ha : Accepted now ttl) (hpos : 0 < ttl) (v : ProcView) : procTtl now ttl .timed v = .timed := by
  rw [procTtl, expire_positive ha hpos, if_neg (write_ne_missing _)]
  exact ite_self _

theorem procs_positive (ha : Accepted now ttl) (hpos : 0 < ttl) {s : Ttl}
    (h : s = .timed ∨ ∃ v ∈ vs, v.endedMs.isSome = true) : vs.foldl (procTtl now ttl) s = .timed := by
  induction vs generalizing s with
  | nil => simpa using h
  | cons v vs ih =>
      rw [List.foldl_cons]
      apply ih
      rcases h with rfl | ⟨w, hw, hended⟩
      · exact .inl (timed_procTtl ha hpos v)
      · rcases List.mem_cons.mp hw with rfl | hw
        · left
          rw [procTtl, if_pos hended, expire_positive ha hpos, if_neg (write_ne_missing s)]
        · exact .inr ⟨w, hw, hended⟩

theorem procs_negative (ha : Accepted now ttl) (hneg : ttl ≤ 0) {s : Ttl}
    (h : s ≠ .timed ∨ ∃ v ∈ vs, v.endedMs.isSome = true) : vs.foldl (procTtl now ttl) s ≠ .timed := by
  induction vs generalizing s with
  | nil => simpa using h
  | cons v vs ih =>
      rw [List.foldl_cons]
      apply ih
      by_cases hv : v.endedMs.isSome = true
      · left
        rw [procTtl, if_pos hv, expire_negative ha hneg]
        exact nofun
      · rcases h with hs | ⟨w, hw, hended⟩
        · left
          rw [procTtl, if_neg hv]
          exact mt (write_eq_timed s).mp hs
        · rcases List.mem_cons.mp hw with rfl | hw
          · exact absurd hended hv
          · exact .inr ⟨w, hw, hended⟩

theorem procs_refused (hr : ¬ Accepted now ttl) (s : Ttl) : vs.foldl (procTtl now ttl) s = .timed ↔ s = .timed := by
  induction vs generalizing s with
  | nil => rfl
  | cons v vs ih =>
      have hv : procTtl now ttl s v = s.write := by
        rw [procTtl, expire_refused hr, ite_self]
      rw [List.foldl_cons, ih, hv, write_eq_timed]

theorem dests_positive (ha : Accepted now ttl) (hpos : 0 < ttl) {s : Ttl}
    (h : s ≠ .lasting ∨ ∃ v ∈ vs, v.endedMs.isSome = true) :
    vs.foldl (destsTtl now ttl) s = if s = .missing then .missing else .timed := by
  induction vs generalizing s with
  | nil =>
      have hs : s ≠ .lasting := by simpa using h
      cases s with
      | lasting => exact absurd rfl hs
      | missing | timed => rfl
  | cons v vs ih =>
      rw [List.foldl_cons]
      by_cases hv : v.endedMs.isSome = true
      · rw [destsTtl, if_pos hv, expire_positive ha hpos, ih (.inl (by split_ifs <;> simp))]
        cases s <;> rfl
      · rw [destsTtl, if_neg hv]
        apply ih
        rcases h with hs | ⟨w, hw, hended⟩
        · exact .inl hs
        · rcases List.mem_cons.mp hw with rfl | hw
          · exact absurd hended hv
          · exact .inr ⟨w, hw, hended⟩

theorem dests_refused (hr : ¬ Accepted now ttl) (s : Ttl) : vs.foldl (destsTtl now ttl) s = s := by
  induction vs generalizing s with
  | nil => rfl
  | cons v vs ih => rw [List.foldl_cons, destsTtl, expire_refused hr, ite_self, ih]

end Views

def after (cfg : Config) (snap : String) (t : Tick) (full prune : Bool) (now : Int) (db : Db) : Db :=
  attemptAll now db ((build cfg snap t full prune).map fun c => (c.1.text, c.2))

/-- The hash of a process has a time to live, and that of its destinations has one or
is not there. -/
def Expiring (db : Db) (id : ProcId) : Prop :=
  ttlOf (db (Key.proc id).text) = .timed ∧ ttlOf (db (Key.dests id).text) ≠ .lasting

def Silent (t : Tick) (id : ProcId) : Prop := ∀ d ∈ t.dests, destIdOf d ≠ id

instance (t : Tick) (id : ProcId) : Decidable (Silent t id) := inferInstanceAs (Decidable (∀ d ∈ t.dests, _ ≠ _))

/-- When a time to live is about to be set that stays. A time that is accepted has to
be positive, and then the hash of the destinations may not be made by this tick. A
time that is refused changes nothing, and the keys need one from before. -/
def Ready (cfg : Config) (t : Tick) (now : Int) (db : Db) (id : ProcId) : Prop :=
  let proc := ttlOf ((db (Key.proc id).text).purge now)
  let dests := ttlOf ((db (Key.dests id).text).purge now)
  if Accepted now cfg.ttl then 0 < cfg.ttl ∧ (dests ≠ .missing ∨ Silent t id)
  else proc = .timed ∧ (dests = .timed ∨ dests = .missing ∧ Silent t id)

section Pipeline

variable (cfg : Config) (snap : String) (t : Tick) (full prune : Bool) (now : Int) (db : Db) (id : ProcId)

theorem after_proc : ttlOf (after cfg snap t full prune now db (Key.proc id).text) =
    ((written full t).filter fun v => viewId v = id).foldl (procTtl now cfg.ttl)
      (ttlOf ((db (Key.proc id).text).purge now)) := by
  rw [after, attemptAll_cell, opsOf_text, build_proc, ttlOf_views ttlOf_procOps]

theorem silent_iff : (t.dests.filter fun d => destIdOf d = id) = [] ↔ Silent t id := by
  rw [List.filter_eq_nil_iff, Silent]
  simp only [decide_eq_true_eq]

theorem after_dests : ttlOf (after cfg snap t full prune now db (Key.dests id).text) =
    let s := ((written full t).filter fun v => viewId v = id).foldl (destsTtl now cfg.ttl)
      (ttlOf ((db (Key.dests id).text).purge now))
    if Silent t id then s else s.write := by
  rw [after, attemptAll_cell, opsOf_text, build_dests, List.foldl_append, ttlOf_dests, ttlOf_views ttlOf_expireOps]
  exact if_congr (silent_iff t id) rfl rfl

theorem expiring_iff_ready {v : ProcView} (hv : v ∈ written full t) (hended : v.endedMs.isSome = true) :
    Expiring (after cfg snap t full prune now db) (viewId v) ↔ Ready cfg t now db (viewId v) := by
  have hmem : ∃ w ∈ (written full t).filter fun w => viewId w = viewId v, w.endedMs.isSome = true :=
    ⟨v, List.mem_filter.mpr ⟨hv, by simp⟩, hended⟩
  rw [Expiring, Ready, after_proc, after_dests]
  dsimp only
  by_cases ha : Accepted now cfg.ttl
  · rw [if_pos ha]
    by_cases hpos : 0 < cfg.ttl
    · rw [procs_positive ha hpos (.inr hmem), dests_positive ha hpos (.inr hmem)]
      cases ttlOf ((db (Key.dests (viewId v)).text).purge now) with
      | missing => by_cases hs : Silent t (viewId v) <;> simp [hs, hpos, Ttl.write]
      | lasting | timed => simp [hpos, Ttl.write]
    · have hproc := procs_negative ha (not_lt.mp hpos) (s := ttlOf ((db (Key.proc (viewId v)).text).purge now)) (.inr hmem)
      exact ⟨fun h => absurd h.1 hproc, fun h => absurd h.1 hpos⟩
  · rw [if_neg ha, procs_refused ha, dests_refused ha]
    cases ttlOf ((db (Key.dests (viewId v)).text).purge now) with
    | missing => by_cases hs : Silent t (viewId v) <;> simp [hs, Ttl.write]
    | lasting | timed => simp [Ttl.write]

end Pipeline

/-- The ended processes that a pipeline writes have their times to live exactly when
none of their destination hashes is made by it, after the EXPIRE. -/
theorem ended_expire_iff (cfg : Config) (snap : String) (t : Tick) (full prune : Bool) (now : Int) (db : Db) :
    (∀ v ∈ written full t, v.endedMs.isSome = true → Expiring (after cfg snap t full prune now db) (viewId v)) ↔
      ∀ v ∈ written full t, v.endedMs.isSome = true → Ready cfg t now db (viewId v) := by
  apply forall₂_congr
  intro v hv
  apply forall_congr'
  exact expiring_iff_ready cfg snap t full prune now db hv

/-- A process that talks and ends within one interval. -/
theorem dests_leak : ¬ ∀ (cfg : Config) (snap : String) (t : Tick) (full prune : Bool) (now : Int) (db : Db),
    ∀ v ∈ written full t, v.endedMs.isSome = true → Expiring (after cfg snap t full prune now db) (viewId v) := by
  intro h
  have hended : ∃ v ∈ written false (sampleTick 0), v.endedMs.isSome = true ∧
      ttlOf (after ⟨604800⟩ "" (sampleTick 0) false false 100000 emptyDb (Key.dests (viewId v)).text) = .lasting := by
    decide +kernel
  obtain ⟨v, hv, hsome, hlasting⟩ := hended
  exact (h ⟨604800⟩ "" (sampleTick 0) false false 100000 emptyDb v hv hsome).2 hlasting

end NetWatch.Collector.RedisExpiry
