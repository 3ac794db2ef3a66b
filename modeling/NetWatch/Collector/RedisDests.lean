import NetWatch.Collector.Destinations
import NetWatch.Collector.RedisMirror

namespace NetWatch.Collector.RedisDests

open Model Views Ticks Destinations SinkRedis RedisMirror Lib.Assoc Lib.Redis Lib.Texts Lib.IpText Lib.Runs

def destName (dk : DestKey) : String := destField (viewOf (0, 0) dk (0, 0))

theorem labels_noBar : ∀ l ∈ Classify.labels, '|' ∉ l.toList := by decide +kernel

theorem transport_noBar (p : UInt8) : '|' ∉ (Classify.transport p).toList := by
  rw [Classify.transport]
  split_ifs <;> decide

theorem toList_destName (dk : DestKey) : (destName dk).toList = (Classify.transport dk.proto).toList ++
    '|' :: (dk.app.toList ++ '|' :: (ipText dk.raddr.toList ++ '|' :: decimal dk.rport.toNat)) := by
  simp [destName, destField, viewOf, decimal]

theorem transport_injective {p q : UInt8} (hp : p = Kernel.Types.ipprotoTcp ∨ p = Kernel.Types.ipprotoUdp)
    (hq : q = Kernel.Types.ipprotoTcp ∨ q = Kernel.Types.ipprotoUdp)
    (h : (Classify.transport p).toList = (Classify.transport q).toList) : p = q := by
  rcases hp with rfl | rfl <;> rcases hq with rfl | rfl
  · rfl
  · exact absurd h (by decide)
  · exact absurd h (by decide)
  · rfl

theorem destName_injective {dk dk' : DestKey} (hp : Plain dk) (hp' : Plain dk') (h : destName dk = destName dk') :
    dk = dk' := by
  have hlist := congrArg String.toList h
  rw [toList_destName, toList_destName] at hlist
  obtain ⟨hproto, hrest⟩ := append_sep_inj (transport_noBar _) (transport_noBar _) hlist
  obtain ⟨happ, hrest⟩ := append_sep_inj (labels_noBar _ hp.2) (labels_noBar _ hp'.2) hrest
  obtain ⟨hip, hport⟩ := append_sep_inj (bar_notMem_ipText _) (bar_notMem_ipText _) hrest
  have hraddr : dk.raddr = dk'.raddr := Vector.toList_inj.mp (ipText_injective (by simp) (by simp) hip)
  have hrport : dk.rport = dk'.rport := UInt16.toNat_inj.mp (decimal_injective hport)
  rcases dk with ⟨proto, app, raddr, rport⟩
  rcases dk' with ⟨proto', app', raddr', rport'⟩
  obtain rfl := transport_injective hp.1 hp'.1 hproto
  obtain rfl : app = app' := String.toList_injective happ
  obtain rfl : raddr = raddr' := hraddr
  obtain rfl : rport = rport' := hrport
  rfl

def Field (f v : String) (c : Cell) : Prop := ∃ h deadline, c = .live (.hash h) deadline ∧ h f = some v

def runsOut (now : Int) : Cell → Bool
  | .absent => false
  | .expired => true
  | .live _ deadline => deadline.any (· ≤ now)

def destOp (d : DestView) : Op := .hset [(destField d, destVal d.txTotal d.rxTotal)]

def destIdOf (d : DestView) : ProcId := (d.pid, d.startNs)

def expireOps (ttl : Int) (v : ProcView) : List Op := if v.endedMs.isSome then [.expire ttl] else []

theorem build_dests (cfg : Config) (snap : String) (t : Tick) (full prune : Bool) (id : ProcId) :
    keyOps (.dests id) (build cfg snap t full prune) =
      ((written full t).flatMap fun v => if viewId v = id then expireOps cfg.ttl v else []) ++
        (t.dests.filter fun d => destIdOf d = id).map destOp := by
  have hone : ∀ v, keyOps (.dests id) (procCmds cfg.ttl v) = if viewId v = id then expireOps cfg.ttl v else [] := by
    intro v
    by_cases hid : viewId v = id
    · cases hv : v.endedMs with
      | none => simp [procCmds, keyOps, expireOps, hv]
      | some ended => simp [procCmds, keyOps, expireOps, hv, hid]
    · cases hv : v.endedMs with
      | none => simp [procCmds, keyOps, hv, hid]
      | some ended => simp [procCmds, keyOps, hv, hid]
  have hprocs : keyOps (.dests id) ((written full t).flatMap (procCmds cfg.ttl)) =
      (written full t).flatMap fun v => if viewId v = id then expireOps cfg.ttl v else [] := by
    rw [keyOps_flatMap]
    simp only [hone]
  have hdests : keyOps (.dests id) (t.dests.map destCmd) = (t.dests.filter fun d => destIdOf d = id).map destOp := by
    rw [keyOps, List.filter_map, List.map_map]
    congr 1
    apply List.filter_congr
    intro d _
    rw [Bool.eq_iff_iff, Function.comp_apply, decide_eq_true_iff, decide_eq_true_iff, destCmd, Key.dests.injEq]
    rfl
  simp only [build, keyOps_append, hprocs, hdests]
  cases full <;> cases prune <;> simp [keyOps]

section Cells

variable {now : Int} {f v : String} {c c' : Cell}

theorem field_hset_self (h : c.hset [(f, v)] = some c') : Field f v c' := by
  unfold Cell.hset at h
  split at h
  · obtain rfl := Option.some.inj h
    exact ⟨_, _, rfl, by simp [setFields]⟩
  · cases h
  · obtain rfl := Option.some.inj h
    exact ⟨_, _, rfl, by simp [setFields]⟩
  · obtain rfl := Option.some.inj h
    exact ⟨_, _, rfl, by simp [setFields]⟩

theorem field_hset_other {g w : String} (hf : Field f v c) (hg : f = g → v = w) (h : c.hset [(g, w)] = some c') :
    Field f v c' := by
  obtain ⟨hash, deadline, rfl, hv⟩ := hf
  obtain rfl := Option.some.inj h
  refine ⟨_, deadline, rfl, ?_⟩
  by_cases hfg : f = g
  · rw [hg hfg, hfg]
    exact Function.update_self _ _ _
  · exact (Function.update_of_ne hfg _ _).trans hv

theorem field_expire {secs : Int} (hf : Field f v c) (hpos : 0 < secs) (h : c.expire now secs = some c') :
    Field f v c' := by
  obtain ⟨hash, deadline, rfl, hv⟩ := hf
  rw [Cell.expire] at h
  split_ifs at h with hrange hneg
  · omega
  · obtain rfl := Option.some.inj h
    exact ⟨hash, _, rfl, hv⟩

theorem field_purge (hf : Field f v c) (h : runsOut now c = false) : Field f v (c.purge now) := by
  obtain ⟨hash, deadline, rfl, hv⟩ := hf
  refine ⟨hash, deadline, ?_, hv⟩
  rw [Cell.purge, if_neg]
  exact ne_true_of_eq_false h

theorem field_dests {ds : List DestView} (hf : Field f v c)
    (hall : ∀ d ∈ ds, f = destField d → v = destVal d.txTotal d.rxTotal)
    (h : exec (Cell.exec now) c (ds.map destOp) = some c') : Field f v c' := by
  induction ds generalizing c with
  | nil =>
      obtain rfl := Option.some.inj h
      exact hf
  | cons d ds ih =>
      obtain ⟨c₁, hc₁, hrest⟩ := Option.bind_eq_some_iff.mp h
      exact ih (field_hset_other hf (hall d List.mem_cons_self) hc₁)
        (fun d' hd' => hall d' (List.mem_cons_of_mem d hd')) hrest

theorem field_listed {ds : List DestView} {d : DestView} (hd : d ∈ ds)
    (hall : ∀ d' ∈ ds, destField d = destField d' → destVal d.txTotal d.rxTotal = destVal d'.txTotal d'.rxTotal)
    (h : exec (Cell.exec now) c (ds.map destOp) = some c') : Field (destField d) (destVal d.txTotal d.rxTotal) c' := by
  induction ds generalizing c with
  | nil => cases hd
  | cons d₀ ds ih =>
      obtain ⟨c₁, hc₁, hrest⟩ := Option.bind_eq_some_iff.mp h
      have htail : ∀ d' ∈ ds, destField d = destField d' → destVal d.txTotal d.rxTotal = destVal d'.txTotal d'.rxTotal :=
        fun d' hd' => hall d' (List.mem_cons_of_mem d₀ hd')
      rcases List.mem_cons.mp hd with rfl | hd
      · exact field_dests (field_hset_self hc₁) htail hrest
      · exact ih hd htail hrest

theorem field_expires {ops : List Op} {ttl : Int} (hf : Field f v c) (hops : ∀ op ∈ ops, op = .expire ttl ∧ 0 < ttl)
    (h : exec (Cell.exec now) c ops = some c') : Field f v c' := by
  induction ops generalizing c with
  | nil =>
      obtain rfl := Option.some.inj h
      exact hf
  | cons op ops ih =>
      obtain ⟨c₁, hc₁, hrest⟩ := Option.bind_eq_some_iff.mp h
      obtain ⟨rfl, hpos⟩ := hops op List.mem_cons_self
      exact ih (field_expire hf hpos hc₁) (fun op' hop' => hops op' (List.mem_cons_of_mem _ hop')) hrest

end Cells

structure Delivery where
  pub : Published
  snap : String
  now : Int
  connect : Bool
  reply : Reply

def Delivery.attempt (e : Delivery) : Attempt := ⟨e.pub.tick, e.snap, e.now, e.connect, e.reply⟩

/-- The sink with the destinations whose totals Redis may not have: their last
change was not applied, or their hash was lost. -/
structure Tracked where
  sink : Sink
  unsaved : List (ProcId × String)

def Tracked.start (db : Db) : Tracked := ⟨.start db, []⟩

def touchedNames (t : Tick) : List (ProcId × String) := t.dests.map fun d => (destIdOf d, destField d)

def destNames (procs : Dict ProcId Proc) : List (ProcId × String) :=
  procs.entries.flatMap fun p => p.2.dests.entries.map fun d => (p.1, destName d.1)

def Reply.applied : Reply → Bool
  | .ok => true
  | .failed applied _ => applied

/-- The write of `e` removes the hash of the destinations of a process. -/
def loses (cfg : Config) (s : Sink) (e : Delivery) (id : ProcId) : Bool :=
  runsOut e.now (s.db (Key.dests id).text) ||
    (written (s.fullSync || !s.con) e.pub.tick).any fun v =>
      decide (viewId v = id) && v.endedMs.isSome && decide (cfg.ttl ≤ 0)

def Tracked.unsavedAfter (cfg : Config) (s : Tracked) (e : Delivery) : List (ProcId × String) :=
  if (s.sink.con || e.connect) && Reply.applied e.reply then
    (s.unsaved ++ (destNames e.pub.procs).filter fun d => loses cfg s.sink e d.1).filter
      fun d => d ∉ touchedNames e.pub.tick
  else s.unsaved ++ touchedNames e.pub.tick

def Tracked.step (cfg : Config) (s : Tracked) (e : Delivery) : Option Tracked :=
  (s.sink.step cfg e.attempt).map fun k => ⟨k, s.unsavedAfter cfg e⟩

def NothingQuiet (cfg : Config) (s : Tracked) (e : Delivery) : Prop :=
  Writes s.sink e.attempt → ∀ d ∈ destNames e.pub.procs, d ∉ s.unsavedAfter cfg e

theorem mem_destNames {procs : Dict ProcId Proc} {id : ProcId} {dk : DestKey} {u : UInt64 × UInt64}
    (h : Has procs id dk u) : (id, destName dk) ∈ destNames procs := by
  obtain ⟨p, hp, hd⟩ := h
  refine List.mem_flatMap.mpr ⟨(id, p), (procs.mem_iff_get? id p).mpr hp, ?_⟩
  exact List.mem_map.mpr ⟨(dk, u), (p.dests.mem_iff_get? dk u).mpr hd, rfl⟩

theorem listed_eq {o : Option Published} {pub : Published} (hsucc : DestsSucceed o pub) (hplain : AllPlain pub.procs)
    {id : ProcId} {dk : DestKey} {u : UInt64 × UInt64} (hu : Has pub.procs id dk u) {d : DestView}
    (hd : d ∈ pub.tick.dests) (hid : destIdOf d = id) (hname : destName dk = destField d) : d = viewOf id dk u := by
  obtain ⟨id', dk', u', hu', rfl⟩ := hsucc.listed d hd
  obtain rfl : id' = id := hid
  obtain rfl := destName_injective (hplain _ _ _ hu) (hplain _ _ _ hu') hname
  rw [hu.unique hu']

theorem step_db {cfg : Config} {s s' : Sink} {e : Attempt} (h : s.step cfg e = some s') :
    if (s.con || e.connect) && Reply.applied e.reply then
      ∃ prune, transaction e.now s.db
        ((build cfg e.snap e.tick (s.fullSync || !s.con) prune).map fun c => (c.1.text, c.2)) = some s'.db
    else s'.db = s.db := by
  have hwrite : ∀ r : Sink, r.db = s.db → r.fullSync = (s.fullSync || !s.con) → r.write cfg e = some s' →
      if Reply.applied e.reply then
        ∃ prune, transaction e.now s.db
          ((build cfg e.snap e.tick (s.fullSync || !s.con) prune).map fun c => (c.1.text, c.2)) = some s'.db
      else s'.db = s.db := by
    intro r hdb hfull hr
    rw [Sink.write] at hr
    rw [← hdb, ← hfull]
    split at hr
    · rename_i hreply
      obtain ⟨db, hdb', rfl⟩ := Option.map_eq_some_iff.mp hr
      rw [hreply]
      exact ⟨_, hdb'⟩
    · rename_i dropped hreply
      obtain ⟨db, hdb', rfl⟩ := Option.map_eq_some_iff.mp hr
      rw [hreply]
      exact ⟨_, hdb'⟩
    · rename_i dropped hreply
      obtain rfl := Option.some.inj hr
      rw [hreply]
      rfl
  rw [Sink.step] at h
  split_ifs at h with hcon hconnect
  · have hout := hwrite s rfl (by simp [hcon]) h
    simpa only [hcon, Bool.true_or, Bool.true_and] using hout
  · have hout := hwrite { s with con := true, fullSync := true } rfl (by simp [hcon]) h
    simpa only [hconnect, Bool.or_true, Bool.true_and] using hout
  · obtain rfl := Option.some.inj h
    simp [hcon, hconnect]

/-- What the history `unsaved` means: Redis has the totals of every other
destination. -/
def Saved (pub : Published) (s : Tracked) : Prop :=
  ∀ id dk u, Has pub.procs id dk u → (id, destName dk) ∉ s.unsaved →
    Field (destName dk) (destVal u.1 u.2) (s.sink.db (Key.dests id).text)

section Step

variable {cfg : Config} {o : Option Published} {s s' : Tracked} {e : Delivery} {id : ProcId} {dk : DestKey}
  {u : UInt64 × UInt64}

theorem applied_field (hsucc : DestsSucceed o e.pub) (hplain : AllPlain e.pub.procs) (hu : Has e.pub.procs id dk u)
    (hold : viewOf id dk u ∉ e.pub.tick.dests → loses cfg s.sink e id = false ∧
      Field (destName dk) (destVal u.1 u.2) (s.sink.db (Key.dests id).text)) {prune : Bool} {db' : Db}
    (h : transaction e.now s.sink.db ((build cfg e.snap e.pub.tick (s.sink.fullSync || !s.sink.con) prune).map
      fun c => (c.1.text, c.2)) = some db') :
    Field (destName dk) (destVal u.1 u.2) (db' (Key.dests id).text) := by
  have hcell := transaction_cell h (Key.dests id).text
  rw [opsOf_text, build_dests] at hcell
  obtain ⟨c, hexpire, hdests⟩ := exec_append hcell
  have hsame : ∀ d ∈ e.pub.tick.dests.filter (fun d => destIdOf d = id), destName dk = destField d →
      destVal u.1 u.2 = destVal d.txTotal d.rxTotal := by
    intro d hd hname
    obtain ⟨hd, hid⟩ := List.mem_filter.mp hd
    rw [listed_eq hsucc hplain hu hd (of_decide_eq_true hid) hname]
    rfl
  by_cases hin : viewOf id dk u ∈ e.pub.tick.dests
  · exact field_listed (List.mem_filter.mpr ⟨hin, by simp [destIdOf, viewOf]⟩) hsame hdests
  · obtain ⟨hkept, hf⟩ := hold hin
    obtain ⟨hlive, hended⟩ := Bool.or_eq_false_iff.mp hkept
    have hpos : ∀ op ∈ (written (s.sink.fullSync || !s.sink.con) e.pub.tick).flatMap
        (fun v => if viewId v = id then expireOps cfg.ttl v else []), op = .expire cfg.ttl ∧ 0 < cfg.ttl := by
      intro op hop
      obtain ⟨v, hv, hop⟩ := List.mem_flatMap.mp hop
      split_ifs at hop with hid
      · rw [expireOps] at hop
        split_ifs at hop with hend
        · refine ⟨List.mem_singleton.mp hop, ?_⟩
          have hno := List.any_eq_false.mp hended v hv
          simp only [hid, hend, decide_true, Bool.true_and, decide_eq_true_eq, not_le] at hno
          exact hno
        · cases hop
      · cases hop
    exact field_dests (field_expires (field_purge hf hlive) hpos hexpire) hsame hdests

theorem step_saved (hs : ∀ p, o = some p → Saved p s) (hsucc : DestsSucceed o e.pub) (hplain : AllPlain e.pub.procs)
    (h : s.step cfg e = some s') : Saved e.pub s' := by
  obtain ⟨k, hk, rfl⟩ := Option.map_eq_some_iff.mp h
  have hdb := step_db hk
  intro id dk u hu hsaved
  have hquiet : (id, destName dk) ∉ s.unsaved → viewOf id dk u ∉ e.pub.tick.dests →
      Field (destName dk) (destVal u.1 u.2) (s.sink.db (Key.dests id).text) := by
    intro hun hin
    rcases hsucc.quiet id dk u hu with hlisted | ⟨p, hp, hold⟩
    · exact absurd hlisted hin
    · exact hs p hp id dk u hold hun
  have htouched : (id, destName dk) ∉ touchedNames e.pub.tick → viewOf id dk u ∉ e.pub.tick.dests := by
    intro hnot hin
    exact hnot (List.mem_map.mpr ⟨_, hin, rfl⟩)
  simp only [Tracked.unsavedAfter] at hsaved
  split_ifs at hsaved with happ
  · obtain ⟨prune, htrans⟩ := (if_pos happ).mp hdb
    refine applied_field hsucc hplain hu (fun hin => ?_) htrans
    have hnames : (id, destName dk) ∉ touchedNames e.pub.tick := by
      intro hmem
      obtain ⟨d, hd, heq⟩ := List.mem_map.mp hmem
      obtain ⟨hid, hname⟩ := Prod.mk.inj heq
      exact hin (listed_eq hsucc hplain hu hd hid hname.symm ▸ hd)
    rw [List.mem_filter, not_and, decide_eq_true_iff, List.mem_append, List.mem_filter] at hsaved
    have hun : (id, destName dk) ∉ s.unsaved := fun hmem => hsaved (.inl hmem) hnames
    refine ⟨Bool.eq_false_iff.mpr fun hl => ?_, hquiet hun hin⟩
    exact hsaved (.inr ⟨mem_destNames hu, hl⟩) hnames
  · rw [List.mem_append, not_or] at hsaved
    have hsame : k.db = s.sink.db := (if_neg happ).mp hdb
    rw [hsame]
    exact hquiet hsaved.1 (htouched hsaved.2)

end Step

theorem run_saved {cfg : Config} {guard : Tracked → Delivery → Prop} {src : Source} {db : Db} {es : List Delivery}
    {s : Tracked} (hsrc : Follows src) (h : Run (Tracked.step cfg) guard (.start db) es s)
    (hlog : es.map Delivery.pub <+: src.log) : ∀ p, (es.map Delivery.pub).getLast? = some p → Saved p s := by
  have hrun := h.history (P := fun es s => es.map Delivery.pub <+: src.log →
    ∀ p, (es.map Delivery.pub).getLast? = some p → Saved p s) (fun _ _ hp => absurd hp nofun) ?_
  · exact hrun hlog
  · intro es s e s' ih _ hs hlog p hp
    rw [List.map_append] at hlog hp
    obtain rfl : e.pub = p := Option.some.inj (List.getLast?_concat.symm.trans hp)
    obtain ⟨rest, hrest⟩ := hlog
    have hrest : src.log = es.map Delivery.pub ++ e.pub :: rest := by
      rw [← hrest, List.append_assoc]
      rfl
    obtain ⟨hsucc, hplain⟩ := hsrc.each _ _ _ hrest
    exact step_saved (ih ⟨_, hrest.symm⟩) hsucc hplain hs

/-- After every successful write the hashes of the destinations have the totals
of every destination of the tick, if no write leaves one unsaved. -/
theorem dests_never_drift {clkTck : ClkTck} {xs : List Input} {src : Source} {cfg : Config} {db : Db}
    {es : List Delivery} {s s' : Tracked} {e : Delivery} (hsrc : Run Source.step TcpUdp (.start clkTck) xs src)
    (hrun : Run (Tracked.step cfg) (NothingQuiet cfg) (.start db) es s) (hguard : NothingQuiet cfg s e)
    (hstep : s.step cfg e = some s') (hlog : (es ++ [e]).map Delivery.pub <+: src.log)
    (hw : Writes s.sink e.attempt) {id : ProcId} {dk : DestKey} {u : UInt64 × UInt64} (hu : Has e.pub.procs id dk u) :
    Field (destName dk) (destVal u.1 u.2) (s'.sink.db (Key.dests id).text) := by
  have hsaved := run_saved (run_follows hsrc) (hrun.snoc hguard hstep) hlog e.pub (by simp)
  apply hsaved id dk u hu
  obtain ⟨k, -, rfl⟩ := Option.map_eq_some_iff.mp hstep
  exact hguard hw _ (mem_destNames hu)

instance (s : Source) (x : Input) : Decidable (TcpUdp s x) :=
  inferInstanceAs (Decidable (∀ f ∈ x.flows, f.key.proto = Kernel.Types.ipprotoTcp ∨ f.key.proto = Kernel.Types.ipprotoUdp))

instance (cfg : Config) (s : Tracked) (e : Delivery) : Decidable (NothingQuiet cfg s e) :=
  inferInstanceAs (Decidable (Writes s.sink e.attempt → ∀ d ∈ destNames e.pub.procs, d ∉ s.unsavedAfter cfg e))

theorem sampleLog_runs :
    (exec (checked Source.step TcpUdp) (.start Conservation.sampleTck) sampleInputs).isSome = true := by decide +kernel

def sampleLog : Source :=
  (exec (checked Source.step TcpUdp) (.start Conservation.sampleTck) sampleInputs).get sampleLog_runs

theorem sampleLog_length : sampleLog.log.length = 3 := by decide +kernel

def samplePub (i : ℕ) : Published := sampleLog.log.get ⟨i % 3, by rw [sampleLog_length]; exact Nat.mod_lt i (by decide)⟩

theorem sampleLog_eq : sampleLog.log = [samplePub 0, samplePub 1, samplePub 2] := by
  rw [← List.ofFn_get sampleLog.log, List.ofFn_congr sampleLog_length]
  rfl

def sampleDelivery (i : ℕ) (reply : Reply) : Delivery :=
  ⟨samplePub i, "", 100000 + 31000 * i, true, reply⟩

/-- The write that fails has no destination to save. -/
def quietFailure : List Delivery := [sampleDelivery 0 .ok, sampleDelivery 1 (.failed false true)]

theorem quietFailure_runs :
    (exec (checked (Tracked.step ⟨604800⟩) (NothingQuiet ⟨604800⟩)) (.start emptyDb) quietFailure).isSome = true := by
  decide +kernel

def afterQuiet : Tracked :=
  (exec (checked (Tracked.step ⟨604800⟩) (NothingQuiet ⟨604800⟩)) (.start emptyDb) quietFailure).get quietFailure_runs

theorem resynced_runs : (afterQuiet.step ⟨604800⟩ (sampleDelivery 2 .ok)).isSome = true := by decide +kernel

def resynced : Tracked := (afterQuiet.step ⟨604800⟩ (sampleDelivery 2 .ok)).get resynced_runs

theorem dests_never_drift_sample : destNames (samplePub 2).procs ≠ [] ∧ ∀ id dk u, Has (samplePub 2).procs id dk u →
    Field (destName dk) (destVal u.1 u.2) (resynced.sink.db (Key.dests id).text) := by
  refine ⟨by decide +kernel, fun id dk u hu => ?_⟩
  exact dests_never_drift (Run.of_checked (Option.some_get sampleLog_runs).symm)
    (Run.of_checked (Option.some_get quietFailure_runs).symm) (by decide +kernel)
    (Option.some_get resynced_runs).symm ⟨[], sampleLog_eq.symm⟩ ⟨.inr rfl, rfl⟩ hu

def NeverDrifts (cfg : Config) : Prop :=
  ∀ {clkTck : ClkTck} {xs : List Input} {src : Source} {db : Db} {es : List Delivery} {s s' : Tracked} {e : Delivery},
    Run Source.step TcpUdp (.start clkTck) xs src → Run (Tracked.step cfg) Free (.start db) es s →
    s.step cfg e = some s' → (es ++ [e]).map Delivery.pub <+: src.log → Writes s.sink e.attempt →
    ∀ id dk u, Has e.pub.procs id dk u → Field (destName dk) (destVal u.1 u.2) (s'.sink.db (Key.dests id).text)

def fieldOf (c : Cell) (f : String) : Option String :=
  match c with
  | .live (.hash h) _ => h f
  | _ => none

theorem fieldOf_eq {f v : String} {c : Cell} (h : Field f v c) : fieldOf c f = some v := by
  obtain ⟨hash, deadline, rfl, hv⟩ := h
  exact hv

theorem lostDest_runs :
    (exec (Tracked.step ⟨604800⟩) (.start emptyDb) [sampleDelivery 0 (.failed false true)]).isSome = true := by
  decide +kernel

def lostDest : Tracked :=
  (exec (Tracked.step ⟨604800⟩) (.start emptyDb) [sampleDelivery 0 (.failed false true)]).get lostDest_runs

theorem drifted_runs : (lostDest.step ⟨604800⟩ (sampleDelivery 1 .ok)).isSome = true := by decide +kernel

def drifted : Tracked := (lostDest.step ⟨604800⟩ (sampleDelivery 1 .ok)).get drifted_runs

/-- The full write after a failure leaves the destinations out. -/
theorem dests_drift : ¬ NeverDrifts ⟨604800⟩ := by
  intro h
  have hmissing : ∃ p ∈ (samplePub 1).procs.entries, ∃ d ∈ p.2.dests.entries,
      fieldOf (drifted.sink.db (Key.dests p.1).text) (destName d.1) = none := by decide +kernel
  obtain ⟨⟨id, p⟩, hp, ⟨dk, u⟩, hd, hnone⟩ := hmissing
  have hhas : Has (samplePub 1).procs id dk u :=
    ⟨p, (Dict.mem_iff_get? _ id p).mp hp, (Dict.mem_iff_get? _ dk u).mp hd⟩
  have hfield := h (Run.of_checked (Option.some_get sampleLog_runs).symm)
    (Run.of_exec (Option.some_get lostDest_runs).symm) (Option.some_get drifted_runs).symm
    ⟨[samplePub 2], sampleLog_eq.symm⟩ ⟨.inr rfl, rfl⟩ id dk u hhas
  exact absurd (hnone.symm.trans (fieldOf_eq hfield)) nofun

end NetWatch.Collector.RedisDests
