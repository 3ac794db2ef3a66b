import NetWatch.Collector.RedisMirror
import NetWatch.Collector.Ticks
import NetWatch.History.Throughput
import NetWatch.Lib.GroupFold
import NetWatch.Lib.Rounding
import NetWatch.Live.Hub

namespace NetWatch.Live.Rates

open Collector.Procfs Collector.Model Collector.Ingest Collector.Conservation Collector.Views Collector.Ticks Collector.SinkRedis Kernel.Types
open Hub Lib Lib.Assoc Lib.Buckets Lib.GroupFold Lib.Rounding Lib.Runs
open Lib.JsNumber (mathRound mathRound_le lt_mathRound_add_one le_mathRound)

structure CompactProc where
  id : String
  name : String
  tx : ℚ
  rx : ℚ

structure Body where
  drops : ℚ
  nProcs : ℕ
  nFlows : ℕ
  txKbps : ℚ
  rxKbps : ℚ
  procs : List CompactProc
  apps : Dict String (ℚ × ℚ)

/-- Two places after the point. -/
def r2 (n : ℚ) : ℚ := Binary64.div (mathRound (Binary64.mul n 100)) 100

def busy (p : ProcView) : Bool := 0 < p.txKbps || 0 < p.rxKbps

def compactProc (p : ProcView) : CompactProc := ⟨idText (viewId p), p.name, r2 p.txKbps, r2 p.rxKbps⟩

def appSums (flows : List FlowRec) : Dict String (ℚ × ℚ) :=
  groupFold FlowRec.app (fun _ => (0, 0)) (fun a f => (Binary64.add a.1 f.txKbps, Binary64.add a.2 f.rxKbps)) flows

/-- The snapshot is a tick of the collector. Its rates are printed so that they are
read back as they were. -/
def compactTick (s : Tick) : CompactTick Body where
  ts := s.tsMs
  intervalMs := s.intervalMs.toNat
  gap := false
  body :=
    { drops := Binary64.round s.drops.toNat
      nProcs := (s.procs.filter fun p => p.endedMs = none).length
      nFlows := s.flows.length
      txKbps := r2 (sumRounded ProcView.txKbps s.procs)
      rxKbps := r2 (sumRounded ProcView.rxKbps s.procs)
      procs := (s.procs.filter busy).map compactProc
      apps := (appSums s.flows).mapVals fun _ a => (r2 a.1, r2 a.2) }

def ProcView.rate (d : Dir) (p : ProcView) : ℚ := match d with | .tx => p.txKbps | .rx => p.rxKbps

def FlowRec.rate (d : Dir) (f : FlowRec) : ℚ := match d with | .tx => f.txKbps | .rx => f.rxKbps

def FlowRec.bytes (d : Dir) (f : FlowRec) : ℕ := match d with | .tx => f.txBytes.toNat | .rx => f.rxBytes.toNat

def CompactProc.rate (d : Dir) (p : CompactProc) : ℚ := match d with | .tx => p.tx | .rx => p.rx

def Body.rate (d : Dir) (b : Body) : ℚ := match d with | .tx => b.txKbps | .rx => b.rxKbps

def side (d : Dir) (a : ℚ × ℚ) : ℚ := match d with | .tx => a.1 | .rx => a.2

section Exact

def seconds (e : Duration) : ℚ := e.secs.toNat + e.nanos.toNat / 1000000000

/-- The rate of some bytes in an interval, without rounding. An interval counts as a
millisecond at least. -/
def rate (e : Duration) (bytes : ℕ) : ℚ := bytes * 8 / 1000 / max (seconds e) (1 / 1000)

theorem seconds_near (e : Duration) : Near 3 e.asSecsF64 (seconds e) := by
  have hsecs : Near 2 (Binary64.round e.secs.toNat) e.secs.toNat :=
    ((Near.refl (Nat.cast_nonneg _)).rounded).mono (by decide)
  have hnanos : Near 1 (Binary64.round e.nanos.toNat) e.nanos.toNat := (Near.refl (Nat.cast_nonneg _)).rounded
  have hparts := (hnanos.scale (by norm_num : (0 : ℚ) ≤ 1 / 1000000000)).rounded
  rw [mul_one_div, mul_one_div] at hparts
  exact (hsecs.add hparts).rounded

theorem interval_pos (e : Duration) : 0 < max (seconds e) (1 / 1000) := (by norm_num : (0 : ℚ) < 1 / 1000).trans_le (le_max_right _ _)

theorem rate_nonneg (e : Duration) (n : ℕ) : 0 ≤ rate e n := by
  have hpos := interval_pos e
  rw [rate]
  positivity

theorem rate_add (e : Duration) (m n : ℕ) : rate e (m + n) = rate e m + rate e n := by
  rw [rate, rate, rate, Nat.cast_add]
  ring

/-- Ten roundings are between the bytes and their rate, where those of the interval
count twice. -/
theorem kbps_near (e : Duration) (bytes : UInt64) : Near 10 (kbps e bytes) (rate e bytes.toNat) := by
  have hround : Near 1 (Binary64.round bytes.toNat) bytes.toNat := (Near.refl (Nat.cast_nonneg _)).rounded
  have hbits := (hround.scale (by norm_num : (0 : ℚ) ≤ 8)).rounded
  have hkilo := (hbits.scale (by norm_num : (0 : ℚ) ≤ 1 / 1000)).rounded
  rw [mul_one_div, mul_one_div] at hkilo
  have hmin : Near 3 (Binary64.round (1 / 1000)) (1 / 1000) := ((Near.refl (by norm_num)).rounded).mono (by decide)
  have hsecs := (seconds_near e).max hmin
  exact (hkilo.div hsecs (interval_pos e)).rounded

/-- At most half a unit of the second place is lost, and two roundings. -/
theorem r2_error {k : ℕ} {x y : ℚ} (h : Near k x y) : |r2 x - y| ≤ 51 / 10000 + drift (k + 2) * y := by
  have hscaled : Near (k + 1) (Binary64.mul x 100) (y * 100) := (h.scale (by norm_num)).rounded
  have hle : (mathRound (Binary64.mul x 100) : ℚ) ≤ Binary64.mul x 100 + 1 / 2 := mathRound_le _
  have hlt : Binary64.mul x 100 + 1 / 2 < mathRound (Binary64.mul x 100) + 1 := lt_mathRound_add_one _
  have hnonneg : (0 : ℚ) ≤ mathRound (Binary64.mul x 100) := by
    have hfloor : 0 ≤ mathRound (Binary64.mul x 100) := le_mathRound.mpr (by push_cast; linarith [hscaled.pos])
    exact_mod_cast hfloor
  rw [r2]
  generalize (mathRound (Binary64.mul x 100) : ℚ) = z at hle hlt hnonneg
  have hlast : Near 1 (Binary64.div z 100) (z / 100) := (Near.refl (by positivity)).rounded
  have hlow := hlast.low
  have hhigh := hlast.high
  rw [pow_one] at hlow hhigh
  have hpos := roundoff_pos
  have hsmall := roundoff_lt
  have hupper : z / 100 * (1 + roundoff) ≤ (y * (1 + roundoff) ^ (k + 1) + 1 / 200) * (1 + roundoff) := by
    apply mul_le_mul_of_nonneg_right _ (by linarith)
    linarith [hscaled.high]
  have hlower : (y * (1 - roundoff) ^ (k + 1) - 1 / 200) * (1 - roundoff) ≤ z / 100 * (1 - roundoff) := by
    apply mul_le_mul_of_nonneg_right _ (le_of_lt one_sub_pos)
    linarith [hscaled.low]
  have hgain : y * (1 + roundoff) ^ (k + 1) * (1 + roundoff) = y + drift (k + 2) * y := by
    rw [drift]
    ring
  have hloss : y * (1 - drift (k + 2)) ≤ y * (1 - roundoff) ^ (k + 1) * (1 - roundoff) := by
    rw [mul_assoc, ← pow_succ]
    exact mul_le_mul_of_nonneg_left (one_sub_drift_le (k + 2)) h.nonneg
  rw [abs_le]
  constructor <;> linarith

end Exact

section Pass

variable {a a' : Aggregator} {x : Input} {es : List Entry} {mid : Dict ProcId Proc} {t : Tick}

def tickBytes (d : Dir) (p : Proc) : UInt64 := match d with | .tx => p.tickTx | .rx => p.tickRx

theorem feed_tick {c : Clock} {es : List Entry} {o : Option Proc} {q : Proc} (h : feed c o es = some q) (d : Dir) :
    tickBytes d q = (o.map (tickBytes d)).getD 0 + .ofNat (fedBytes d (es.map Entry.sample)) := by
  induction es generalizing o with
  | nil =>
      rw [feed, List.foldl_nil] at h
      subst h
      simp [fedBytes]
  | cons e es ih =>
      have hbook : tickBytes d (e.book c o) = (o.map (tickBytes d)).getD 0 + bytes d e.sample.stats := by
        cases o <;> cases d <;> rfl
      have hrest := ih (o := some (e.book c o)) h
      have hsum : fedBytes d ((e :: es).map Entry.sample) = (bytes d e.sample.stats).toNat + fedBytes d (es.map Entry.sample) := rfl
      rw [hrest, Option.map_some, Option.getD_some, hbook, hsum, UInt64.ofNat_add, UInt64.ofNat_toNat, UInt64.add_assoc]

theorem settles_tick {elapsed : Duration} {p q : Proc} (h : Settles elapsed p q) (d : Dir) :
    ProcView.rate d q.view = kbps elapsed (tickBytes d p) := by
  obtain ⟨r, hclose, rfl⟩ := h
  cases hclose with
  | keep => cases d <;> rfl
  | close t ht => cases d <;> rfl

theorem pass_rate (h : Pass a x es mid a' t) (hk : Keyed a.procs) {v : ProcView} (hv : v ∈ t.procs) (d : Dir) :
    ProcView.rate d v = kbps x.elapsed (.ofNat (fedBytes d (samplesOf (viewId v) x.flows))) := by
  obtain ⟨p, hp, rfl⟩ := (mem_tick_procs h hk v).mp hv
  have hmoved := h.moved (viewId p.view)
  rw [hp] at hmoved
  cases hfeed : feed x.clock ((a.procs.get? (viewId p.view)).map Proc.startTick) (entriesOf (viewId p.view) es) with
  | none =>
      rw [hfeed] at hmoved
      cases hmoved
  | some q =>
      rw [hfeed] at hmoved
      cases hmoved with
      | some hsettles =>
          have hstart : (((a.procs.get? (viewId p.view)).map Proc.startTick).map (tickBytes d)).getD 0 = 0 := by
            cases a.procs.get? (viewId p.view) <;> cases d <;> rfl
          rw [settles_tick hsettles, feed_tick hfeed, hstart, entriesOf_samples h, UInt64.zero_add]

theorem pass_listed (h : Pass a x es mid a' t) (hk : Keyed a.procs) {s : Sample} (hs : s ∈ x.flows) :
    ∃ v ∈ t.procs, viewId v = s.id := by
  rw [← h.samples] at hs
  obtain ⟨e, he, rfl⟩ := List.mem_map.mp hs
  have hne : entriesOf e.id es ≠ [] := List.ne_nil_of_mem (List.mem_filter.mpr ⟨he, by simp⟩)
  obtain ⟨q, hq⟩ := feed_isSome (c := x.clock) ((a.procs.get? e.id).map Proc.startTick) hne
  have hmoved := h.moved e.id
  rw [hq] at hmoved
  cases hmid : mid.get? e.id with
  | none =>
      rw [hmid] at hmoved
      cases hmoved
  | some p =>
      have hid := pass_keyed_mid h hk _ p hmid
      exact ⟨p.view, (mem_tick_procs h hk p.view).mpr ⟨p, hid ▸ hmid, rfl⟩, hid⟩

theorem fedBytes_eq (d : Dir) (xs : List Sample) : fedBytes d xs = total (fun s : Sample => (bytes d s.stats).toNat) xs := rfl

theorem total_rate {α : Type} (e : Duration) (size : α → ℕ) (l : List α) :
    total (fun a => rate e (size a)) l = rate e (total size l) := by
  induction l with
  | nil => simp [rate]
  | cons a l ih => rw [total_cons, total_cons, rate_add, ih]

theorem pass_bytes (h : Pass a x es mid a' t) (hk : Keyed a.procs) (d : Dir) :
    total (fun v => fedBytes d (samplesOf (viewId v) x.flows)) t.procs = fedBytes d x.flows := by
  have hkeys : ((t.procs.map viewId).map fun id => total (fun s : Sample => (bytes d s.stats).toNat) (ofKey Sample.id id x.flows)).sum =
      total (fun s : Sample => (bytes d s.stats).toNat) (ofKeys Sample.id (t.procs.map viewId) x.flows) :=
    sum_some_keys (pass_nodup h hk) x.flows
  have hall : ofKeys Sample.id (t.procs.map viewId) x.flows = x.flows := by
    apply ofKeys_eq_self
    intro s hs
    obtain ⟨v, hv, hid⟩ := pass_listed h hk hs
    exact List.mem_map.mpr ⟨v, hv, hid⟩
  rw [hall, List.map_map] at hkeys
  exact hkeys

theorem pass_flowBytes (h : Pass a x es mid a' t) (d : Dir) : total (FlowRec.bytes d) t.flows = fedBytes d x.flows := by
  rw [h.flows, ← h.samples, fedBytes_eq, total_map, total_map]
  cases d <;> rfl

theorem pass_flowRate (h : Pass a x es mid a' t) {f : FlowRec} (hf : f ∈ t.flows) (d : Dir) :
    Near 10 (FlowRec.rate d f) (rate x.elapsed (FlowRec.bytes d f)) := by
  rw [h.flows] at hf
  obtain ⟨e, -, rfl⟩ := List.mem_map.mp hf
  cases d with
  | tx => exact kbps_near _ _
  | rx => exact kbps_near _ _

end Pass

section Accuracy

def Close (k : ℕ) (shown real : ℚ) : Prop := |shown - real| ≤ 51 / 10000 + drift k * real

def labelled (d : Dir) (flows : List FlowRec) (app : String) : ℕ := total (FlowRec.bytes d) (ofKey FlowRec.app app flows)

/-- A tick as the charts get it, against the records that the kernel counted in its
interval. -/
structure Accurate (x : Input) (t : Tick) (b : Body) : Prop where
  nFlows : b.nFlows = x.flows.length
  whole : ∀ d, Close (t.procs.length + 12) (b.rate d) (rate x.elapsed (fedBytes d x.flows))
  nodup : (b.procs.map CompactProc.id).Nodup
  procs : ∀ p ∈ b.procs, ∃ id, p.id = idText id ∧
    ∀ d, Close 12 (CompactProc.rate d p) (rate x.elapsed (fedBytes d (samplesOf id x.flows)))
  listed : ∀ s ∈ x.flows, (∃ d, bytes d s.stats ≠ 0) → ∃ p ∈ b.procs, p.id = idText s.id
  apps : ∀ app a, b.apps.get? app = some a → ∀ d, Close (t.flows.length + 12) (side d a) (rate x.elapsed (labelled d t.flows app))
  shares : ∀ d, ((b.apps.entries.map Prod.fst).map (labelled d t.flows)).sum = fedBytes d x.flows

theorem Close.mono {k l : ℕ} {x y : ℚ} (h : Close k x y) (hkl : k ≤ l) (hy : 0 ≤ y) : Close l x y := by
  have hdrift : drift k ≤ drift l := sub_le_sub_right (one_add_pow_le hkl) 1
  exact h.trans (by linarith [mul_le_mul_of_nonneg_right hdrift hy])

theorem body_rate (t : Tick) (d : Dir) : (compactTick t).body.rate d = r2 (sumRounded (ProcView.rate d) t.procs) := by
  cases d <;> rfl

theorem compactProc_rate (v : ProcView) (d : Dir) : CompactProc.rate d (compactProc v) = r2 (ProcView.rate d v) := by
  cases d <;> rfl

theorem get?_appSums {flows : List FlowRec} {app : String} {a : ℚ × ℚ} (h : (appSums flows).get? app = some a) (d : Dir) :
    side d a = sumRounded (FlowRec.rate d) (ofKey FlowRec.app app flows) := by
  rw [appSums, get?_groupFold, collect_const] at h
  obtain ⟨-, hfold⟩ := Option.ite_none_left_eq_some.mp h
  rw [← Option.some.inj hfold]
  clear h hfold
  generalize ofKey FlowRec.app app flows = l
  induction l using List.reverseRecOn with
  | nil => cases d <;> rfl
  | append_singleton l f ih =>
      rw [List.foldl_append, sumRounded, List.foldl_append, ← sumRounded, ← ih]
      cases d <;> rfl

variable {a a' : Aggregator} {x : Input} {es : List Entry} {mid : Dict ProcId Proc} {t : Tick}

/-- No process counts as many bytes in an interval as its counter holds. -/
def Fits (x : Input) : Prop := ∀ id d, fedBytes d (samplesOf id x.flows) < 2 ^ 64

theorem pass_near (h : Pass a x es mid a' t) (hk : Keyed a.procs) (hfit : Fits x) {v : ProcView} (hv : v ∈ t.procs) (d : Dir) :
    Near 10 (ProcView.rate d v) (rate x.elapsed (fedBytes d (samplesOf (viewId v) x.flows))) := by
  have hnear := kbps_near x.elapsed (.ofNat (fedBytes d (samplesOf (viewId v) x.flows)))
  rw [UInt64.toNat_ofNat_of_lt' (hfit (viewId v) d)] at hnear
  rwa [pass_rate h hk hv]

theorem rate_pos (e : Duration) {n : ℕ} (hn : n ≠ 0) : 0 < rate e n := by
  have hpos := interval_pos e
  have hn' : (0 : ℚ) < n := Nat.cast_pos.mpr (Nat.pos_of_ne_zero hn)
  rw [rate]
  positivity

theorem pass_busy (h : Pass a x es mid a' t) (hk : Keyed a.procs) (hfit : Fits x) {v : ProcView} (hv : v ∈ t.procs) {d : Dir}
    (hbytes : fedBytes d (samplesOf (viewId v) x.flows) ≠ 0) : busy v = true := by
  have hlow := (pass_near h hk hfit hv d).low
  have hpos : 0 < ProcView.rate d v := (mul_pos (rate_pos _ hbytes) (pow_pos one_sub_pos 10)).trans_le hlow
  rw [busy, Bool.or_eq_true, decide_eq_true_iff, decide_eq_true_iff]
  cases d with
  | tx => exact .inl hpos
  | rx => exact .inr hpos

theorem pass_accurate (h : Pass a x es mid a' t) (hk : Keyed a.procs) (hfit : Fits x) : Accurate x t (compactTick t).body where
  nFlows := by
    rw [← h.samples, List.length_map]
    exact (congrArg List.length h.flows).trans (List.length_map _)
  whole d := by
    have hsum := sumRounded_near t.procs fun v hv => pass_near h hk hfit hv d
    rw [total_rate x.elapsed fun v => fedBytes d (samplesOf (viewId v) x.flows), pass_bytes h hk] at hsum
    have herror := r2_error hsum
    rw [Close, body_rate, Nat.add_comm t.procs.length 12]
    rwa [Nat.add_right_comm] at herror
  nodup := by
    have hids : (t.procs.filter busy).map viewId |>.Nodup := (pass_nodup h hk).sublist (List.filter_sublist.map viewId)
    have hmap : (compactTick t).body.procs.map CompactProc.id = ((t.procs.filter busy).map viewId).map idText := by
      rw [List.map_map]
      exact List.map_map
    rw [hmap]
    exact hids.map idText_injective
  procs p hp := by
    obtain ⟨v, hv, rfl⟩ := List.mem_map.mp hp
    refine ⟨viewId v, rfl, fun d => ?_⟩
    rw [Close, compactProc_rate]
    exact r2_error (pass_near h hk hfit (List.mem_filter.mp hv).1 d)
  listed s hs := by
    rintro ⟨d, hbytes⟩
    obtain ⟨v, hv, hid⟩ := pass_listed h hk hs
    have hsample : s ∈ samplesOf (viewId v) x.flows := List.mem_filter.mpr ⟨hs, by simp [hid]⟩
    have hsum : fedBytes d (samplesOf (viewId v) x.flows) ≠ 0 := by
      intro hzero
      have hterm := List.sum_eq_zero_iff.mp hzero _ (List.mem_map_of_mem hsample)
      exact hbytes (UInt64.toNat_inj.mp hterm)
    refine ⟨compactProc v, List.mem_map_of_mem (List.mem_filter.mpr ⟨hv, pass_busy h hk hfit hv hsum⟩), ?_⟩
    rw [compactProc, hid]
  apps app b hb d := by
    have hb' : ((appSums t.flows).get? app).map (fun a => (r2 a.1, r2 a.2)) = some b := by
      rwa [compactTick, Dict.get?_mapVals] at hb
    obtain ⟨sums, hsums, rfl⟩ := Option.map_eq_some_iff.mp hb'
    have hside : side d (r2 sums.1, r2 sums.2) = r2 (side d sums) := by cases d <;> rfl
    have hnear : Near (10 + (ofKey FlowRec.app app t.flows).length) (side d sums) (rate x.elapsed (labelled d t.flows app)) := by
      rw [get?_appSums hsums, labelled, ← total_rate]
      exact sumRounded_near _ fun f hf => pass_flowRate h (mem_ofKey.mp hf).1 d
    have hlength : (ofKey FlowRec.app app t.flows).length ≤ t.flows.length := List.length_filter_le _ _
    have hclose : Close (10 + (ofKey FlowRec.app app t.flows).length + 2) (side d (r2 sums.1, r2 sums.2))
        (rate x.elapsed (labelled d t.flows app)) := by
      rw [Close, hside]
      exact r2_error hnear
    exact hclose.mono (by omega) (rate_nonneg _ _)
  shares d := by
    have hkeys : (compactTick t).body.apps.entries.map Prod.fst = (appSums t.flows).entries.map Prod.fst := by
      rw [compactTick, Dict.mapVals, List.map_map]
      rfl
    have hsum : (((appSums t.flows).entries.map Prod.fst).map (labelled d t.flows)).sum = _ :=
      sum_some_keys (appSums t.flows).nodup t.flows
    rw [hkeys, hsum, ofKeys_eq_self, pass_flowBytes h]
    intro f hf
    exact mem_keys_groupFold.mpr (List.mem_map_of_mem hf)

/-- Every tick of every run of the collector reaches the charts as it was counted, but
for rounding. -/
theorem live_rates_accurate {clkTck : ClkTck} {guard : Source → Input → Prop} {xs : List Input} {s : Source}
    (hrun : Run Source.step guard (.start clkTck) xs s) :
    List.Forall₂ (fun x t => Fits x → Accurate x t (compactTick t).body) xs s.ticks := by
  have hall := hrun.history (P := fun xs s => s.Ok ∧ List.Forall₂ (fun x t => Fits x → Accurate x t (compactTick t).body) xs s.ticks)
    ⟨start_ok clkTck, .nil⟩ fun xs s x s' hs _ hstep => ?_
  · exact hall.2
  · obtain ⟨hok, hticks⟩ := hs
    refine ⟨step_ok hok hstep, ?_⟩
    obtain ⟨⟨agg, pub⟩, hpub, rfl⟩ := Option.map_eq_some_iff.mp hstep
    obtain ⟨es, hpass⟩ := publish_pass hpub
    have hlog : (⟨agg, s.log ++ [pub]⟩ : Source).ticks = s.ticks ++ [pub.tick] := by
      simp only [Source.ticks, List.map_append, List.map_cons, List.map_nil]
    rw [hlog]
    exact List.rel_append hticks (.cons (pass_accurate hpass hok.keyed) .nil)

def oneSecond : Input := sampleInput (sampleClock 1000) [sampleFlow 5 1000 20, sampleFlow 5 250 0] []

theorem oneSecond_runs : (exec Source.step (.start sampleTck) [oneSecond]).isSome = true := by decide +kernel

def oneSource : Source := (exec Source.step (.start sampleTck) [oneSecond]).get oneSecond_runs

theorem oneSecond_fits : Fits oneSecond := by
  intro id d
  by_cases hid : id = (7, 5)
  · subst hid
    cases d <;> decide +kernel
  · have hnone : samplesOf id oneSecond.flows = [] := by
      apply List.filter_eq_nil_iff.mpr
      intro s hs
      have hsample : s.id = (7, 5) := by
        obtain rfl | hs := List.mem_cons.mp hs
        · rfl
        · rw [List.mem_singleton.mp hs]
          rfl
      simpa [hsample] using Ne.symm hid
    rw [hnone]
    exact Nat.two_pow_pos 64

theorem live_rates_accurate_sample : ∃ t, oneSource.ticks = [t] ∧ Accurate oneSecond t (compactTick t).body ∧
    (compactTick t).body.txKbps = 10 := by
  have hall := live_rates_accurate (Run.of_exec (Option.some_get oneSecond_runs).symm)
  have hrate : oneSource.ticks.map (fun t => (compactTick t).body.txKbps) = [10] := by decide +kernel
  change List.Forall₂ _ _ oneSource.ticks at hall
  cases hticks : oneSource.ticks with
  | nil =>
      rw [hticks] at hall
      cases hall
  | cons t ts =>
      rw [hticks] at hall hrate
      obtain ⟨hfirst, hrest⟩ := List.forall₂_cons.mp hall
      cases hrest
      exact ⟨t, rfl, hfirst oneSecond_fits, List.head_eq_of_cons_eq hrate⟩

end Accuracy

end NetWatch.Live.Rates
