import NetWatch.Collector.Ingest
import NetWatch.Lib.WordSum

namespace NetWatch.Collector.Conservation

open Kernel.Types Procfs Model Ingest Lib.Assoc Lib.SortDedup Lib.Runs
open scoped UInt64.CommRing

inductive Dir
  | tx
  | rx

def bytes (d : Dir) (s : FlowStats) : UInt64 := match d with | .tx => s.txBytes | .rx => s.rxBytes

def total (d : Dir) (v : ProcView) : UInt64 := match d with | .tx => v.txTotal | .rx => v.rxTotal

def share (d : Dir) (u : UInt64 × UInt64) : UInt64 := match d with | .tx => u.1 | .rx => u.2

/-- A record as the aggregator counted it: its process, the destination the
published flow names, and its counters. -/
structure Record where
  id : ProcId
  dest : DestKey
  stats : FlowStats
  deriving DecidableEq

def records (x : Input) (t : Tick) : List Record :=
  List.zipWith (fun s r => ⟨s.id, destKey s.key r.app, s.stats⟩) x.flows t.flows

def sumBytes (d : Dir) (rs : List Record) : Nat := (rs.map fun r => (bytes d r.stats).toNat).sum

def ofDest (dk : DestKey) (rs : List Record) : List Record := rs.filter fun r => r.dest = dk

def destTotals (rs : List Record) (dk : DestKey) : UInt64 × UInt64 :=
  (.ofNat (sumBytes .tx (ofDest dk rs)), .ofNat (sumBytes .rx (ofDest dk rs)))

/-- The aggregator with the records of each process since its entry was last
created. -/
structure Trail where
  agg : Aggregator
  log : ProcId → List Record

def Trail.start (clkTck : ClkTck) : Trail := ⟨.new clkTck, fun _ => []⟩

def Trail.logAfter (tr : Trail) (x : Input) (t : Tick) (id : ProcId) : List Record :=
  (if (tr.agg.procs.get? id).isSome then tr.log id else []) ++ (records x t).filter fun r => r.id = id

def Trail.step (tr : Trail) (x : Input) : Option Trail :=
  (ingest tr.agg x).map fun (a', t) => ⟨a', tr.logAfter x t⟩

structure Booked (rs : List Record) (p : Proc) : Prop where
  total : ∀ d, total d p.view = .ofNat (sumBytes d rs)
  dests : ∀ dk, p.dests.get? dk = if dk ∈ rs.map Record.dest then some (destTotals rs dk) else none
  spread : ∀ d, (p.dests.values.map (share d)).sum = Conservation.total d p.view
  bounded : ∀ d, (p.dests.values.map fun u => (share d u).toNat).sum ≤ sumBytes d rs

theorem sumBytes_append (d : Dir) (rs rs' : List Record) :
    sumBytes d (rs ++ rs') = sumBytes d rs + sumBytes d rs' := by
  simp only [sumBytes, List.map_append, List.sum_append]

theorem destTotals_snoc (rs : List Record) (r : Record) (dk : DestKey) :
    destTotals (rs ++ [r]) dk = if dk = r.dest
      then ((destTotals rs dk).1 + r.stats.txBytes, (destTotals rs dk).2 + r.stats.rxBytes)
      else destTotals rs dk := by
  have hof : ofDest dk (rs ++ [r]) = ofDest dk rs ++ if dk = r.dest then [r] else [] := by
    simp only [ofDest, List.filter_append]
    by_cases hdk : dk = r.dest
    · simp [hdk]
    · simp [hdk, Ne.symm hdk]
  simp only [destTotals, hof, sumBytes_append]
  split_ifs with hdk
  · simp [sumBytes, bytes, UInt64.ofNat_add]
  · simp [sumBytes]

namespace Booked

variable {rs : List Record} {p : Proc}

theorem fresh (c : Clock) (k : FlowKey) (s : FlowStats) (cmdline : String) :
    Booked [] (Proc.fresh c k s cmdline) where
  total d := by cases d <;> rfl
  dests _ := rfl
  spread d := by cases d <;> rfl
  bounded _ := Nat.le_refl 0

theorem getD_dests (h : Booked rs p) (dk : DestKey) : (p.dests.get? dk).getD (0, 0) = destTotals rs dk := by
  rw [h.dests dk]
  split_ifs with hdk
  · rfl
  · have hnil : ofDest dk rs = [] := by
      apply List.filter_eq_nil_iff.mpr
      intro r hr
      have hne : r.dest ≠ dk := fun he => hdk (he ▸ List.mem_map_of_mem hr)
      simpa using hne
    simp [destTotals, hnil, sumBytes]

theorem record (h : Booked rs p) (now : Int) (r : Record) :
    Booked (rs ++ [r]) (p.record now r.stats r.dest) := by
  have htotal : ∀ d, Conservation.total d (p.record now r.stats r.dest).view =
      Conservation.total d p.view + bytes d r.stats := by
    intro d
    cases d <;> rfl
  have hshare : ∀ d, share d ((destTotals rs r.dest).1 + r.stats.txBytes, (destTotals rs r.dest).2 + r.stats.rxBytes) =
      share d (destTotals rs r.dest) + bytes d r.stats := by
    intro d
    cases d <;> rfl
  have hzero : ∀ d, share d (0, 0) = 0 := by
    intro d
    cases d <;> rfl
  have hdests : (p.record now r.stats r.dest).dests = p.dests.insert r.dest
      ((destTotals rs r.dest).1 + r.stats.txBytes, (destTotals rs r.dest).2 + r.stats.rxBytes) := by
    simp only [Proc.record, h.getD_dests]
  refine ⟨?_, ?_, ?_, ?_⟩
  · intro d
    rw [htotal, h.total, sumBytes_append, UInt64.ofNat_add]
    simp [sumBytes]
  · intro dk
    rw [hdests, Dict.get?_insert, destTotals_snoc, h.dests]
    by_cases hdk : dk = r.dest
    · simp [hdk]
    · simp [hdk]
  · intro d
    have hsum := Dict.sum_insert (share d) p.dests r.dest
      ((destTotals rs r.dest).1 + r.stats.txBytes, (destTotals rs r.dest).2 + r.stats.rxBytes)
    have hold := Option.getD_map (share d) (0, 0) (p.dests.get? r.dest)
    rw [hzero, h.getD_dests] at hold
    rw [hold, hshare, h.spread] at hsum
    rw [hdests, htotal]
    have hcancel : ∀ a b s t : UInt64, a + s = b + (s + t) → a = b + t := by
      intro a b s t he
      rw [add_comm s t, ← add_assoc] at he
      exact add_right_cancel he
    exact hcancel _ _ _ _ hsum
  · intro d
    have hsum := Dict.sum_insert (fun u => (share d u).toNat) p.dests r.dest
      ((destTotals rs r.dest).1 + r.stats.txBytes, (destTotals rs r.dest).2 + r.stats.rxBytes)
    have hold := Option.getD_map (fun u => (share d u).toNat) (0, 0) (p.dests.get? r.dest)
    rw [hzero, UInt64.toNat_zero, h.getD_dests] at hold
    have hle : (share d (destTotals rs r.dest) + bytes d r.stats).toNat ≤
        (share d (destTotals rs r.dest)).toNat + (bytes d r.stats).toNat := by
      rw [UInt64.toNat_add]
      exact Nat.mod_le _ _
    have hb := h.bounded d
    have hone : sumBytes d [r] = (bytes d r.stats).toNat := by simp [sumBytes]
    rw [hold, hshare] at hsum
    rw [hdests, sumBytes_append, hone]
    omega

theorem of_same {q : Proc} (h : Booked rs p) (htotal : ∀ d, Conservation.total d q.view = Conservation.total d p.view)
    (hdests : q.dests = p.dests) : Booked rs q where
  total d := (htotal d).trans (h.total d)
  dests := hdests ▸ h.dests
  spread d := by rw [hdests, h.spread, htotal]
  bounded := hdests ▸ h.bounded

theorem startTick (h : Booked rs p) : Booked rs p.startTick :=
  h.of_same (fun d => by cases d <;> rfl) rfl

theorem settles {q : Proc} {elapsed : Duration} (h : Booked rs p) (hs : Settles elapsed p q) : Booked rs q := by
  obtain ⟨r, hc, rfl⟩ := hs
  cases hc with
  | keep => exact h.of_same (fun d => by cases d <;> rfl) rfl
  | close t ht => exact h.of_same (fun d => by cases d <;> rfl) rfl

/-- While the bytes of a process fit in a word, its total and the totals of its
destinations are exact. -/
theorem exact (h : Booked rs p) {d : Dir} (hlt : sumBytes d rs < 2 ^ 64) :
    (Conservation.total d p.view).toNat = sumBytes d rs ∧
      (p.dests.values.map fun u => (share d u).toNat).sum = sumBytes d rs := by
  have ht : (Conservation.total d p.view).toNat = sumBytes d rs := by
    rw [h.total, UInt64.toNat_ofNat']
    exact Nat.mod_eq_of_lt hlt
  refine ⟨ht, ?_⟩
  have hmod := Lib.WordSum.toNat_sum (p.dests.values.map (share d))
  have hb := h.bounded d
  rw [h.spread, ht, List.map_map, Function.comp_def, Nat.mod_eq_of_lt (lt_of_le_of_lt hb hlt)] at hmod
  exact hmod.symm

end Booked

def Entry.counted (e : Entry) : Record := ⟨e.id, e.dest, e.sample.stats⟩

theorem feed_booked {c : Clock} {es : List Entry} {rs : List Record} {o : Option Proc} {q : Proc}
    (hsome : ∀ p, o = some p → Booked rs p) (hnone : o = none → rs = [])
    (h : feed c o es = some q) : Booked (rs ++ es.map Entry.counted) q := by
  induction es generalizing rs o with
  | nil => simpa using hsome q h
  | cons e es ih =>
      have hbook : Booked (rs ++ [Entry.counted e]) (e.book c o) := by
        cases o with
        | none => rw [hnone rfl]; exact (Booked.fresh c _ _ _).record c.wallMs (Entry.counted e)
        | some p => exact (hsome p rfl).record c.wallMs (Entry.counted e)
      have hrest : Booked ((rs ++ [Entry.counted e]) ++ es.map Entry.counted) q :=
        ih (fun p hp => Option.some.inj hp ▸ hbook) nofun h
      simpa using hrest

theorem feed_isSome {c : Clock} {es : List Entry} (o : Option Proc) (h : es ≠ []) : ∃ q, feed c o es = some q := by
  induction es generalizing o with
  | nil => exact absurd rfl h
  | cons e es ih =>
      cases es with
      | nil => exact ⟨_, rfl⟩
      | cons e' es => exact ih (some (e.book c o)) (List.cons_ne_nil e' es)

theorem touchedOrder_injective : Function.Injective touchedOrder := by
  rintro ⟨⟨pid, start⟩, ⟨proto, app, raddr, rport⟩⟩ ⟨⟨pid', start'⟩, ⟨proto', app', raddr', rport'⟩⟩ h
  simp only [touchedOrder, EmbeddingLike.apply_eq_iff_eq, Prod.mk.injEq, UInt32.toNat_inj, UInt64.toNat_inj,
    UInt8.toNat_inj, UInt16.toNat_inj] at h
  obtain ⟨rfl, rfl, rfl, rfl, hraddr, rfl⟩ := h
  have hinj : Function.Injective UInt8.toNat := fun _ _ => UInt8.toNat_inj.mp
  rw [Vector.toList_inj.mp (List.map_injective_iff.mpr hinj hraddr)]

section Pass

variable {tr : Trail} {x : Input} {es : List Entry} {mid : Dict ProcId Proc} {a' : Aggregator} {t : Tick}

theorem records_pass (h : Pass tr.agg x es mid a' t) : records x t = es.map Entry.counted := by
  rw [records, ← h.samples, h.flows, List.zipWith_map, List.zipWith_self]
  rfl

theorem logAfter_pass (h : Pass tr.agg x es mid a' t) (id : ProcId) :
    tr.logAfter x t id = (if (tr.agg.procs.get? id).isSome then tr.log id else []) ++
      (entriesOf id es).map Entry.counted := by
  rw [Trail.logAfter, records_pass h, List.filter_map]
  rfl

def Trail.Ok (tr : Trail) : Prop := ∀ id p, tr.agg.procs.get? id = some p → Booked (tr.log id) p

theorem pass_booked (htr : tr.Ok) (h : Pass tr.agg x es mid a' t) {id : ProcId} {p : Proc}
    (hp : mid.get? id = some p) : Booked (tr.logAfter x t id) p := by
  have hmoved := h.moved id
  rw [hp] at hmoved
  cases hfeed : feed x.clock ((tr.agg.procs.get? id).map Proc.startTick) (entriesOf id es) with
  | none => rw [hfeed] at hmoved; cases hmoved
  | some q =>
      rw [hfeed] at hmoved
      cases hmoved with
      | some hs =>
          refine Booked.settles ?_ hs
          rw [logAfter_pass h]
          refine feed_booked ?_ ?_ hfeed
          · intro r hr
            obtain ⟨r', hr', rfl⟩ := Option.map_eq_some_iff.mp hr
            rw [hr', Option.isSome_some, if_pos rfl]
            exact (htr id r' hr').startTick
          · intro hn
            rw [Option.map_eq_none_iff.mp hn]
            rfl

theorem pass_ok (htr : tr.Ok) (h : Pass tr.agg x es mid a' t) : Trail.Ok ⟨a', tr.logAfter x t⟩ := by
  intro id p hp
  rcases h.kept id with hk | ⟨hk, -⟩
  · exact pass_booked htr h (hk ▸ hp)
  · exact absurd (hk.symm.trans hp) nofun

def destViewOf (rs : List Record) (k : ProcId × DestKey) : DestView :=
  ⟨k.1.1, k.1.2, Classify.transport k.2.proto, k.2.app, k.2.raddr, k.2.rport,
    (destTotals rs k.2).1, (destTotals rs k.2).2⟩

theorem dest_mem_logAfter (h : Pass tr.agg x es mid a' t) {e : Entry} (he : e ∈ es) :
    e.dest ∈ (tr.logAfter x t e.id).map Record.dest := by
  have hmem : e ∈ entriesOf e.id es := List.mem_filter.mpr ⟨he, by simp⟩
  rw [logAfter_pass h]
  exact List.mem_map.mpr ⟨Entry.counted e, List.mem_append_right _ (List.mem_map_of_mem hmem), rfl⟩

theorem destView_pass (htr : tr.Ok) (h : Pass tr.agg x es mid a' t) {e : Entry} (he : e ∈ es) :
    destView mid e.touched = some (destViewOf (tr.logAfter x t e.id) e.touched) := by
  have hmem : e ∈ entriesOf e.id es := List.mem_filter.mpr ⟨he, by simp⟩
  obtain ⟨q, hq⟩ := feed_isSome (c := x.clock) ((tr.agg.procs.get? e.id).map Proc.startTick)
    (List.ne_nil_of_mem hmem)
  have hmoved := h.moved e.id
  rw [hq] at hmoved
  cases hmid : mid.get? e.id with
  | none => rw [hmid] at hmoved; cases hmoved
  | some p =>
      have hd := (pass_booked htr h hmid).dests e.dest
      rw [if_pos (dest_mem_logAfter h he)] at hd
      simp only [destView, Entry.touched, hmid, hd, Option.bind_eq_bind, Option.bind_some]
      rfl

end Pass

theorem start_ok (clkTck : ClkTck) : (Trail.start clkTck).Ok := by
  intro id p hp
  exact absurd ((Dict.get?_empty id).symm.trans hp) nofun

theorem run_ok {clkTck : ClkTck} {xs : List Input} {tr : Trail} (h : Run Trail.step Free (.start clkTck) xs tr) :
    tr.Ok := by
  refine h.invariant (start_ok clkTck) ?_
  intro tr x tr' htr _ hx
  obtain ⟨⟨a', t⟩, hin, rfl⟩ := Option.map_eq_some_iff.mp hx
  obtain ⟨es, mid, hpass⟩ := ingest_pass hin
  exact pass_ok htr hpass

/-- After every call of `ingest`, the total of each process in memory is the sum
of its destinations and of its records since its entry was created, the tick has
one flow for each record with the bytes of that record, and it lists each touched
destination once with its cumulative totals. -/
theorem ingest_conserves {clkTck : ClkTck} {xs : List Input} {tr : Trail} {x : Input} {a' : Aggregator} {t : Tick}
    (h : Run Trail.step Free (.start clkTck) xs tr) (hx : ingest tr.agg x = some (a', t)) :
    (∀ id p, a'.procs.get? id = some p → ∀ d, sumBytes d (tr.logAfter x t id) < 2 ^ 64 →
      (total d p.view).toNat = sumBytes d (tr.logAfter x t id) ∧
      (total d p.view).toNat = (p.dests.values.map fun u => (share d u).toNat).sum) ∧
    t.flows.map (fun r => (r.pid, r.startNs, r.txBytes, r.rxBytes)) =
      x.flows.map (fun s => (s.key.tgid, s.stats.startNs, s.stats.txBytes, s.stats.rxBytes)) ∧
    ∃ keys : List (ProcId × DestKey), keys.Nodup ∧ (∀ k, k ∈ keys ↔ ∃ r ∈ records x t, (r.id, r.dest) = k) ∧
      t.dests = keys.map (fun k => destViewOf (tr.logAfter x t k.1) k) ∧
      ∀ k ∈ keys, ∀ p, a'.procs.get? k.1 = some p →
        p.dests.get? k.2 = some (destTotals (tr.logAfter x t k.1) k.2) := by
  have htr := run_ok h
  obtain ⟨es, mid, hpass⟩ := ingest_pass hx
  have hok := pass_ok htr hpass
  have hkeys : ∀ k, k ∈ sortDedup touchedOrder (es.map Entry.touched) ↔ ∃ e ∈ es, e.touched = k := by
    intro k
    rw [mem_sortDedup, List.mem_map]
  refine ⟨?_, ?_, sortDedup touchedOrder (es.map Entry.touched), nodup_sortDedup touchedOrder_injective _, ?_, ?_, ?_⟩
  · intro id p hp d hlt
    have hexact := (hok id p hp).exact hlt
    exact ⟨hexact.1, hexact.1.trans hexact.2.symm⟩
  · rw [hpass.flows, ← hpass.samples, List.map_map, List.map_map]
    rfl
  · intro k
    rw [hkeys, records_pass hpass]
    simp only [List.mem_map, exists_exists_and_eq_and]
    rfl
  · rw [hpass.dests]
    have hview : ∀ k ∈ sortDedup touchedOrder (es.map Entry.touched),
        destView mid k = some (destViewOf (tr.logAfter x t k.1) k) := by
      intro k hk
      obtain ⟨e, he, rfl⟩ := (hkeys k).mp hk
      exact destView_pass htr hpass he
    rw [List.filterMap_congr hview, List.filterMap_eq_map']
  · intro k hk p hp
    obtain ⟨e, he, rfl⟩ := (hkeys k).mp hk
    have hd := (hok e.id p hp).dests e.dest
    rwa [if_pos (dest_mem_logAfter hpass he)] at hd

def sampleTck : ClkTck := ⟨100, by decide, by decide⟩

def sampleClock (ms : Nat) : Clock := ⟨ms % 2 ^ 62, 0, Int.emod_nonneg _ (by decide), Int.emod_lt_of_pos _ (by decide)⟩

def sampleFlow (start tx rx : UInt64) : Sample where
  key := ⟨7, 443, 50000, Vector.replicate 16 0, 2, 6⟩
  stats := ⟨tx, rx, 1, 1, start, Vector.replicate 16 0, Vector.replicate 8 0, 0, 1000⟩
  fs := .gone

def sampleInput (c : Clock) (flows : List Sample) (exits : List ExitEvent) : Input :=
  ⟨c, flows, exits, ⟨1, 0, by decide⟩, 0, fun _ => .gone⟩

def sampleFirst : Input := sampleInput (sampleClock 1000) [sampleFlow 5 10 20, sampleFlow 5 1 2] []

def sampleSecond : Input := sampleInput (sampleClock 2000) [sampleFlow 5 30 40] []

theorem sampleFirst_runs : (exec Trail.step (.start sampleTck) [sampleFirst]).isSome = true := by decide +kernel

def sampleTrail : Trail := (exec Trail.step (.start sampleTck) [sampleFirst]).get sampleFirst_runs

theorem sampleSecond_runs : (ingest sampleTrail.agg sampleSecond).isSome = true := by decide +kernel

def sampleOut : Aggregator × Tick := (ingest sampleTrail.agg sampleSecond).get sampleSecond_runs

theorem ingest_conserves_sample : ∃ p, sampleOut.1.procs.get? (7, 5) = some p ∧ (total .tx p.view).toNat = 41 := by
  obtain ⟨p, hp⟩ : ∃ p, sampleOut.1.procs.get? (7, 5) = some p := Option.isSome_iff_exists.mp (by decide +kernel)
  have hall := ingest_conserves (Run.of_exec (Option.some_get sampleFirst_runs).symm)
    (Option.some_get sampleSecond_runs).symm
  exact ⟨p, hp, (hall.1 _ p hp .tx (by decide +kernel)).1.trans (by decide +kernel)⟩

end NetWatch.Collector.Conservation
