import NetWatch.Collector.Views

namespace NetWatch.Collector.Ticks

open Kernel.Types Procfs Model Ingest Conservation Views Lib.Assoc Lib.Runs

structure Published where
  tick : Tick
  procs : Dict ProcId Proc

def publish (a : Aggregator) (x : Input) : Option (Aggregator × Published) :=
  (gather a x).map fun l =>
    let m := settle a x l
    (m.prune x.clock.wallMs, ⟨buildTick x l m.procs, m.procs⟩)

theorem ingest_eq_publish (a : Aggregator) (x : Input) :
    ingest a x = (publish a x).map fun r => (r.1, r.2.tick) := by
  rw [ingest, publish, Option.map_map]
  rfl

theorem publish_pass {a a' : Aggregator} {x : Input} {pub : Published} (h : publish a x = some (a', pub)) :
    ∃ es, Pass a x es pub.procs a' pub.tick := by
  obtain ⟨l, hl, hout⟩ := Option.map_eq_some_iff.mp h
  obtain ⟨rfl, rfl⟩ := Prod.mk.inj hout
  exact gather_pass hl

/-- The aggregator with everything it has published, oldest first. -/
structure Source where
  agg : Aggregator
  log : List Published

def Source.start (clkTck : ClkTck) : Source := ⟨.new clkTck, []⟩

def Source.step (s : Source) (x : Input) : Option Source :=
  (publish s.agg x).map fun r => ⟨r.1, s.log ++ [r.2]⟩

def Source.ticks (s : Source) : List Tick := s.log.map Published.tick

theorem step_ingest {s s' : Source} {x : Input} (h : s.step x = some s') :
    ∃ r, ingest s.agg x = some r ∧ s'.agg = r.1 ∧ s'.ticks = s.ticks ++ [r.2] := by
  obtain ⟨r, hpub, rfl⟩ := Option.map_eq_some_iff.mp h
  refine ⟨(r.1, r.2.tick), ?_, rfl, ?_⟩
  · rw [ingest_eq_publish, hpub]
    rfl
  · simp only [Source.ticks, List.map_append, List.map_cons, List.map_nil]

/-- The wall clock does not go back. -/
def Onward (s : Source) (x : Input) : Prop := ∀ t ∈ s.ticks, t.tsMs ≤ x.clock.wallMs

/-- Two successive ticks: what the second one shows without the mark that it
changed is what the first one showed, and no process is missing in it that had
not ended. -/
structure Succeeds (t t' : Tick) : Prop where
  unchanged : ∀ v ∈ t'.procs, v.changed = false → ∃ w ∈ t.procs, v = { w with changed := false }
  present : ∀ w ∈ t.procs, w.endedMs = none → ∃ v ∈ t'.procs, viewId v = viewId w

/-- What every sequence of ticks of the aggregator is like. -/
structure Coherent (ts : List Tick) : Prop where
  nodup : ∀ t ∈ ts, (t.procs.map viewId).Nodup
  first : ∀ t, ts.head? = some t → ∀ v ∈ t.procs, v.changed = true
  chain : ts.IsChain Succeeds

/-- The entries in memory are those of the last tick, but for ended ones. -/
structure Source.Ok (s : Source) : Prop where
  keyed : Keyed s.agg.procs
  shown : ∀ id p, s.agg.procs.get? id = some p → ∃ t, s.ticks.getLast? = some t ∧ p.view ∈ t.procs
  kept : ∀ t, s.ticks.getLast? = some t → ∀ w ∈ t.procs, w.endedMs = none → ∃ p, s.agg.procs.get? (viewId w) = some p
  coherent : Coherent s.ticks

section Pass

variable {a a' : Aggregator} {x : Input} {es : List Entry} {mid : Dict ProcId Proc} {t : Tick}

theorem pass_nodup (h : Pass a x es mid a' t) (hk : Keyed a.procs) : (t.procs.map viewId).Nodup := by
  have hkeys : t.procs.map viewId = mid.entries.map Prod.fst := by
    rw [h.procs, Dict.values, List.map_map, List.map_map]
    apply List.map_congr_left
    rintro ⟨id, p⟩ hp
    exact pass_keyed_mid h hk id p ((mid.mem_iff_get? id p).mp hp)
  rw [hkeys]
  exact mid.nodup

theorem pass_succeeds {s : Source} (hs : s.Ok) (h : Pass s.agg x es mid a' t) {t₀ : Tick}
    (hlast : s.ticks.getLast? = some t₀) : Succeeds t₀ t := by
  constructor
  · intro v hv hc
    obtain ⟨q, hq, rfl⟩ := (mem_tick_procs h hs.keyed v).mp hv
    obtain ⟨p, hp, hview⟩ := pass_unchanged h hq hc
    obtain ⟨t₁, ht₁, hmem⟩ := hs.shown _ p hp
    obtain rfl := Option.some.inj (ht₁.symm.trans hlast)
    exact ⟨p.view, hmem, hview⟩
  · intro w hw hopen
    obtain ⟨p, hp⟩ := hs.kept t₀ hlast w hw hopen
    obtain ⟨q, hq, -⟩ := pass_present h hp
    have hid := pass_keyed_mid h hs.keyed _ q hq
    exact ⟨q.view, (mem_tick_procs h hs.keyed q.view).mpr ⟨q, hid ▸ hq, rfl⟩, hid⟩

theorem pass_first {s : Source} (hs : s.Ok) (h : Pass s.agg x es mid a' t) (hnone : s.ticks = []) :
    ∀ v ∈ t.procs, v.changed = true := by
  intro v hv
  obtain ⟨q, hq, rfl⟩ := (mem_tick_procs h hs.keyed v).mp hv
  by_contra hc
  obtain ⟨p, hp, -⟩ := pass_unchanged h hq (Bool.eq_false_iff.mpr hc)
  obtain ⟨t₁, ht₁, -⟩ := hs.shown _ p hp
  rw [hnone] at ht₁
  cases ht₁

/-- A process is forgotten only after it has ended. -/
theorem pass_kept (h : Pass a x es mid a' t) (hk : Keyed a.procs) {w : ProcView} (hw : w ∈ t.procs)
    (hopen : w.endedMs = none) : ∃ p, a'.procs.get? (viewId w) = some p := by
  obtain ⟨q, hq, rfl⟩ := (mem_tick_procs h hk w).mp hw
  rcases h.kept (viewId q.view) with hkept | ⟨-, p, hp, hret⟩
  · exact ⟨q, hkept.trans hq⟩
  · obtain rfl := Option.some.inj (hp.symm.trans hq)
    rw [retained, hopen] at hret
    cases hret

end Pass

theorem coherent_snoc {ts : List Tick} {t : Tick} (h : Coherent ts) (hnodup : (t.procs.map viewId).Nodup)
    (hfirst : ts = [] → ∀ v ∈ t.procs, v.changed = true)
    (hnext : ∀ t₀, ts.getLast? = some t₀ → Succeeds t₀ t) : Coherent (ts ++ [t]) where
  nodup := by
    intro u hu
    rcases List.mem_append.mp hu with hu | hu
    · exact h.nodup u hu
    · rw [List.mem_singleton.mp hu]
      exact hnodup
  first := by
    intro u hu
    cases ts with
    | nil => rw [← Option.some.inj hu]; exact hfirst rfl
    | cons t₀ ts => exact h.first u hu
  chain := by
    refine h.chain.append (List.isChain_singleton t) ?_
    intro t₀ ht₀ u hu
    rw [← Option.some.inj hu]
    exact hnext t₀ ht₀

theorem coherent_last {ts : List Tick} {t₀ t : Tick} (h : Coherent (ts ++ [t₀] ++ [t])) : Succeeds t₀ t := by
  have hchain := h.chain
  rw [List.append_assoc] at hchain
  exact List.isChain_pair.mp hchain.right_of_append

theorem coherent_init {ts : List Tick} {t : Tick} (h : Coherent (ts ++ [t])) : Coherent ts where
  nodup u hu := h.nodup u (List.mem_append_left _ hu)
  first u hu := h.first u (by cases ts with | nil => cases hu | cons t₀ ts => exact hu)
  chain := h.chain.left_of_append

theorem coherent_initial {ts us : List Tick} (h : Coherent us) (hp : ts <+: us) : Coherent ts where
  nodup t ht := h.nodup t (hp.subset ht)
  first t ht := h.first t (by obtain ⟨vs, rfl⟩ := hp; cases ts with | nil => cases ht | cons t₀ ts => exact ht)
  chain := by
    obtain ⟨vs, rfl⟩ := hp
    exact h.chain.left_of_append

theorem view_unique {t : Tick} (hn : (t.procs.map viewId).Nodup) {v w : ProcView} (hv : v ∈ t.procs)
    (hw : w ∈ t.procs) (h : viewId v = viewId w) : v = w :=
  List.inj_on_of_nodup_map hn hv hw h

theorem start_ok (clkTck : ClkTck) : (Source.start clkTck).Ok where
  keyed := new_keyed clkTck
  shown id _ hp := absurd ((Dict.get?_empty id).symm.trans hp) nofun
  kept := nofun
  coherent := ⟨nofun, nofun, List.isChain_nil⟩

theorem step_ok {s s' : Source} {x : Input} (hs : s.Ok) (h : s.step x = some s') : s'.Ok := by
  obtain ⟨⟨a', pub⟩, hpub, rfl⟩ := Option.map_eq_some_iff.mp h
  obtain ⟨es, hpass⟩ := publish_pass hpub
  have hticks : (⟨a', s.log ++ [pub]⟩ : Source).ticks = s.ticks ++ [pub.tick] := by
    simp only [Source.ticks, List.map_append, List.map_cons, List.map_nil]
  refine ⟨pass_keyed hpass hs.keyed, ?_, ?_, ?_⟩
  · intro id p hp
    have hmid := pass_left hpass hp
    have hid := pass_keyed_mid hpass hs.keyed id p hmid
    refine ⟨pub.tick, by rw [hticks, List.getLast?_concat], ?_⟩
    exact (mem_tick_procs hpass hs.keyed p.view).mpr ⟨p, hid ▸ hmid, rfl⟩
  · intro t ht w hw hopen
    rw [hticks, List.getLast?_concat] at ht
    obtain rfl := Option.some.inj ht
    exact pass_kept hpass hs.keyed hw hopen
  · rw [hticks]
    exact coherent_snoc hs.coherent (pass_nodup hpass hs.keyed) (pass_first hs hpass)
      fun t₀ ht₀ => pass_succeeds hs hpass ht₀

theorem run_ok {clkTck : ClkTck} {guard : Source → Input → Prop} {xs : List Input} {s : Source}
    (h : Run Source.step guard (.start clkTck) xs s) : s.Ok :=
  h.invariant (start_ok clkTck) fun _ _ _ hs _ hx => step_ok hs hx

end NetWatch.Collector.Ticks
