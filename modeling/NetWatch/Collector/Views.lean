import NetWatch.Collector.Conservation

namespace NetWatch.Collector.Views

open Kernel.Types Procfs Model Ingest Conservation Lib.Assoc Lib.Runs

/-- The wall clock does not go back behind the time of the last tick. -/
def Clocked {S : Type} (wall : S → Int) (s : S) (x : Input) : Prop := wall s ≤ x.clock.wallMs

instance {S : Type} (wall : S → Int) (s : S) (x : Input) : Decidable (Clocked wall s x) := inferInstanceAs (Decidable (_ ≤ _))

def viewId (v : ProcView) : ProcId := (v.pid, v.startNs)

structure SameOrigin (v w : ProcView) : Prop where
  id : viewId w = viewId v
  startMs : w.startMs = v.startMs
  cmdline : w.cmdline = v.cmdline
  uid : w.uid = v.uid
  firstSeenMs : w.firstSeenMs = v.firstSeenMs
  endedMs : ∀ t, v.endedMs = some t → w.endedMs = some t

theorem SameOrigin.refl (v : ProcView) : SameOrigin v v := ⟨rfl, rfl, rfl, rfl, rfl, fun _ h => h⟩

theorem SameOrigin.trans {u v w : ProcView} (h : SameOrigin u v) (h' : SameOrigin v w) : SameOrigin u w where
  id := h'.id.trans h.id
  startMs := h'.startMs.trans h.startMs
  cmdline := h'.cmdline.trans h.cmdline
  uid := h'.uid.trans h.uid
  firstSeenMs := h'.firstSeenMs.trans h.firstSeenMs
  endedMs t ht := h'.endedMs t (h.endedMs t ht)

def fedBytes (d : Dir) (xs : List Sample) : Nat := (xs.map fun x => (bytes d x.stats).toNat).sum

/-- The effect of the records `xs` of a process on its entry. -/
structure Fed (xs : List Sample) (p q : Proc) : Prop where
  origin : SameOrigin p.view q.view
  total : ∀ d, total d q.view = total d p.view + .ofNat (fedBytes d xs)
  busy : xs ≠ [] → q.view.changed = true
  idle : xs = [] → q = p

theorem feed_some {c : Clock} {es : List Entry} {p q : Proc} (h : feed c (some p) es = some q) :
    Fed (es.map Entry.sample) p q := by
  induction es generalizing p with
  | nil =>
      obtain rfl := Option.some.inj h
      refine ⟨.refl p.view, fun d => ?_, fun hn => absurd rfl hn, fun _ => rfl⟩
      simp [fedBytes]
  | cons e es ih =>
      have hrest := ih (p := e.book c (some p)) h
      have hstep : SameOrigin p.view (e.book c (some p)).view := ⟨rfl, rfl, rfl, rfl, rfl, fun _ ht => ht⟩
      refine ⟨hstep.trans hrest.origin, fun d => ?_, fun _ => ?_, nofun⟩
      · have hbook : total d (e.book c (some p)).view = total d p.view + bytes d e.sample.stats := by
          cases d <;> rfl
        have hsum : fedBytes d ((e :: es).map Entry.sample) =
            (bytes d e.sample.stats).toNat + fedBytes d (es.map Entry.sample) := rfl
        rw [hrest.total, hbook, hsum, UInt64.ofNat_add, UInt64.ofNat_toNat, UInt64.add_assoc]
      · cases es with
        | nil =>
            obtain rfl := Option.some.inj h
            rfl
        | cons e' es => exact hrest.busy nofun

theorem settles_origin {elapsed : Duration} {p q : Proc} (h : Settles elapsed p q) : SameOrigin p.view q.view := by
  obtain ⟨r, hc, rfl⟩ := h
  cases hc with
  | keep => exact ⟨rfl, rfl, rfl, rfl, rfl, fun _ ht => ht⟩
  | close t ht => exact ⟨rfl, rfl, rfl, rfl, rfl, fun t' ht' => absurd (ht.symm.trans ht') nofun⟩

theorem settles_total {elapsed : Duration} {p q : Proc} (h : Settles elapsed p q) (d : Dir) :
    total d q.view = total d p.view := by
  obtain ⟨r, hc, rfl⟩ := h
  cases hc with
  | keep => cases d <;> rfl
  | close t ht => cases d <;> rfl

theorem settles_changed {elapsed : Duration} {p q : Proc} (h : Settles elapsed p q)
    (hp : p.view.changed = true) : q.view.changed = true := by
  obtain ⟨r, hc, rfl⟩ := h
  cases hc with
  | keep => exact hp
  | close t ht => rfl

@[simp] theorem kbps_zero (elapsed : Duration) : kbps elapsed 0 = 0 := by
  simp [kbps]

/-- A process without records keeps its view, but for its rates and the mark
that it changed, unless it ends. -/
theorem settles_idle {elapsed : Duration} {p q : Proc} (h : Settles elapsed p.startTick q)
    (hq : q.view.changed = false) : q.view = { p.view with changed := false } := by
  obtain ⟨r, hc, rfl⟩ := h
  cases hc with
  | close t ht => exact absurd hq nofun
  | keep =>
      have hrates : p.view.txKbps = 0 ∧ p.view.rxKbps = 0 := by
        simpa [Proc.setRates, Proc.startTick] using hq
      simp [Proc.setRates, Proc.startTick, hrates.1, hrates.2]

section Pass

variable {a a' : Aggregator} {x : Input} {es : List Entry} {mid : Dict ProcId Proc} {t : Tick} {id : ProcId}

def samplesOf (id : ProcId) (xs : List Sample) : List Sample := xs.filter fun s => s.id = id

theorem entriesOf_samples (h : Pass a x es mid a' t) (id : ProcId) :
    (entriesOf id es).map Entry.sample = samplesOf id x.flows := by
  rw [samplesOf, ← h.samples, List.filter_map]
  rfl

structure Evolves (xs : List Sample) (p q : Proc) : Prop where
  origin : SameOrigin p.view q.view
  total : ∀ d, total d q.view = total d p.view + .ofNat (fedBytes d xs)
  unchanged : q.view.changed = false → q.view = { p.view with changed := false }

theorem pass_present (h : Pass a x es mid a' t) {p : Proc} (hp : a.procs.get? id = some p) :
    ∃ q, mid.get? id = some q ∧ Evolves (samplesOf id x.flows) p q := by
  have hmoved := h.moved id
  rw [hp, Option.map_some] at hmoved
  cases hfeed : feed x.clock (some p.startTick) (entriesOf id es) with
  | none =>
      cases hes : entriesOf id es with
      | nil => rw [hes] at hfeed; cases hfeed
      | cons e es' =>
          obtain ⟨q, hq⟩ := feed_isSome (c := x.clock) (some p.startTick) (List.cons_ne_nil e es')
          rw [hes] at hfeed
          exact absurd (hfeed.symm.trans hq) nofun
  | some r =>
      rw [hfeed] at hmoved
      have hfed := feed_some hfeed
      rw [entriesOf_samples h] at hfed
      cases hmid : mid.get? id with
      | none => rw [hmid] at hmoved; cases hmoved
      | some q =>
          rw [hmid] at hmoved
          cases hmoved with
          | some hs =>
              have hstart : SameOrigin p.view p.startTick.view := ⟨rfl, rfl, rfl, rfl, rfl, fun _ ht => ht⟩
              refine ⟨q, rfl, hstart.trans (hfed.origin.trans (settles_origin hs)), fun d => ?_, fun hq => ?_⟩
              · have htotal : total d p.startTick.view = total d p.view := by cases d <;> rfl
                rw [settles_total hs, hfed.total, htotal]
              · by_cases hnil : samplesOf id x.flows = []
                · rw [hfed.idle hnil] at hs
                  exact settles_idle hs hq
                · exact absurd ((settles_changed hs (hfed.busy hnil)).symm.trans hq) nofun

theorem pass_created (h : Pass a x es mid a' t) (hp : a.procs.get? id = none) {q : Proc}
    (hq : mid.get? id = some q) :
    samplesOf id x.flows ≠ [] ∧ viewId q.view = id ∧ q.view.firstSeenMs = x.clock.wallMs ∧
      q.view.changed = true := by
  have hmoved := h.moved id
  rw [hp, hq, Option.map_none] at hmoved
  cases hes : entriesOf id es with
  | nil => rw [hes] at hmoved; cases hmoved
  | cons e es' =>
      have hid : e.id = id := by
        have hmem : e ∈ entriesOf id es := hes ▸ List.mem_cons_self
        simpa using (List.mem_filter.mp hmem).2
      have hne : samplesOf id x.flows ≠ [] := by
        rw [← entriesOf_samples h, hes]
        exact nofun
      rw [hes] at hmoved
      cases hfeed : feed x.clock none (e :: es') with
      | none => rw [hfeed] at hmoved; cases hmoved
      | some r =>
          rw [hfeed] at hmoved
          have hfed := feed_some (p := e.book x.clock none) hfeed
          cases hmoved with
          | some hs =>
              have horigin := hfed.origin.trans (settles_origin hs)
              have hchanged : r.view.changed = true := by
                by_cases hnil : es'.map Entry.sample = []
                · rw [hfed.idle hnil]
                  rfl
                · exact hfed.busy hnil
              refine ⟨hne, ?_, ?_, settles_changed hs hchanged⟩
              · rw [horigin.id, ← hid]
                rfl
              · rw [horigin.firstSeenMs]
                rfl

/-- The mark is sound: a view that is published without it is the view that the
entry had before the call. -/
theorem pass_unchanged (h : Pass a x es mid a' t) {q : Proc} (hq : mid.get? id = some q)
    (hc : q.view.changed = false) :
    ∃ p, a.procs.get? id = some p ∧ q.view = { p.view with changed := false } := by
  cases hp : a.procs.get? id with
  | none => exact absurd ((pass_created h hp hq).2.2.2.symm.trans hc) nofun
  | some p =>
      obtain ⟨q', hq', hev⟩ := pass_present h hp
      obtain rfl := Option.some.inj (hq'.symm.trans hq)
      exact ⟨p, rfl, hev.unchanged hc⟩

def Keyed (procs : Dict ProcId Proc) : Prop := ∀ id p, procs.get? id = some p → viewId p.view = id

theorem pass_keyed_mid (h : Pass a x es mid a' t) (hk : Keyed a.procs) : Keyed mid := by
  intro id q hq
  cases hp : a.procs.get? id with
  | none => exact (pass_created h hp hq).2.1
  | some p =>
      obtain ⟨q', hq', hev⟩ := pass_present h hp
      obtain rfl := Option.some.inj (hq'.symm.trans hq)
      exact hev.origin.id.trans (hk id p hp)

theorem pass_left (h : Pass a x es mid a' t) {p : Proc} (hp : a'.procs.get? id = some p) : mid.get? id = some p := by
  rcases h.kept id with hk | ⟨hk, -⟩
  · exact hk.symm.trans hp
  · exact absurd (hk.symm.trans hp) nofun

theorem pass_keyed (h : Pass a x es mid a' t) (hk : Keyed a.procs) : Keyed a'.procs :=
  fun id p hp => pass_keyed_mid h hk id p (pass_left h hp)

theorem mem_tick_procs (h : Pass a x es mid a' t) (hk : Keyed a.procs) (v : ProcView) :
    v ∈ t.procs ↔ ∃ p, mid.get? (viewId v) = some p ∧ p.view = v := by
  rw [h.procs, List.mem_map]
  constructor
  · rintro ⟨p, hp, rfl⟩
    obtain ⟨id, hid⟩ := (mid.mem_values p).mp hp
    have hkey := pass_keyed_mid h hk id p hid
    exact ⟨p, hkey ▸ hid, rfl⟩
  · rintro ⟨p, hp, rfl⟩
    exact ⟨p, (mid.mem_values p).mpr ⟨_, hp⟩, rfl⟩

end Pass

theorem new_keyed (clkTck : ClkTck) : Keyed (Aggregator.new clkTck).procs := by
  intro id p hp
  exact absurd ((Dict.get?_empty id).symm.trans hp) nofun

end NetWatch.Collector.Views
