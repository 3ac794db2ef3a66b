import NetWatch.Collector.Views

namespace NetWatch.Collector.Regress

open Kernel.Types Procfs Model Ingest Conservation Views Lib.Assoc Lib.Runs

/-- The aggregator with the processes published so far and the time of the last
tick. -/
structure History where
  agg : Aggregator
  published : List ProcId
  wall : Int

def History.start (clkTck : ClkTck) : History := ⟨.new clkTck, [], 0⟩

def History.next (s : History) (x : Input) (a' : Aggregator) (t : Tick) : History :=
  ⟨a', s.published ++ t.procs.map viewId, x.clock.wallMs⟩

def History.step (s : History) (x : Input) : Option History :=
  (ingest s.agg x).map fun (a', t) => s.next x a' t

/-- No record arrives for a process that was published before and has been
forgotten since. -/
def Remembered (s : History) (x : Input) : Prop :=
  ∀ f ∈ x.flows, f.id ∈ s.published → (s.agg.procs.get? f.id).isSome = true

def Fits (s : History) (x : Input) : Prop :=
  ∀ f ∈ x.flows, ∀ p ∈ s.agg.procs.get? f.id,
    ∀ d, (total d p.view).toNat + fedBytes d (samplesOf f.id x.flows) < 2 ^ 64

/-- The published state of a process instance never goes back, from any tick to
any later one that both publish it. -/
def NeverRegresses (clkTck : ClkTck) (guard : History → Input → Prop) : Prop :=
  ∀ {xs₁ xs₂ : List Input} {s₁ s₂ : History} {x₁ x₂ : Input} {a₁ a₂ : Aggregator} {t₁ t₂ : Tick},
    Run History.step guard (.start clkTck) xs₁ s₁ → guard s₁ x₁ → ingest s₁.agg x₁ = some (a₁, t₁) →
    Run History.step guard (s₁.next x₁ a₁ t₁) xs₂ s₂ → guard s₂ x₂ → ingest s₂.agg x₂ = some (a₂, t₂) →
    ∀ v₁ ∈ t₁.procs, ∀ v₂ ∈ t₂.procs, viewId v₁ = viewId v₂ →
      v₁.txTotal ≤ v₂.txTotal ∧ v₁.rxTotal ≤ v₂.rxTotal ∧ v₂.firstSeenMs = v₁.firstSeenMs ∧
        (v₁.endedMs.isSome = true → v₂.endedMs.isSome = true)

structure Later (v w : ProcView) : Prop where
  total : ∀ d, total d v ≤ total d w
  firstSeenMs : w.firstSeenMs = v.firstSeenMs
  endedMs : v.endedMs.isSome = true → w.endedMs.isSome = true

theorem Later.refl (v : ProcView) : Later v v := ⟨fun _ => UInt64.le_refl _, rfl, id⟩

theorem Later.trans {u v w : ProcView} (h : Later u v) (h' : Later v w) : Later u w where
  total d := UInt64.le_trans (h.total d) (h'.total d)
  firstSeenMs := h'.firstSeenMs.trans h.firstSeenMs
  endedMs hu := h'.endedMs (h.endedMs hu)

theorem le_add_ofNat {m : UInt64} {n : Nat} (h : m.toNat + n < 2 ^ 64) : m ≤ m + .ofNat n := by
  rw [UInt64.le_iff_toNat_le, UInt64.toNat_add, UInt64.toNat_ofNat', Nat.add_mod_mod, Nat.mod_eq_of_lt h]
  exact Nat.le_add_right _ _

theorem evolves_later {xs : List Sample} {p q : Proc} (h : Evolves xs p q)
    (hfit : xs ≠ [] → ∀ d, (total d p.view).toNat + fedBytes d xs < 2 ^ 64) : Later p.view q.view := by
  refine ⟨fun d => ?_, h.origin.firstSeenMs, fun hp => ?_⟩
  · rw [h.total]
    apply le_add_ofNat
    by_cases hxs : xs = []
    · subst hxs
      exact UInt64.toNat_lt _
    · exact hfit hxs d
  · obtain ⟨e, he⟩ := Option.isSome_iff_exists.mp hp
    rw [h.origin.endedMs e he]
    rfl

section Step

variable {s : History} {x : Input} {es : List Entry} {mid : Dict ProcId Proc} {a' : Aggregator} {t : Tick}
  {id : ProcId} {v : ProcView}

/-- From the moment a view `v` of `id` is published, the entry of `id` is gone
for good or has a later view. -/
def Follows (id : ProcId) (v : ProcView) (s : History) : Prop :=
  id ∈ s.published ∧ ∀ p, s.agg.procs.get? id = some p → Later v p.view

theorem exists_sample {xs : List Sample} (h : samplesOf id xs ≠ []) : ∃ f ∈ xs, f.id = id := by
  obtain ⟨f, hf⟩ := List.exists_mem_of_ne_nil _ h
  exact ⟨f, (List.mem_filter.mp hf).1, by simpa using (List.mem_filter.mp hf).2⟩

theorem follows_mid (h : Pass s.agg x es mid a' t) (hr : Remembered s x) (hfit : Fits s x)
    (hs : Follows id v s) {q : Proc} (hq : mid.get? id = some q) : Later v q.view := by
  cases hp : s.agg.procs.get? id with
  | none =>
      obtain ⟨f, hf, hid⟩ := exists_sample (pass_created h hp hq).1
      have hsome := hr f hf (hid ▸ hs.1)
      rw [hid, hp] at hsome
      cases hsome
  | some p =>
      obtain ⟨q', hq', hev⟩ := pass_present h hp
      obtain rfl := Option.some.inj (hq'.symm.trans hq)
      refine (hs.2 p hp).trans (evolves_later hev fun hne d => ?_)
      obtain ⟨f, hf, rfl⟩ := exists_sample hne
      exact hfit f hf p hp d

theorem follows_next (h : Pass s.agg x es mid a' t) (hr : Remembered s x) (hfit : Fits s x)
    (hs : Follows id v s) : Follows id v (s.next x a' t) :=
  ⟨List.mem_append_left _ hs.1, fun _ hp => follows_mid h hr hfit hs (pass_left h hp)⟩

end Step

theorem run_keyed {clkTck : ClkTck} {guard : History → Input → Prop} {xs : List Input} {s : History}
    (h : Run History.step guard (.start clkTck) xs s) : Keyed s.agg.procs := by
  refine h.invariant (I := fun s => Keyed s.agg.procs) (new_keyed clkTck) ?_
  intro s x s' hs _ hx
  obtain ⟨⟨a', t⟩, hin, rfl⟩ := Option.map_eq_some_iff.mp hx
  obtain ⟨es, mid, hpass⟩ := ingest_pass hin
  exact pass_keyed hpass hs

def Kept (s : History) (x : Input) : Prop := Clocked History.wall s x ∧ Remembered s x ∧ Fits s x

theorem published_never_regresses (clkTck : ClkTck) : NeverRegresses clkTck Kept := by
  intro xs₁ xs₂ s₁ s₂ x₁ x₂ a₁ a₂ t₁ t₂ h₁ hg₁ hx₁ h₂ hg₂ hx₂ v₁ hv₁ v₂ hv₂ hid
  have hkeyed := run_keyed h₁
  obtain ⟨es, mid, hpass⟩ := ingest_pass hx₁
  have hstep : History.step s₁ x₁ = some (s₁.next x₁ a₁ t₁) := by simp [History.step, hx₁]
  have hkeyed₂ := run_keyed ((h₁.snoc hg₁ hstep).append h₂)
  have hstart : Follows (viewId v₁) v₁ (s₁.next x₁ a₁ t₁) := by
    refine ⟨List.mem_append_right _ (List.mem_map_of_mem hv₁), fun p hp => ?_⟩
    obtain ⟨q, hq, hqv⟩ := (mem_tick_procs hpass hkeyed v₁).mp hv₁
    obtain rfl := Option.some.inj ((pass_left hpass hp).symm.trans hq)
    rw [hqv]
    exact .refl v₁
  have hfollows : Follows (viewId v₁) v₁ s₂ := by
    apply h₂.invariant hstart
    intro s x s' hs hg hx
    obtain ⟨⟨a', t⟩, hin, rfl⟩ := Option.map_eq_some_iff.mp hx
    obtain ⟨es', mid', hpass'⟩ := ingest_pass hin
    exact follows_next hpass' hg.2.1 hg.2.2 hs
  obtain ⟨es₂, mid₂, hpass₂⟩ := ingest_pass hx₂
  obtain ⟨q, hq, hqv⟩ := (mem_tick_procs hpass₂ hkeyed₂ v₂).mp hv₂
  have hlater := follows_mid hpass₂ hg₂.2.1 hg₂.2.2 hfollows (hid ▸ hq)
  rw [hqv] at hlater
  exact ⟨hlater.total .tx, hlater.total .rx, hlater.firstSeenMs, hlater.endedMs⟩

instance {P : Dir → Prop} [DecidablePred P] : Decidable (∀ d, P d) :=
  decidable_of_iff (P .tx ∧ P .rx) ⟨fun h d => by cases d; exacts [h.1, h.2], fun h => ⟨h .tx, h .rx⟩⟩

instance (s : History) (x : Input) : Decidable (Kept s x) :=
  inferInstanceAs (Decidable (_ ∧ (∀ f ∈ x.flows, _ → _) ∧ ∀ f ∈ x.flows, ∀ p ∈ s.agg.procs.get? f.id, _))

theorem firstTick_runs : (ingest (.new sampleTck) sampleFirst).isSome = true := by decide +kernel

def firstTick : Aggregator × Tick := (ingest (.new sampleTck) sampleFirst).get firstTick_runs

def firstHistory : History := (History.start sampleTck).next sampleFirst firstTick.1 firstTick.2

theorem secondTick_runs : (ingest firstHistory.agg sampleSecond).isSome = true := by decide +kernel

def secondTick : Aggregator × Tick := (ingest firstHistory.agg sampleSecond).get secondTick_runs

theorem published_never_regresses_sample : ∃ v₁ ∈ firstTick.2.procs, ∃ v₂ ∈ secondTick.2.procs,
    viewId v₁ = viewId v₂ ∧ v₁.txTotal ≤ v₂.txTotal := by
  have hviews : ∃ v₁ ∈ firstTick.2.procs, ∃ v₂ ∈ secondTick.2.procs, viewId v₁ = viewId v₂ := by decide +kernel
  obtain ⟨v₁, hv₁, v₂, hv₂, hid⟩ := hviews
  refine ⟨v₁, hv₁, v₂, hv₂, hid, ?_⟩
  exact (published_never_regresses sampleTck (.nil (History.start sampleTck)) (by decide +kernel)
    (Option.some_get firstTick_runs).symm (.nil firstHistory) (by decide +kernel)
    (Option.some_get secondTick_runs).symm v₁ hv₁ v₂ hv₂ hid).1

def endingInput : Input :=
  sampleInput (sampleClock 100000) [sampleFlow 5 10 20] [⟨7, 5, 0⟩]

def quietInput : Input := sampleInput (sampleClock 160000) [] []

def lateInput : Input := sampleInput (sampleClock 161000) [sampleFlow 5 1 2] []

theorem endingInput_runs : (ingest (.new sampleTck) endingInput).isSome = true := by decide +kernel

def ending : Aggregator × Tick := (ingest (.new sampleTck) endingInput).get endingInput_runs

def endingHistory : History := (History.start sampleTck).next endingInput ending.1 ending.2

theorem quietInput_runs :
    (exec (checked History.step (Clocked History.wall)) endingHistory [quietInput]).isSome = true := by decide +kernel

def forgotten : History := (exec (checked History.step (Clocked History.wall)) endingHistory [quietInput]).get quietInput_runs

theorem lateInput_runs : (ingest forgotten.agg lateInput).isSome = true := by decide +kernel

def late : Aggregator × Tick := (ingest forgotten.agg lateInput).get lateInput_runs

/-- A process that ended and was forgotten after a minute comes back, by a late
record, as one that has not ended. -/
theorem published_regresses : ¬ NeverRegresses sampleTck (Clocked History.wall) := by
  intro h
  have hviews : ∃ v₁ ∈ ending.2.procs, ∃ v₂ ∈ late.2.procs,
      viewId v₁ = viewId v₂ ∧ v₁.endedMs.isSome = true ∧ v₂.endedMs.isSome = false := by decide +kernel
  obtain ⟨v₁, hv₁, v₂, hv₂, hid, hended, hopen⟩ := hviews
  have hall := h (.nil (History.start sampleTck)) (by decide +kernel) (Option.some_get endingInput_runs).symm
    (Run.of_checked (Option.some_get quietInput_runs).symm) (by decide +kernel)
    (Option.some_get lateInput_runs).symm v₁ hv₁ v₂ hv₂ hid
  exact absurd ((hall.2.2.2 hended).symm.trans hopen) nofun

end NetWatch.Collector.Regress
