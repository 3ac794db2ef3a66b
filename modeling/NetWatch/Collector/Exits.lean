import NetWatch.Collector.Views

namespace NetWatch.Collector.Exits

open Kernel.Types Procfs Model Ingest Conservation Views Lib.Assoc Lib.Runs

def exitId (e : ExitEvent) : ProcId := (e.tgid, e.startNs)

def markOne (c : Clock) (procs : Dict ProcId Proc) (e : ExitEvent) : Dict ProcId Proc :=
  match procs.get? (exitId e) with
  | some p => if p.view.endedMs = none then procs.insert (exitId e) (p.ended (c.bootToWallMs e.tsNs)) else procs
  | none => procs

section Marking

variable {c : Clock} {procs : Dict ProcId Proc} {e : ExitEvent} {es : List ExitEvent} {id : ProcId}

theorem markOne_absent (h : procs.get? (exitId e) = none) : markOne c procs e = procs := by
  rw [markOne, h]

theorem markOne_other (h : id ≠ exitId e) : (markOne c procs e).get? id = procs.get? id := by
  rw [markOne]
  split
  · split_ifs
    · rw [Dict.get?_insert, if_neg h]
    · rfl
  · rfl

theorem markOne_self {p : Proc} (h : procs.get? (exitId e) = some p) :
    (markOne c procs e).get? (exitId e) =
      some (if p.view.endedMs = none then p.ended (c.bootToWallMs e.tsNs) else p) := by
  rw [markOne, h]
  dsimp only
  split_ifs
  · rw [Dict.get?_insert, if_pos rfl]
  · exact h

theorem markOne_none : (markOne c procs e).get? id = none ↔ procs.get? id = none := by
  by_cases hid : id = exitId e
  · subst hid
    cases hp : procs.get? (exitId e) with
    | none => rw [markOne_absent hp, hp]
    | some p => simp [markOne_self hp]
  · rw [markOne_other hid]

theorem marks_none : (es.foldl (markOne c) procs).get? id = none ↔ procs.get? id = none := by
  induction es generalizing procs with
  | nil => rfl
  | cons e es ih => rw [List.foldl_cons, ih, markOne_none]

theorem marks_filter (keep : ExitEvent → Bool) (h : ∀ e ∈ es, keep e = false → procs.get? (exitId e) = none) :
    (es.filter keep).foldl (markOne c) procs = es.foldl (markOne c) procs := by
  induction es generalizing procs with
  | nil => rfl
  | cons e es ih =>
      obtain ⟨he, hes⟩ := List.forall_mem_cons.mp h
      cases hk : keep e with
      | true =>
          rw [List.filter_cons_of_pos hk, List.foldl_cons, List.foldl_cons]
          exact ih fun e' he' hk' => markOne_none.mpr (hes e' he' hk')
      | false =>
          rw [List.filter_cons_of_neg (by simp [hk]), List.foldl_cons, markOne_absent (he hk)]
          exact ih hes

theorem marks_get? :
    (es.foldl (markOne c) procs).get? id = (procs.get? id).map fun p =>
      match p.view.endedMs, es.find? fun e => exitId e = id with
      | none, some e => p.ended (c.bootToWallMs e.tsNs)
      | _, _ => p := by
  induction es generalizing procs with
  | nil =>
      cases hp : procs.get? id with
      | none => simp [hp]
      | some p => cases p.view.endedMs <;> simp [hp]
  | cons e es ih =>
      rw [List.foldl_cons, ih]
      by_cases hid : exitId e = id
      · subst hid
        rw [List.find?_cons_of_pos (by simp)]
        cases hp : procs.get? (exitId e) with
        | none => rw [markOne_absent hp, hp, Option.map_none, Option.map_none]
        | some p =>
            rw [markOne_self hp, Option.map_some, Option.map_some]
            cases hended : p.view.endedMs with
            | none => simp [Proc.ended]
            | some t => simp [hended]
      · rw [List.find?_cons_of_neg (by simpa using hid), markOne_other (Ne.symm hid)]

end Marking

section Pending

variable {c : Clock} {n k : Nat} {es : List ExitEvent} {st : Dict ProcId Proc × List ExitEvent}

theorem markExit_fst (e : ExitEvent × Nat) : (markExit c n st e).1 = markOne c st.1 e.1 := by
  simp only [markExit, markOne, exitId]
  cases st.1.get? (e.1.tgid, e.1.startNs) with
  | none =>
      dsimp only
      split_ifs <;> rfl
  | some p =>
      dsimp only
      split_ifs <;> rfl

theorem markExit_snd (e : ExitEvent × Nat) : (markExit c n st e).2 =
    if n ≤ e.2 ∧ st.1.get? (exitId e.1) = none then st.2 ++ [e.1] else st.2 := by
  rw [markExit]
  split
  · rename_i p hp
    have hsome : ¬ (n ≤ e.2 ∧ st.1.get? (exitId e.1) = none) := by
      rintro ⟨-, hnone⟩
      cases hp.symm.trans hnone
    rw [if_neg hsome]
    split_ifs <;> rfl
  · rename_i hp
    have hnone : st.1.get? (exitId e.1) = none := hp
    split_ifs with hle hboth hboth
    · rfl
    · exact absurd ⟨hle, hnone⟩ hboth
    · exact absurd hboth.1 hle
    · rfl

theorem markExits_fold : ((es.zipIdx k).foldl (markExit c n) st).1 = es.foldl (markOne c) st.1 := by
  induction es generalizing k st with
  | nil => rfl
  | cons e es ih => rw [List.zipIdx_cons, List.foldl_cons, ih, markExit_fst, List.foldl_cons]

theorem retries_dropped (h : k + es.length ≤ n) : ((es.zipIdx k).foldl (markExit c n) st).2 = st.2 := by
  induction es generalizing k st with
  | nil => rfl
  | cons e es ih =>
      rw [List.length_cons] at h
      have hk : ¬ (n ≤ k ∧ st.1.get? (exitId e) = none) := by omega
      rw [List.zipIdx_cons, List.foldl_cons, ih (by omega), markExit_snd, if_neg hk]

theorem absent_kept (h : n ≤ k) : ((es.zipIdx k).foldl (markExit c n) st).2 =
    st.2 ++ es.filter fun e => (st.1.get? (exitId e)).isNone := by
  induction es generalizing k st with
  | nil => simp
  | cons e es ih =>
      have hsame : (es.filter fun e' => ((markExit c n st (e, k)).1.get? (exitId e')).isNone) =
          es.filter fun e' => (st.1.get? (exitId e')).isNone := by
        apply List.filter_congr
        intro e' _
        rw [markExit_fst, Bool.eq_iff_iff, Option.isNone_iff_eq_none, Option.isNone_iff_eq_none, markOne_none]
      rw [List.zipIdx_cons, List.foldl_cons, ih (by omega), hsame, markExit_snd]
      cases hp : st.1.get? (exitId e) with
      | none => simp [h, hp]
      | some p => simp [hp]

end Pending

theorem markExits_eq (c : Clock) (retry exits : List ExitEvent) (procs : Dict ProcId Proc) :
    markExits c retry exits procs =
      ((retry ++ exits).foldl (markOne c) procs, exits.filter fun e => (procs.get? (exitId e)).isNone) := by
  apply Prod.ext
  · exact markExits_fold
  · rw [markExits, List.zipIdx_append, List.foldl_append, Nat.zero_add, absent_kept le_rfl,
      retries_dropped (by simp), List.nil_append]
    apply List.filter_congr
    intro e _
    rw [markExits_fold, Bool.eq_iff_iff, Option.isNone_iff_eq_none, Option.isNone_iff_eq_none, marks_none]

def Present (id : ProcId) (a : Aggregator) (x : Input) : Prop := ∃ l, gather a x = some l ∧ (l.procs.get? id).isSome = true

/-- An entry stays as long as it is there between the calls. -/
def Stays (id : ProcId) (a : Aggregator) (_ : Input) : Prop := (a.procs.get? id).isSome = true

instance (id : ProcId) (a : Aggregator) (x : Input) : Decidable (Stays id a x) := inferInstanceAs (Decidable (_ = true))

def next (a : Aggregator) (x : Input) : Option Aggregator := (ingest a x).map Prod.fst

/-- The tick shows the process as ended, and so does its entry if it is not
forgotten at once. -/
def Ended (id : ProcId) (a' : Aggregator) (t : Tick) : Prop :=
  (∃ v ∈ t.procs, viewId v = id ∧ v.endedMs.isSome = true) ∧
    ∀ p, a'.procs.get? id = some p → p.view.endedMs.isSome = true

def Input.without (x : Input) (e : ExitEvent) : Input := { x with exits := x.exits.filter (· ≠ e) }

section Call

variable {a a' : Aggregator} {x : Input} {t : Tick} {l : Loop} {id : ProcId} {e : ExitEvent}

theorem ingest_some (h : ingest a x = some (a', t)) : ∃ l, gather a x = some l ∧
    a' = (settle a x l).prune x.clock.wallMs ∧ t = buildTick x l (settle a x l).procs := by
  obtain ⟨l, hl, hout⟩ := Option.map_eq_some_iff.mp h
  obtain ⟨ha, ht⟩ := Prod.mk.inj hout
  exact ⟨l, hl, ha.symm, ht.symm⟩

theorem prune_pending (m : Aggregator) (now : Int) : (m.prune now).pendingExits = m.pendingExits := by
  rw [Aggregator.prune]
  split_ifs <;> rfl

theorem settle_pending (a : Aggregator) (x : Input) (l : Loop) :
    (settle a x l).pendingExits = x.exits.filter fun e => (l.procs.get? (exitId e)).isNone := by
  simp only [settle, markExits_eq]

theorem present_iff (hl : gather a x = some l) : Present id a x ↔ (l.procs.get? id).isSome = true := by
  constructor
  · rintro ⟨l', hl', h⟩
    obtain rfl := Option.some.inj (hl.symm.trans hl')
    exact h
  · exact fun h => ⟨l, hl, h⟩

theorem mem_pending (h : ingest a x = some (a', t)) : e ∈ a'.pendingExits ↔ e ∈ x.exits ∧ ¬ Present (exitId e) a x := by
  obtain ⟨l, hl, rfl, -⟩ := ingest_some h
  rw [prune_pending, settle_pending, List.mem_filter, present_iff hl, Bool.not_eq_true, Option.isSome_eq_false_iff]

theorem closes_ended {p q : Proc} (h : Closes p q) (hp : p.view.endedMs.isSome = true) : q.view.endedMs.isSome = true := by
  cases h with
  | keep => exact hp
  | close => rfl

theorem settle_ended {p : Proc} (hp : l.procs.get? id = some p) (he : e ∈ a.pendingExits ++ x.exits) (hid : exitId e = id) :
    ∃ q, (settle a x l).procs.get? id = some q ∧ q.view.endedMs.isSome = true := by
  obtain ⟨f, hf⟩ : ∃ f, (a.pendingExits ++ x.exits).find? (fun e => exitId e = id) = some f :=
    Option.isSome_iff_exists.mp (List.find?_isSome.mpr ⟨e, he, by simpa using hid⟩)
  obtain ⟨r, hr, hended⟩ : ∃ r, (markExits x.clock a.pendingExits x.exits l.procs).1.get? id = some r ∧
      r.view.endedMs.isSome = true := by
    rw [markExits_eq, marks_get?, hp, hf, Option.map_some]
    refine ⟨_, rfl, ?_⟩
    cases hv : p.view.endedMs with
    | none => rfl
    | some s => simp [hv]
  obtain ⟨q, hq, hswept⟩ : ∃ q, (if livenessDue a x.clock.wallMs
      then sweepDead a.clkTck x.clock.wallMs x.sweepFs (markExits x.clock a.pendingExits x.exits l.procs).1
      else (markExits x.clock a.pendingExits x.exits l.procs).1).get? id = some q ∧ q.view.endedMs.isSome = true := by
    split_ifs
    · exact ⟨_, by rw [sweepDead, Dict.get?_mapVals, hr]; rfl,
        closes_ended (sweepOne_closes a.clkTck x.clock.wallMs x.sweepFs id r) hended⟩
    · exact ⟨r, hr, hended⟩
  exact ⟨q.setRates x.elapsed, by simp only [settle, Dict.get?_mapVals, hq, Option.map_some], hswept⟩

theorem call_ended (hk : Keyed a.procs) (h : ingest a x = some (a', t)) (he : e ∈ a.pendingExits ++ x.exits)
    (hp : Present (exitId e) a x) : Ended (exitId e) a' t := by
  obtain ⟨l, hl, rfl, rfl⟩ := ingest_some h
  obtain ⟨es, hpass⟩ := gather_pass hl
  obtain ⟨p, hp⟩ := Option.isSome_iff_exists.mp ((present_iff hl).mp hp)
  obtain ⟨q, hq, hended⟩ := settle_ended hp he rfl
  have hid := pass_keyed_mid hpass hk _ q hq
  refine ⟨⟨q.view, ?_, hid, hended⟩, fun p hp => ?_⟩
  · exact (mem_tick_procs hpass hk q.view).mpr ⟨q, hid ▸ hq, rfl⟩
  · obtain rfl := Option.some.inj ((pass_left hpass hp).symm.trans hq)
    exact hended

end Call

section Discard

variable {a a' : Aggregator} {x : Input} {t : Tick} {e : ExitEvent}

def Aggregator.forget (a : Aggregator) (e : ExitEvent) : Aggregator :=
  { a with pendingExits := a.pendingExits.filter (· ≠ e) }

theorem forget_prune (m : Aggregator) (now : Int) (e : ExitEvent) :
    Aggregator.forget (m.prune now) e = (Aggregator.forget m e).prune now := by
  by_cases hdue : endedRetainMs ≤ now - m.lastPruneMs
  · simp only [Aggregator.prune, Aggregator.forget, if_pos hdue]
    exact (if_pos hdue).symm
  · simp only [Aggregator.prune, Aggregator.forget, if_neg hdue]
    exact (if_neg hdue).symm

/-- Without a process, an event leaves nothing but itself behind. -/
theorem ingest_without (h : ingest a x = some (a', t)) (hp : ¬ Present (exitId e) a x) :
    ingest a (Input.without x e) = some (Aggregator.forget a' e, t) := by
  obtain ⟨l, hl, rfl, rfl⟩ := ingest_some h
  rw [present_iff hl, Bool.not_eq_true, Option.isSome_eq_false_iff, Option.isNone_iff_eq_none] at hp
  have hmarks : (a.pendingExits ++ x.exits.filter (· ≠ e)).foldl (markOne x.clock) l.procs =
      (a.pendingExits ++ x.exits).foldl (markOne x.clock) l.procs := by
    rw [List.foldl_append, List.foldl_append]
    apply marks_filter
    intro f _ hf
    obtain rfl : f = e := by simpa using hf
    exact marks_none.mpr hp
  have hsettle : settle a (Input.without x e) l = Aggregator.forget (settle a x l) e := by
    simp only [settle, Aggregator.forget, Input.without, markExits_eq, hmarks]
    rw [List.filter_comm]
    rfl
  have hgather : gather a (Input.without x e) = some l := hl
  rw [ingest, hgather, Option.map_some, hsettle]
  exact congrArg (fun a₁ => some (a₁, buildTick x l (settle a x l).procs)) (forget_prune _ _ e).symm

/-- An event that waits and finds no process again has no effect. -/
theorem ingest_forget (h : ingest a x = some (a', t)) (hp : ¬ Present (exitId e) a x) :
    ingest (Aggregator.forget a e) x = some (a', t) := by
  obtain ⟨l, hl, rfl, rfl⟩ := ingest_some h
  rw [present_iff hl, Bool.not_eq_true, Option.isSome_eq_false_iff, Option.isNone_iff_eq_none] at hp
  have hmarks : ((a.pendingExits.filter (· ≠ e)) ++ x.exits).foldl (markOne x.clock) l.procs =
      (a.pendingExits ++ x.exits).foldl (markOne x.clock) l.procs := by
    rw [List.foldl_append, List.foldl_append, marks_filter]
    intro f _ hf
    obtain rfl : f = e := by simpa using hf
    exact hp
  have hsettle : settle (Aggregator.forget a e) x l = settle a x l := by
    simp only [settle, Aggregator.forget, livenessDue, markExits_eq, hmarks]
    rfl
  have hgather : gather (Aggregator.forget a e) x = some l := hl
  rw [ingest, hgather, Option.map_some, hsettle]

end Discard

theorem run_keyed {clkTck : ClkTck} {xs : List Input} {a : Aggregator} (h : Run next Free (.new clkTck) xs a) :
    Keyed a.procs := by
  refine h.invariant (I := fun a => Keyed a.procs) (new_keyed clkTck) ?_
  intro a x a' ha _ hx
  obtain ⟨⟨a', t⟩, hin, rfl⟩ := Option.map_eq_some_iff.mp hx
  obtain ⟨es, mid, hpass⟩ := ingest_pass hin
  exact pass_keyed hpass ha

theorem stays_ended {id : ProcId} {ended : Int} {a b : Aggregator} {ys : List Input} (h : Run next (Stays id) a ys b)
    (ha : ∀ p, a.procs.get? id = some p → p.view.endedMs = some ended) :
    ∀ p, b.procs.get? id = some p → p.view.endedMs = some ended := by
  refine h.invariant (I := fun a => ∀ p, a.procs.get? id = some p → p.view.endedMs = some ended) ha ?_
  intro a y a' ha hstays hy p hp
  obtain ⟨⟨a', t⟩, hin, rfl⟩ := Option.map_eq_some_iff.mp hy
  obtain ⟨es, mid, hpass⟩ := ingest_pass hin
  obtain ⟨p₀, hp₀⟩ := Option.isSome_iff_exists.mp hstays
  obtain ⟨q, hq, hev⟩ := pass_present hpass hp₀
  obtain rfl := Option.some.inj ((pass_left hpass hp).symm.trans hq)
  exact hev.origin.endedMs ended (ha p₀ hp₀)

/-- An event ends its process in the call it is passed to or, when the process has
no entry there, in the next one, is kept for no more than that call, and has no
effect when it finds no process. What has ended keeps its time. -/
theorem exits_applied_once {clkTck : ClkTck} {xs : List Input} {a a' : Aggregator} {x : Input} {t : Tick}
    (h : Run next Free (.new clkTck) xs a) (hx : ingest a x = some (a', t)) :
    (∀ e ∈ a'.pendingExits, e ∈ x.exits) ∧
    (∀ e ∈ x.exits, Present (exitId e) a x → Ended (exitId e) a' t ∧ e ∉ a'.pendingExits) ∧
    (∀ e ∈ x.exits, ¬ Present (exitId e) a x → ∀ y a'' t', ingest a' y = some (a'', t') →
      (Present (exitId e) a' y → Ended (exitId e) a'' t') ∧
      (¬ Present (exitId e) a' y →
        ∃ a₁, ingest a (Input.without x e) = some (a₁, t) ∧ ingest a₁ y = some (a'', t'))) ∧
    ∀ v ∈ t.procs, ∀ ended, v.endedMs = some ended → ∀ ys b, Run next (Stays (viewId v)) a' ys b →
      (∀ p, b.procs.get? (viewId v) = some p → p.view.endedMs = some ended) ∧
      ∀ y b' t', Stays (viewId v) b y → ingest b y = some (b', t') →
        ∃ w ∈ t'.procs, viewId w = viewId v ∧ w.endedMs = some ended := by
  have hkeyed := run_keyed h
  have hafter : Run next Free (.new clkTck) (xs ++ [x]) a' := h.snoc trivial (by rw [next, hx, Option.map_some])
  have hkeyed' := run_keyed hafter
  refine ⟨fun e he => ((mem_pending hx).mp he).1, ?_, ?_, ?_⟩
  · intro e he hp
    exact ⟨call_ended hkeyed hx (List.mem_append_right _ he) hp, fun hpending => ((mem_pending hx).mp hpending).2 hp⟩
  · intro e he hp y a'' t' hy
    have hpending := (mem_pending hx).mpr ⟨he, hp⟩
    refine ⟨call_ended hkeyed' hy (List.mem_append_left _ hpending), fun hp' => ?_⟩
    exact ⟨_, ingest_without hx hp, ingest_forget hy hp'⟩
  · intro v hv ended hended ys b hrun
    obtain ⟨es, mid, hpass⟩ := ingest_pass hx
    have hstart : ∀ p, a'.procs.get? (viewId v) = some p → p.view.endedMs = some ended := by
      intro p hp
      obtain ⟨q, hq, rfl⟩ := (mem_tick_procs hpass hkeyed v).mp hv
      obtain rfl := Option.some.inj ((pass_left hpass hp).symm.trans hq)
      exact hended
    have hend := stays_ended hrun hstart
    refine ⟨hend, fun y b' t' hstays hy => ?_⟩
    obtain ⟨es', mid', hpass'⟩ := ingest_pass hy
    obtain ⟨p, hp⟩ := Option.isSome_iff_exists.mp hstays
    obtain ⟨q, hq, hev⟩ := pass_present hpass' hp
    have hfree : Run next Free a' ys b :=
      hrun.strengthen (I := fun _ => True) trivial (fun _ _ _ _ _ _ => trivial) fun _ _ _ _ => trivial
    have hkeyed₂ := run_keyed (hafter.append hfree)
    have hid := pass_keyed_mid hpass' hkeyed₂ _ q hq
    exact ⟨q.view, (mem_tick_procs hpass' hkeyed₂ q.view).mpr ⟨q, hid ▸ hq, rfl⟩, hid,
      hev.origin.endedMs ended (hend p hp)⟩

def exitClock (ms : Nat) (bootNs : UInt64) (h : (ms : Int) < 2 ^ 62) : Clock := ⟨ms, bootNs, Int.natCast_nonneg ms, h⟩

def exitInput : Input :=
  sampleInput (exitClock 100000 70000000000 (by decide)) [sampleFlow 5 10 20] [⟨7, 5, 69000000000⟩]

def earlyInput : Input := sampleInput (exitClock 101000 71000000000 (by decide)) [] [⟨7, 6, 70500000000⟩]

def recordsInput : Input := sampleInput (exitClock 102000 72000000000 (by decide)) [sampleFlow 6 1 2] []

theorem exitInput_runs : (exec next (.new sampleTck) [exitInput]).isSome = true := by decide +kernel

def afterExit : Aggregator := (exec next (.new sampleTck) [exitInput]).get exitInput_runs

theorem earlyInput_runs : (ingest afterExit earlyInput).isSome = true := by decide +kernel

def afterEarly : Aggregator × Tick := (ingest afterExit earlyInput).get earlyInput_runs

theorem recordsInput_runs : (ingest afterEarly.1 recordsInput).isSome = true := by decide +kernel

def afterRecords : Aggregator × Tick := (ingest afterEarly.1 recordsInput).get recordsInput_runs

instance (id : ProcId) (a : Aggregator) (x : Input) : Decidable (Present id a x) :=
  decidable_of_iff ((gather a x).any fun l => (l.procs.get? id).isSome) (by
    cases hl : gather a x with
    | none => simp [Present, hl]
    | some l => simp [Present, hl])

theorem exits_applied_once_sample : ¬ Present (7, 6) afterExit earlyInput ∧
    ∃ v ∈ afterRecords.2.procs, viewId v = (7, 6) ∧ v.endedMs.isSome = true := by
  have habsent : ¬ Present (7, 6) afterExit earlyInput := by decide +kernel
  refine ⟨habsent, ?_⟩
  have hall := exits_applied_once (Run.of_exec (Option.some_get exitInput_runs).symm) (Option.some_get earlyInput_runs).symm
  have hlater := hall.2.2.1 ⟨7, 6, 70500000000⟩ (by decide +kernel) habsent recordsInput _ _
    (Option.some_get recordsInput_runs).symm
  exact (hlater.1 (by decide +kernel)).1

/-- An event that is passed to one call has ended its process whenever there is an
entry for it in the next call. -/
def EndsNext : Prop :=
  ∀ {clkTck : ClkTck} {xs : List Input} {a a' a'' : Aggregator} {x y : Input} {t t' : Tick},
    Run next Free (.new clkTck) xs a → ingest a x = some (a', t) → ingest a' y = some (a'', t') →
    ∀ e ∈ x.exits, Present (exitId e) a' y → Ended (exitId e) a'' t'

/-- The process ended over a minute ago, as after a suspend. -/
def oldExit : Input :=
  sampleInput (exitClock 100000 70000000000 (by decide)) [sampleFlow 5 10 20] [⟨7, 5, 5000000000⟩]

def lateRecords : Input := sampleInput (exitClock 101000 71000000000 (by decide)) [sampleFlow 5 1 2] []

theorem oldExit_runs : (ingest (.new sampleTck) oldExit).isSome = true := by decide +kernel

def afterOld : Aggregator × Tick := (ingest (.new sampleTck) oldExit).get oldExit_runs

theorem lateRecords_runs : (ingest afterOld.1 lateRecords).isSome = true := by decide +kernel

def afterLate : Aggregator × Tick := (ingest afterOld.1 lateRecords).get lateRecords_runs

/-- The entry that the event has ended is forgotten in the same call, and the
records of the next call make a new one. -/
theorem exit_forgotten : ¬ EndsNext := by
  intro h
  have hended := (h (.nil (Model.Aggregator.new sampleTck)) (Option.some_get oldExit_runs).symm (Option.some_get lateRecords_runs).symm
    ⟨7, 5, 5000000000⟩ (by decide +kernel) (by decide +kernel)).1
  have hopen : ∀ v ∈ afterLate.2.procs, v.endedMs.isSome = false := by decide +kernel
  obtain ⟨v, hv, -, hsome⟩ := hended
  exact absurd (hsome.symm.trans (hopen v hv)) nofun

end NetWatch.Collector.Exits
