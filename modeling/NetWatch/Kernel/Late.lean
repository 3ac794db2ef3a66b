import NetWatch.Kernel.DoubleBuffer

namespace NetWatch.Kernel.Late

open Kernel.Types Account Ledger DoubleBuffer NetWatch.Lib.SlotMap NetWatch.Lib.Runs

def drainsOf (m : Side) (s : State) : Nat := s.drains.countP fun d => d.side = m

def holds (cr : Credit) (r : Record) : Prop := r.side = cr.side ∧ r.key = cr.key ∧ cr ∈ r.elem.credits

def InMap (s : State) (cr : Credit) : Prop := ∃ r ∈ mapRecords cr.side (s.flows cr.side), holds cr r

def InOut (s : State) (cr : Credit) : Prop := ∃ r ∈ s.out, holds cr r

def Drained (s : State) (cr : Credit) : Prop := ∃ d ∈ s.drains, ∃ r ∈ d.records, holds cr r

def Kept (s : State) (cr : Credit) : Prop := Drained s cr ∨ InOut s cr ∨ InMap s cr

def ofBytes (cr : Credit) : Prop := cr.counter = .txBytes ∨ cr.counter = .rxBytes

/-- A call that still works in map `m` while `m` is drained and returns later is
late, not lost: either it is one of the calls counted in `DROPS`, or its bytes
are under its own key in the map or already drained from it, and the drain in
progress or the next one of that map has them. -/
def LateNotLost (T : Table) (guard : State → Event → Prop) (capacity : Nat) : Prop :=
  ∀ {es₁ es₂ : List Event} {s₁ s₂ : State} {i : Nat} {t₁ t₂ : Thread} {m : Side} {bs : List Nat} {r : Bool},
    Run (step T) guard (init capacity) es₁ s₁ → s₁.phase = .draining m bs →
    s₁.threads[i]? = some t₁ → inFlight m t₁ = true →
    Run (step T) guard s₁ es₂ s₂ → s₂.threads[i]? = some t₂ → t₂.pc = .done m r →
    (r = false ∧ s₂.drops = s₂.threads.countP wasDropped) ∨
      (r = true ∧ ∀ cr ∈ t₂.credits m, ofBytes cr → Kept s₂ cr ∧
        ∀ {es₃ : List Event} {s₃ : State}, Run (step T) guard s₂ es₃ s₃ →
          drainsOf m s₂ + 2 ≤ drainsOf m s₃ → Drained s₃ cr)

theorem kept_of_held {s : State} (hs : Accounted s) {cr : Credit} (h : cr ∈ made s) : Kept s cr := by
  obtain ⟨r, hr, hcr⟩ := List.mem_flatMap.mp (hs.balanced.mem_iff.mpr h)
  have hown := hs.own r hr cr hcr
  have hh : holds cr r := ⟨hown.2.symm, hown.1.symm, hcr⟩
  simp only [holdings, List.mem_append] at hr
  rcases hr with ((hr | hr) | hr) | hr
  · obtain ⟨d, hd, hr⟩ := List.mem_flatMap.mp hr
    exact .inl ⟨d, hd, r, hr, hh⟩
  · exact .inr (.inl ⟨r, hr, hh⟩)
  · have hside : cr.side = .a := by
      obtain ⟨e, -, rfl⟩ := List.mem_map.mp hr
      exact hh.1.symm
    exact .inr (.inr ⟨r, hside ▸ hr, hh⟩)
  · have hside : cr.side = .b := by
      obtain ⟨e, -, rfl⟩ := List.mem_map.mp hr
      exact hh.1.symm
    exact .inr (.inr ⟨r, hside ▸ hr, hh⟩)

theorem held_of_kept {s : State} {cr : Credit} (h : Kept s cr) : cr ∈ held s := by
  have hin : ∃ r ∈ holdings s, cr ∈ r.elem.credits := by
    rcases h with ⟨d, hd, r, hr, h⟩ | ⟨r, hr, h⟩ | ⟨r, hr, h⟩
    · refine ⟨r, ?_, h.2.2⟩
      simp only [holdings, List.mem_append]
      exact .inl (.inl (.inl (List.mem_flatMap.mpr ⟨d, hd, hr⟩)))
    · exact ⟨r, by simp only [holdings, List.mem_append]; exact .inl (.inl (.inr hr)), h.2.2⟩
    · refine ⟨r, ?_, h.2.2⟩
      simp only [holdings, List.mem_append]
      cases hside : cr.side with
      | a => rw [hside] at hr; exact .inl (.inr hr)
      | b => rw [hside] at hr; exact .inr hr
  obtain ⟨r, hr, hcr⟩ := hin
  exact List.mem_flatMap.mpr ⟨r, hr, hcr⟩

theorem inMap_setMap {s : State} {m : Side} {f : Slots FlowKey Element} {cr : Credit} (h : InMap s cr)
    (hf : ∀ e ∈ entries (s.flows m), ∃ e' ∈ entries f, e'.1 = e.1 ∧ ∀ c ∈ e.2.credits, c ∈ e'.2.credits) :
    InMap (s.setMap m f) cr := by
  obtain ⟨r, hr, hside, hkey, hcr⟩ := h
  by_cases hm : cr.side = m
  · obtain ⟨e, he, rfl⟩ := List.mem_map.mp hr
    obtain ⟨e', he', hk, hc⟩ := hf e (hm ▸ he)
    refine ⟨⟨cr.side, e'.1, e'.2⟩, List.mem_map.mpr ⟨e', ?_, rfl⟩, rfl, hk.trans hkey, hc cr hcr⟩
    simpa [State.setMap, hm] using he'
  · exact ⟨r, by simpa [State.setMap, hm] using hr, hside, hkey, hcr⟩

theorem moves_inMap {s s' : State} {i : Nat} {t : Thread} {cr : Credit} (hi : s.threads[i]? = some t)
    (ha : Anchored s) (h : Moves s i t s') (hin : InMap s cr) : InMap s' cr := by
  cases h with
  | picked | found | missed | refused | lost | returned | dropped | registered => exact hin
  | @inserted m j w hpc hk hj =>
      obtain ⟨l, r, hl, hr⟩ := entries_insertAt hj t.call.key (t.firstElement m)
      refine inMap_setMap hin fun e he => ⟨e, ?_, rfl, fun c hc => hc⟩
      rw [hl] at he
      rw [hr]
      simp only [List.mem_append, List.mem_cons] at he ⊢
      tauto
  | @added m k n c hpc hcr =>
      obtain ⟨hn, rfl⟩ := List.getElem?_eq_some_iff.mp hcr
      obtain ⟨e, he⟩ := ha t (List.mem_of_getElem? hi) m k n hpc hn
      obtain ⟨l, r, hl, hr⟩ := entries_update he (Element.add ((t.credits m)[n]))
      apply inMap_setMap hin
      intro x hx
      rw [hl] at hx
      rw [hr]
      simp only [List.mem_append, List.mem_cons] at hx
      rcases hx with hx | rfl | hx
      · exact ⟨x, by simp [hx], rfl, fun c hc => hc⟩
      · exact ⟨(t.call.key, Element.add (t.credits m)[n] e), by simp, rfl, fun c hc => List.mem_cons_of_mem _ hc⟩
      · exact ⟨x, by simp [hx], rfl, fun c hc => hc⟩

/-- The drain in progress has already been past the bucket of the credit. -/
def Passed (T : Table) (s : State) (cr : Credit) : Prop :=
  s.phase = .drained cr.side ∨
    ∃ bs, s.phase = .draining cr.side bs ∧ inBuckets T bs cr.key = false

/-- Where a credit can be after `n` finished drains of its map: a drain can miss
it only once, by having passed its bucket before the call wrote. -/
def Tracked (T : Table) (n : Nat) (s : State) (cr : Credit) : Prop :=
  Drained s cr ∨ (InOut s cr ∧ drainsOf cr.side s ≤ n + 1) ∨
    (InMap s cr ∧ drainsOf cr.side s ≤ n + 1 ∧ (Passed T s cr → drainsOf cr.side s ≤ n))

theorem tracked_of_kept {T : Table} {s : State} {cr : Credit} (h : Kept s cr) :
    Tracked T (drainsOf cr.side s) s cr := by
  rcases h with h | h | h
  · exact .inl h
  · exact .inr (.inl ⟨h, Nat.le_succ _⟩)
  · exact .inr (.inr ⟨h, Nat.le_succ _, fun _ => le_rfl⟩)

theorem tracked_frame {T : Table} {n : Nat} {s s' : State} {cr : Credit} (h : Tracked T n s cr)
    (hd : s'.drains = s.drains) (ho : s'.out = s.out) (hin : InMap s cr → InMap s' cr)
    (hp : Passed T s' cr → Passed T s cr) : Tracked T n s' cr := by
  have hn : drainsOf cr.side s' = drainsOf cr.side s := by simp only [drainsOf, hd]
  rcases h with ⟨d, hd', h⟩ | ⟨⟨r, hr, h⟩, hle⟩ | ⟨h, hle, hpass⟩
  · exact .inl ⟨d, hd ▸ hd', h⟩
  · exact .inr (.inl ⟨⟨r, ho ▸ hr, h⟩, hn ▸ hle⟩)
  · exact .inr (.inr ⟨hin h, hn ▸ hle, fun hx => hn ▸ hpass (hp hx)⟩)

theorem moves_out {s s' : State} {i : Nat} {t : Thread} (h : Moves s i t s') :
    s'.drains = s.drains ∧ s'.out = s.out := by
  cases h <;> exact ⟨rfl, rfl⟩

theorem inBuckets_split {T : Table} {bs : List Nat} {n : Nat} {k : FlowKey}
    (h : inBuckets T (bs.take n) k = false) : inBuckets T (bs.drop n) k = inBuckets T bs k := by
  have hc : inBuckets T bs k = inBuckets T (bs.take n ++ bs.drop n) k := by rw [List.take_append_drop]
  rw [hc]
  simp only [inBuckets, List.contains_eq_mem, List.mem_append] at h ⊢
  simp only [decide_eq_false_iff_not] at h
  simp [h]

theorem batch_tracked {T : Table} {k n : Nat} {s : State} {cr : Credit} {m : Side} {bs : List Nat}
    (hp : s.phase = .draining m bs) (h : Tracked T k s cr) :
    Tracked T k (lookupAndDeleteBatch T s m bs n) cr := by
  rcases h with h | ⟨⟨r, hr, h⟩, hle⟩ | ⟨⟨r, hr, hside, hkey, hcr⟩, hle, hpass⟩
  · exact .inl h
  · exact .inr (.inl ⟨⟨r, List.mem_append_left _ hr, h⟩, hle⟩)
  · by_cases hm : cr.side = m
    · obtain ⟨e, he, rfl⟩ := List.mem_map.mp hr
      rw [hm] at he
      cases hb : inBuckets T (bs.take n) e.1 with
      | true =>
          refine .inr (.inl ⟨⟨⟨m, e.1, e.2⟩, List.mem_append_right _ ?_, hm.symm, hkey, hcr⟩, hle⟩)
          exact List.mem_map.mpr ⟨e, List.mem_filter.mpr ⟨he, hb⟩, rfl⟩
      | false =>
          refine .inr (.inr ⟨⟨⟨m, e.1, e.2⟩, ?_, hm.symm, hkey, hcr⟩, hle, ?_⟩)
          · rw [hm]
            refine List.mem_map.mpr ⟨e, ?_, rfl⟩
            simp only [lookupAndDeleteBatch, State.setMap, Function.update_self]
            rw [entries_delete]
            exact List.mem_filter.mpr ⟨he, by simp [hb]⟩
          · intro hpassed
            apply hpass
            refine .inr ⟨bs, by rw [hp, hm], ?_⟩
            have hk : e.1 = cr.key := hkey
            rw [hk] at hb
            rw [← inBuckets_split hb]
            simp only [Passed, lookupAndDeleteBatch] at hpassed
            by_cases hd : bs.drop n = []
            · rw [hd]; rfl
            · rw [if_neg hd] at hpassed
              rcases hpassed with hx | ⟨bs', hx, hbs⟩
              · cases hx
              · cases hx; exact hbs
    · refine .inr (.inr ⟨⟨r, ?_, hside, hkey, hcr⟩, hle, ?_⟩)
      · simpa [lookupAndDeleteBatch, State.setMap, hm] using hr
      · intro hpassed
        simp only [Passed, lookupAndDeleteBatch] at hpassed
        by_cases hd : bs.drop n = []
        · rw [if_pos hd] at hpassed
          rcases hpassed with hx | ⟨bs', hx, -⟩
          · cases hx; exact absurd rfl hm
          · cases hx
        · rw [if_neg hd] at hpassed
          rcases hpassed with hx | ⟨bs', hx, -⟩
          · cases hx
          · cases hx; exact absurd rfl hm

theorem collect_tracked {T : Table} {k : Nat} {s : State} {cr : Credit} {m : Side}
    (hp : s.phase = .drained m) (h : Tracked T k s cr) : Tracked T k (collect s m) cr := by
  rcases h with ⟨d, hd, h⟩ | ⟨⟨r, hr, h⟩, -⟩ | ⟨h, hle, hpass⟩
  · exact .inl ⟨d, List.mem_append_left _ hd, h⟩
  · exact .inl ⟨⟨m, s.out, s.ring⟩, List.mem_append_right _ (List.mem_singleton.mpr rfl), r, hr, h⟩
  · refine .inr (.inr ⟨h, ?_, ?_⟩)
    · by_cases hm : m = cr.side
      · have hle' := hpass (.inl (by rw [hp, hm]))
        simpa [drainsOf, collect, hm] using hle'
      · simpa [drainsOf, collect, hm] using hle
    · rintro (hx | ⟨bs, hx, -⟩) <;> cases hx

theorem inBuckets_range (T : Table) (k : FlowKey) : inBuckets T (List.range T.buckets) k = true := by
  simp [inBuckets]

theorem step_tracked {T : Table} {n : Nat} {s s' : State} {e : Event} {cr : Credit}
    (ha : Anchored s) (h : Steps T s e s') (ht : Tracked T n s cr) : Tracked T n s' cr := by
  cases h with
  | enter | evict => exact tracked_frame ht rfl rfl id id
  | advance hi hm =>
      obtain ⟨hd, ho⟩ := moves_out hm
      refine tracked_frame ht hd ho (moves_inMap hi ha hm) ?_
      simp only [Passed, (moves_frame hm).2.2, imp_self]
  | exit pid tgid tsNs reserved =>
      obtain ⟨p, r, hx⟩ := schedProcessExit_frame s pid tgid tsNs reserved
      rw [hx]
      exact tracked_frame ht rfl rfl id id
  | flip => exact tracked_frame ht rfl rfl id (by rintro (hx | ⟨bs, hx, -⟩) <;> cases hx)
  | @drainStart m =>
      refine tracked_frame ht rfl rfl id ?_
      rintro (hx | ⟨bs, hx, hb⟩)
      · cases hx
      · cases hx
        rw [inBuckets_range] at hb
        cases hb
  | drainBatch hp => exact batch_tracked hp ht
  | collect hp => exact collect_tracked hp ht

theorem run_tracked {T : Table} {n : Nat} {s s' : State} {es : List Event} {cr : Credit}
    (h : Run (step T) (NoStale T) s es s') (ha : Anchored s) (ht : Tracked T n s cr) : Tracked T n s' cr :=
  (h.invariant (I := fun s => Anchored s ∧ Tracked T n s cr) ⟨ha, ht⟩ fun _ _ _ hs hg hstep =>
    ⟨step_anchored hg hs.1 (step_steps hstep), step_tracked hs.1 (step_steps hstep) hs.2⟩).2

/-- Late updates are late, not lost, in every run in which no batch deletes an
element that a call has looked up and not finished adding to. -/
theorem late_updates_kept (T : Table) (capacity : Nat) : LateNotLost T (NoStale T) capacity := by
  intro es₁ es₂ s₁ s₂ i t₁ t₂ m bs r h₁ hp hi hf h₂ hi₂ hpc
  have h := h₁.append h₂
  cases r with
  | false => exact .inl ⟨rfl, run_drops h⟩
  | true =>
      refine .inr ⟨rfl, fun cr hcr _ => ?_⟩
      have hs := run_accounted h
      have hmade : cr ∈ made s₂ :=
        List.mem_flatMap.mpr ⟨t₂, List.mem_of_getElem? hi₂, by simpa [credited, hpc] using hcr⟩
      have hkept := kept_of_held hs hmade
      have hside : cr.side = m := (credits_own hcr).2.1
      refine ⟨hkept, ?_⟩
      intro es₃ s₃ h₃ hn
      rw [← hside] at hn
      rcases run_tracked h₃ hs.anchored (tracked_of_kept hkept) with hd | ⟨-, hle⟩ | ⟨-, hle, -⟩
      · exact hd
      · omega
      · omega

instance (T : Table) (s : State) (e : Event) : Decidable (NoStale T s e) :=
  inferInstanceAs (Decidable (_ = true))

/-- The call read `ACTIVE` before the flip and does everything else after the
drain has visited its bucket. -/
def lateSchedule : List Event := [.enter (sampleCall 20), .advance 0 0, .flip, .drainStart]

def lateRest : List Event := [.drainBatch 1, .advance 0 0, .advance 0 0, .advance 0 0, .collect]

theorem lateSchedule_runs :
    (exec (checked (step sampleTable) (NoStale sampleTable)) (init 1) lateSchedule).isSome = true := by decide

def lateState : State :=
  (exec (checked (step sampleTable) (NoStale sampleTable)) (init 1) lateSchedule).get lateSchedule_runs

theorem lateRest_runs :
    (exec (checked (step sampleTable) (NoStale sampleTable)) lateState lateRest).isSome = true := by decide

def lateDone : State :=
  (exec (checked (step sampleTable) (NoStale sampleTable)) lateState lateRest).get lateRest_runs

theorem late_updates_kept_sample :
    Run (step sampleTable) (NoStale sampleTable) (init 1) (lateSchedule ++ lateRest) lateDone ∧
      Kept lateDone ⟨0, .a, sampleKey, 5, .txBytes, 20⟩ := by
  have h₁ : Run (step sampleTable) (NoStale sampleTable) (init 1) lateSchedule lateState :=
    Run.of_checked (Option.some_get lateSchedule_runs).symm
  have h₂ : Run (step sampleTable) (NoStale sampleTable) lateState lateRest lateDone :=
    Run.of_checked (Option.some_get lateRest_runs).symm
  refine ⟨h₁.append h₂, ?_⟩
  have hlate := late_updates_kept sampleTable 1 h₁ (i := 0) (m := .a) rfl
    (Option.some_get (show (lateState.threads[0]?).isSome = true by decide)).symm rfl h₂
    (Option.some_get (show (lateDone.threads[0]?).isSome = true by decide)).symm (r := true) rfl
  rcases hlate with ⟨hr, -⟩ | ⟨-, hkept⟩
  · cases hr
  · exact (hkept _ (by decide) (.inl rfl)).1

/-- The call is stalled between its lookup and its add while the batch deletes
the element it found. -/
def staleSchedule : List Event :=
  [.enter (sampleCall 100), .advance 0 0, .advance 0 0, .advance 0 0, .advance 0 0,
    .enter (sampleCall 20), .advance 1 0, .advance 1 0, .flip, .drainStart]

def staleRest : List Event := [.drainBatch 1, .advance 1 0, .advance 1 0, .advance 1 0]

theorem staleSchedule_runs : (exec (step sampleTable) (init 1) staleSchedule).isSome = true := by decide

def staleState : State := (exec (step sampleTable) (init 1) staleSchedule).get staleSchedule_runs

theorem staleRest_runs : (exec (step sampleTable) staleState staleRest).isSome = true := by decide

def lostState : State := (exec (step sampleTable) staleState staleRest).get staleRest_runs

theorem late_update_lost : ¬ LateNotLost sampleTable Free 1 := by
  intro h
  have h₁ : Run (step sampleTable) Free (init 1) staleSchedule staleState :=
    Run.of_exec (Option.some_get staleSchedule_runs).symm
  have h₂ : Run (step sampleTable) Free staleState staleRest lostState :=
    Run.of_exec (Option.some_get staleRest_runs).symm
  have hlate := h h₁ (i := 1) (m := .a) rfl
    (Option.some_get (show (staleState.threads[1]?).isSome = true by decide)).symm rfl h₂
    (Option.some_get (show (lostState.threads[1]?).isSome = true by decide)).symm (r := true) rfl
  rcases hlate with ⟨hr, -⟩ | ⟨-, hkept⟩
  · cases hr
  · have hcr := hkept ⟨1, .a, sampleKey, 5, .txBytes, 20⟩ (by decide) (.inl rfl)
    exact absurd (held_of_kept hcr.1) (by decide)

end NetWatch.Kernel.Late
