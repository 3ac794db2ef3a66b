import NetWatch.Kernel.Account
import NetWatch.Lib.Ledgers
import NetWatch.Lib.Runs

namespace NetWatch.Kernel.Ledger

open Kernel.Types Account NetWatch.Lib.SlotMap NetWatch.Lib.Ledgers NetWatch.Lib.Runs

def mapRecords (m : Side) (f : Slots FlowKey Element) : List Record :=
  (entries f).map fun e => ⟨m, e.1, e.2⟩

/-- Everything the collector has drained and everything still in the maps. -/
def holdings (s : State) : List Record :=
  s.drains.flatMap Drain.records ++ s.out ++ mapRecords .a (s.flows .a) ++ mapRecords .b (s.flows .b)

def drained (s : State) : List Record := s.drains.flatMap Drain.records

def waiting (s : State) : List Record := s.out ++ mapRecords .a (s.flows .a) ++ mapRecords .b (s.flows .b)

theorem holdings_split (s : State) : holdings s = drained s ++ waiting s := by
  simp [holdings, drained, waiting]

theorem step_drained {T : Table} {s s' : State} {e : Event} (he : e ≠ .collect) (h : Steps T s e s') :
    drained s' = drained s := by
  cases h with
  | exit pid tgid tsNs reserved =>
      obtain ⟨p, r, hx⟩ := schedProcessExit_frame s pid tgid tsNs reserved
      rw [hx]
      rfl
  | advance hi hm => cases hm <;> rfl
  | enter | evict | flip | drainStart | drainBatch => rfl
  | collect => exact absurd rfl he

def credited (t : Thread) : List Credit :=
  match t.pc with
  | .add m _ n => (t.credits m).take n
  | .register m => t.credits m
  | .done m true => t.credits m
  | _ => []

def held (s : State) : List Credit := (holdings s).flatMap fun r => r.elem.credits

def made (s : State) : List Credit := s.threads.flatMap credited

/-- The call holds a pointer into map `m` through which it has yet to add. -/
def pointsInto (m : Side) (t : Thread) : Bool :=
  match t.pc with
  | .add m' _ n => m' = m && n < (t.credits m).length
  | _ => false

/-- No batch deletes an element to which a call is about to add. -/
def noStale (T : Table) (s : State) : Event → Bool
  | .drainBatch n => match s.phase with
    | .draining m bs =>
        s.threads.all fun t => !(pointsInto m t && inBuckets T (bs.take n) t.call.key)
    | _ => true
  | _ => true

def NoStale (T : Table) (s : State) (e : Event) : Prop := noStale T s e = true

def Anchored (s : State) : Prop :=
  ∀ t ∈ s.threads, ∀ m k n, t.pc = .add m k n → n < (t.credits m).length →
    ∃ e, (s.flows m)[k]? = some ⟨some t.call.key, e⟩

def Own (r : Record) : Prop := ∀ cr ∈ r.elem.credits, cr.key = r.key ∧ cr.side = r.side

theorem holdings_setMap (s : State) (m : Side) :
    ∃ l r, ∀ f, holdings (s.setMap m f) = l ++ mapRecords m f ++ r := by
  cases m with
  | a =>
      refine ⟨s.drains.flatMap Drain.records ++ s.out, mapRecords .b (s.flows .b), fun f => ?_⟩
      simp [holdings, State.setMap]
  | b =>
      refine ⟨s.drains.flatMap Drain.records ++ s.out ++ mapRecords .a (s.flows .a), [], fun f => ?_⟩
      simp [holdings, State.setMap]

theorem setMap_self (s : State) (m : Side) : s.setMap m (s.flows m) = s := by
  simp [State.setMap]

theorem holdings_setPc (s : State) (i : Nat) (t : Thread) (pc : Pc) :
    holdings (s.setPc i t pc) = holdings s := rfl

/-- Inserting into a free element puts one record among the holdings. -/
theorem holdings_insertAt {s : State} {m : Side} {j : Nat} {w : Element}
    (h : (s.flows m)[j]? = some ⟨none, w⟩) (k : FlowKey) (e : Element) :
    ∃ l r, holdings s = l ++ r ∧
      holdings (s.setMap m (insertAt (s.flows m) j k e)) = l ++ ⟨m, k, e⟩ :: r := by
  obtain ⟨l, r, hl⟩ := holdings_setMap s m
  obtain ⟨p, q, hp, hq⟩ := entries_insertAt h k e
  have hs := hl (s.flows m)
  rw [setMap_self] at hs
  refine ⟨l ++ p.map fun e => ⟨m, e.1, e.2⟩, (q.map fun e => ⟨m, e.1, e.2⟩) ++ r, ?_, ?_⟩
  · rw [hs, mapRecords, hp]
    simp
  · rw [hl, mapRecords, hq]
    simp

theorem holdings_update {s : State} {m : Side} {j : Nat} {k : FlowKey} {e : Element}
    (h : (s.flows m)[j]? = some ⟨some k, e⟩) (f : Element → Element) :
    ∃ l r, holdings s = l ++ ⟨m, k, e⟩ :: r ∧
      holdings (s.setMap m (update (s.flows m) j f)) = l ++ ⟨m, k, f e⟩ :: r := by
  obtain ⟨l, r, hl⟩ := holdings_setMap s m
  obtain ⟨p, q, hp, hq⟩ := entries_update h f
  have hs := hl (s.flows m)
  rw [setMap_self] at hs
  refine ⟨l ++ p.map fun e => ⟨m, e.1, e.2⟩, (q.map fun e => ⟨m, e.1, e.2⟩) ++ r, ?_, ?_⟩
  · rw [hs, mapRecords, hp]
    simp
  · rw [hl, mapRecords, hq]
    simp

theorem holdings_batch (T : Table) (s : State) (m : Side) (bs : List Nat) (n : Nat) :
    (holdings (lookupAndDeleteBatch T s m bs n)).Perm (holdings s) := by
  have hp := (taken_delete_perm (inBuckets T (bs.take n)) (s.flows m)).map
    fun e => (⟨m, e.1, e.2⟩ : Record)
  rw [List.map_append] at hp
  cases m with
  | a =>
      simp only [holdings, lookupAndDeleteBatch, State.setMap, Function.update_self, ne_eq,
        reduceCtorEq, not_false_eq_true, Function.update_of_ne, List.append_assoc]
      refine List.Perm.append_left _ (List.Perm.append_left _ ?_)
      rw [← List.append_assoc]
      exact hp.append_right _
  | b =>
      simp only [holdings, lookupAndDeleteBatch, State.setMap, Function.update_self, ne_eq,
        reduceCtorEq, not_false_eq_true, Function.update_of_ne, List.append_assoc]
      refine List.Perm.append_left _ (List.Perm.append_left _ ?_)
      exact (List.perm_append_comm_assoc _ _ _).trans (hp.append_left _)

theorem holdings_collect (s : State) (m : Side) : holdings (collect s m) = holdings s := by
  simp [holdings, collect]

theorem holdings_exit (s : State) (pid tgid : UInt32) (tsNs : UInt64) (reserved : Bool) :
    holdings (schedProcessExit s pid tgid tsNs reserved) = holdings s := by
  obtain ⟨p, r, h⟩ := schedProcessExit_frame s pid tgid tsNs reserved
  rw [h]
  rfl

/-- The writes of a step, entered once among the holdings and once under the
calls. -/
def Growth (s s' : State) : Prop :=
  ∃ d, (held s').Perm (d ++ held s) ∧ (made s').Perm (d ++ made s)

theorem made_setPc {s : State} {i : Nat} {t : Thread} (hi : s.threads[i]? = some t) (pc : Pc) (d : List Credit)
    (hd : (credited { t with pc := pc }).Perm (d ++ credited t)) :
    (made (s.setPc i t pc)).Perm (d ++ made s) :=
  flatMap_set hi hd

theorem growth_still {s : State} {i : Nat} {t : Thread} (hi : s.threads[i]? = some t) (pc : Pc)
    (hd : credited { t with pc := pc } = credited t) : Growth s (s.setPc i t pc) :=
  ⟨[], .refl _, made_setPc hi pc [] (by rw [hd]; exact .refl _)⟩

theorem moves_growth {s s' : State} {i : Nat} {t : Thread} (hi : s.threads[i]? = some t)
    (ha : Anchored s) (h : Moves s i t s') : Growth s s' := by
  cases h with
  | picked hpc => exact growth_still hi _ (by simp [credited, hpc])
  | found hpc _ => rcases hpc with hpc | hpc <;> exact growth_still hi _ (by simp [credited, hpc])
  | missed hpc => exact growth_still hi _ (by simp [credited, hpc])
  | refused hpc => exact growth_still hi _ (by simp [credited, hpc])
  | lost hpc => exact growth_still hi _ (by simp [credited, hpc])
  | dropped hpc => exact growth_still hi _ (by simp [credited, hpc])
  | registered hpc => exact growth_still hi _ (by simp [credited, hpc, Thread.credits])
  | returned hpc hn =>
      have hl := List.getElem?_eq_none_iff.mp hn
      apply growth_still hi
      simp only [credited, hpc]
      exact (List.take_of_length_le hl).symm
  | @inserted m j w hpc hk hj =>
      obtain ⟨l, r, hl, hr⟩ := holdings_insertAt hj t.call.key (t.firstElement m)
      refine ⟨t.credits m, ?_, made_setPc hi _ _ (by simp [credited, hpc, Thread.credits])⟩
      rw [held, held, holdings_setPc, hl, hr]
      exact flatMap_insert _ l r
  | @added m k n cr hpc hcr =>
      obtain ⟨hn, rfl⟩ := List.getElem?_eq_some_iff.mp hcr
      obtain ⟨e, he⟩ := ha t (List.mem_of_getElem? hi) m k n hpc hn
      obtain ⟨l, r, hl, hr⟩ := holdings_update he (Element.add ((t.credits m)[n]))
      refine ⟨[(t.credits m)[n]], ?_, made_setPc hi _ _ ?_⟩
      · rw [held, held, holdings_setPc, hl, hr]
        exact flatMap_replace (f := fun r : Record => r.elem.credits) (.refl _) l r
      · simp only [credited, hpc]
        change ((t.credits m).take (n + 1)).Perm _
        rw [List.take_succ_eq_append_getElem hn]
        exact List.perm_append_comm

theorem step_growth {T : Table} {s s' : State} {e : Event} (ha : Anchored s)
    (h : Steps T s e s') : Growth s s' := by
  cases h with
  | enter c => exact ⟨[], .refl _, by simp [made, enter, credited]⟩
  | advance hi hm => exact moves_growth hi ha hm
  | exit pid tgid tsNs reserved =>
      obtain ⟨p, r, hx⟩ := schedProcessExit_frame s pid tgid tsNs reserved
      rw [hx]
      exact ⟨[], .refl _, .refl _⟩
  | evict | flip | drainStart => exact ⟨[], .refl _, .refl _⟩
  | drainBatch => exact ⟨[], (holdings_batch ..).flatMap_right _, .refl _⟩
  | collect => exact ⟨[], by rw [held, holdings_collect]; exact .refl _, .refl _⟩

theorem credits_own {t : Thread} {m : Side} {cr : Credit} (h : cr ∈ t.credits m) :
    cr.key = t.call.key ∧ cr.side = m ∧ cr.startNs = t.call.task.startBoottime ∧ cr.call = t.id := by
  obtain ⟨x, -, rfl⟩ := List.mem_map.mp h
  exact ⟨rfl, rfl, rfl, rfl⟩

/-- A property of records that the first record of a call has, once it is
inserted, and that its adds keep. -/
structure Lasts (s s' : State) (P : Record → Prop) (t : Thread) : Prop where
  first : ∀ m, t.pc = .insert m → { t with pc := .register m } ∈ s'.threads → P ⟨m, t.call.key, t.firstElement m⟩
  add : ∀ m k n cr e, t.pc = .add m k n → cr ∈ t.credits m → (s.flows m)[k]? = some ⟨some t.call.key, e⟩ →
    P ⟨m, t.call.key, e⟩ → P ⟨m, t.call.key, e.add cr⟩

section Records

variable {s s' : State} {P : Record → Prop}

theorem moves_records {i : Nat} {t : Thread} (hi : s.threads[i]? = some t) (ha : Anchored s) (h : Moves s i t s')
    (ht : Lasts s s' P t) (hP : ∀ r ∈ holdings s, P r) : ∀ r ∈ holdings s', P r := by
  cases h with
  | picked | found | missed | refused | lost | dropped | registered | returned => exact hP
  | @inserted m j w hpc hk hj =>
      obtain ⟨l, r, hl, hr⟩ := holdings_insertAt hj t.call.key (t.firstElement m)
      rw [holdings_setPc, hr]
      rw [hl] at hP
      intro z hz
      rcases List.mem_append.mp hz with hz | hz
      · exact hP z (List.mem_append_left _ hz)
      · rcases List.mem_cons.mp hz with rfl | hz
        · exact ht.first m hpc (List.mem_of_getElem? (List.getElem?_set_self (List.getElem?_eq_some_iff.mp hi).1))
        · exact hP z (List.mem_append_right _ hz)
  | @added m k n cr hpc hcr =>
      obtain ⟨hn, rfl⟩ := List.getElem?_eq_some_iff.mp hcr
      obtain ⟨e, he⟩ := ha t (List.mem_of_getElem? hi) m k n hpc hn
      obtain ⟨l, r, hl, hr⟩ := holdings_update he (Element.add ((t.credits m)[n]))
      rw [holdings_setPc, hr]
      rw [hl] at hP
      intro z hz
      rcases List.mem_append.mp hz with hz | hz
      · exact hP z (List.mem_append_left _ hz)
      · rcases List.mem_cons.mp hz with rfl | hz
        · exact ht.add m k n _ e hpc (List.getElem_mem hn) he (hP _ (List.mem_append_right _ List.mem_cons_self))
        · exact hP z (List.mem_append_right _ (List.mem_cons_of_mem _ hz))

theorem step_records {T : Table} {e : Event} (ha : Anchored s) (h : Steps T s e s') (ht : ∀ t ∈ s.threads, Lasts s s' P t)
    (hP : ∀ r ∈ holdings s, P r) : ∀ r ∈ holdings s', P r := by
  cases h with
  | advance hi hm => exact moves_records hi ha hm (ht _ (List.mem_of_getElem? hi)) hP
  | exit => rwa [holdings_exit]
  | enter | evict | flip | drainStart => exact hP
  | drainBatch => exact fun r hr => hP r ((holdings_batch ..).mem_iff.mp hr)
  | collect => rwa [holdings_collect]

end Records

theorem lasts_own (s s' : State) (t : Thread) : Lasts s s' Own t where
  first m _ _ cr hcr := ⟨(credits_own hcr).1, (credits_own hcr).2.1⟩
  add m k n cr e _ hcr _ hown := by
    intro c hc
    rcases List.mem_cons.mp hc with rfl | hc
    · exact ⟨(credits_own hcr).1, (credits_own hcr).2.1⟩
    · exact hown c hc

theorem anchored_setPc {s : State} {i : Nat} {t : Thread} {pc : Pc} (ha : Anchored s)
    (hpc : ∀ m k n, pc = .add m k n → n < (t.credits m).length →
      ∃ e, (s.flows m)[k]? = some ⟨some t.call.key, e⟩) : Anchored (s.setPc i t pc) := by
  intro u hu m k n hadd hn
  rcases List.mem_or_eq_of_mem_set hu with hu | rfl
  · exact ha u hu m k n hadd hn
  · exact hpc m k n hadd hn

theorem anchored_setMap {s : State} {m : Side} {f : Slots FlowKey Element} (ha : Anchored s)
    (hf : ∀ (k : Nat) (key : FlowKey) (e : Element), (s.flows m)[k]? = some ⟨some key, e⟩ →
      ∃ e' : Element, f[k]? = some ⟨some key, e'⟩) : Anchored (s.setMap m f) := by
  intro u hu m' k n hadd hn
  obtain ⟨e, he⟩ := ha u hu m' k n hadd hn
  by_cases hm : m' = m
  · subst hm
    simpa [State.setMap] using hf k _ e he
  · exact ⟨e, by simpa [State.setMap, hm] using he⟩

theorem moves_anchored {s s' : State} {i : Nat} {t : Thread} (hi : s.threads[i]? = some t)
    (ha : Anchored s) (h : Moves s i t s') : Anchored s' := by
  cases h with
  | picked | missed | refused | lost | registered | returned | dropped =>
      exact anchored_setPc ha (by intro m k n hadd; cases hadd)
  | @found m k hpc hk =>
      apply anchored_setPc ha
      intro m' k' n hadd hn
      cases hadd
      exact lookup_some hk
  | @inserted m j w hpc hk hj =>
      refine anchored_setPc (anchored_setMap ha ?_) (by intro m k n hadd; cases hadd)
      exact fun k key e he => ⟨e, getElem?_insertAt he hj⟩
  | @added m k n cr hpc hcr =>
      have hold : Anchored (s.setMap m (update (s.flows m) k (Element.add cr))) :=
        anchored_setMap ha fun k' key e he => ⟨_, getElem?_update k _ he⟩
      apply anchored_setPc hold
      intro m' k' n' hadd hn
      cases hadd
      obtain ⟨e, he⟩ := ha t (List.mem_of_getElem? hi) m k n hpc (by omega)
      have he' := getElem?_update k (Element.add cr) he
      exact ⟨_, by simpa [State.setMap] using he'⟩

theorem step_anchored {T : Table} {s s' : State} {e : Event} (hg : NoStale T s e) (ha : Anchored s)
    (h : Steps T s e s') : Anchored s' := by
  cases h with
  | enter c =>
      intro u hu m k n hadd hn
      rcases List.mem_append.mp hu with hu | hu
      · exact ha u hu m k n hadd hn
      · obtain rfl := List.mem_singleton.mp hu
        cases hadd
  | advance hi hm => exact moves_anchored hi ha hm
  | exit pid tgid tsNs reserved =>
      obtain ⟨p, r, hx⟩ := schedProcessExit_frame s pid tgid tsNs reserved
      rw [hx]
      exact ha
  | evict | flip | drainStart | collect => exact ha
  | @drainBatch m bs n hp =>
      simp only [NoStale, noStale, hp, List.all_eq_true, Bool.not_eq_true', Bool.and_eq_false_imp] at hg
      intro u hu m' k j hadd hj
      obtain ⟨e, he⟩ := ha u hu m' k j hadd hj
      by_cases hm : m' = m
      · subst hm
        have hkey := hg u hu (by simp [pointsInto, hadd, hj])
        exact ⟨e, by simpa [lookupAndDeleteBatch, State.setMap] using getElem?_delete he hkey⟩
      · exact ⟨e, by simpa [lookupAndDeleteBatch, State.setMap, hm] using he⟩

/-- Without stale pointers, every write made by a call sits in exactly one
record, and that record has the key and the map of the call. -/
structure Accounted (s : State) : Prop where
  anchored : Anchored s
  own : ∀ r ∈ holdings s, Own r
  balanced : (held s).Perm (made s)

theorem init_accounted (capacity : Nat) : Accounted (init capacity) where
  anchored := by intro t ht; cases ht
  own := by
    intro r hr
    simp [holdings, init, mapRecords, entries_empty] at hr
  balanced := by simp [held, made, holdings, init, mapRecords, entries_empty]

theorem step_accounted {T : Table} {s s' : State} {e : Event} (hg : NoStale T s e)
    (h : Steps T s e s') (hs : Accounted s) : Accounted s' where
  anchored := step_anchored hg hs.anchored h
  own := step_records hs.anchored h (fun t _ => lasts_own s s' t) hs.own
  balanced := by
    obtain ⟨d, hh, hm⟩ := step_growth hs.anchored h
    exact hh.trans ((hs.balanced.append_left d).trans hm.symm)

theorem run_accounted {T : Table} {capacity : Nat} {es : List Event} {s : State}
    (h : Run (step T) (NoStale T) (init capacity) es s) : Accounted s :=
  h.invariant (init_accounted capacity)
    fun _ _ _ hs hg ht => step_accounted hg (step_steps ht) hs

end NetWatch.Kernel.Ledger
