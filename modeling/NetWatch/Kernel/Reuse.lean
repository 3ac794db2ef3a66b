import NetWatch.Kernel.Ledger

namespace NetWatch.Kernel.Reuse

open Kernel.Types Account Ledger NetWatch.Lib.SlotMap NetWatch.Lib.Runs

/-- A process instance: its id and the start time of its leader. -/
abbrev Instance := UInt32 × UInt64

def ownerOf (t : Thread) : Instance := (t.call.key.tgid, t.call.task.startBoottime)

def creditOwner (cr : Credit) : Instance := (cr.key.tgid, cr.startNs)

def recordOwner (r : Record) : Instance := (r.key.tgid, r.elem.stats.startNs)

def finished (t : Thread) : Bool :=
  match t.pc with
  | .done _ _ => true
  | _ => false

def quiet (s : State) : Bool := s.threads.all finished

/-- The kernel with the instances that use it. `live` has the start time of the
present instance of an id and whether its leader still runs, `past` all instances
so far, and `owed` the exit events of the instances with recorded bytes. -/
structure World where
  kernel : State
  live : UInt32 → Option (UInt64 × Bool)
  past : List Instance
  owed : List ExitEvent

def World.start (capacity : Nat) : World := ⟨init capacity, fun _ => none, [], []⟩

inductive Event
  | fork (tgid : UInt32) (startNs : UInt64)
  | exit (pid tgid : UInt32) (tsNs : UInt64)
  | reap (tgid : UInt32)
  | kernel (e : Account.Event)

/-- An execution of `account` is not interrupted, and only a present instance
calls it. -/
def permitted (w : World) : Account.Event → Bool
  | .enter c => quiet w.kernel && decide ((w.live c.key.tgid).map Prod.fst = some c.task.startBoottime)
  | .advance _ _ => true
  | .exit _ _ _ _ | .evict _ => false
  | .flip | .drainStart | .drainBatch _ | .collect => quiet w.kernel

def hasBytes (s : State) (id : Instance) : Bool := (made s).any fun cr => creditOwner cr = id

def leaderExit (w : World) (tgid : UInt32) (startNs tsNs : UInt64) : World :=
  { w with
    kernel := schedProcessExit w.kernel tgid tgid tsNs true
    live := Function.update w.live tgid (some (startNs, false))
    owed := w.owed ++ if hasBytes w.kernel (tgid, startNs) then [⟨tgid, startNs, tsNs⟩] else [] }

def World.step (T : Table) (w : World) : Event → Option World
  | .fork tgid startNs =>
      if quiet w.kernel ∧ w.live tgid = none ∧ (tgid, startNs) ∉ w.past then
        some { w with live := Function.update w.live tgid (some (startNs, true)), past := (tgid, startNs) :: w.past }
      else none
  | .exit pid tgid tsNs =>
      if quiet w.kernel then
        match w.live tgid with
        | some (startNs, leader) =>
            if pid ≠ tgid then some { w with kernel := schedProcessExit w.kernel pid tgid tsNs true }
            else if leader then some (leaderExit w tgid startNs tsNs) else none
        | none => none
      else none
  | .reap tgid =>
      if quiet w.kernel ∧ (w.live tgid).map Prod.snd = some false then
        some { w with live := Function.update w.live tgid none }
      else none
  | .kernel e => if permitted w e then (Account.step T w.kernel e).map fun k => { w with kernel := k } else none

/-- A call that finds its key in the map finds a record of its own instance. -/
def hitsOwn (s : State) (t : Thread) : Bool :=
  match t.pc with
  | .lookup m | .retry m =>
      (lookup (s.flows m) t.call.key).all fun k =>
        ((s.flows m)[k]?).all fun x => x.val.stats.startNs = t.call.task.startBoottime
  | _ => true

def keepsApart (w : World) : Event → Bool
  | .kernel (.enter c) => c.task.startRead
  | .kernel (.advance i _) => (w.kernel.threads[i]?).all (hitsOwn w.kernel)
  | _ => true

def KeepsApart (w : World) (e : Event) : Prop := keepsApart w e = true

inductive Happens (T : Table) (w : World) : Event → World → Prop
  | fork {tgid startNs} (hnone : w.live tgid = none) (hnew : (tgid, startNs) ∉ w.past) :
      Happens T w (.fork tgid startNs)
        { w with live := Function.update w.live tgid (some (startNs, true)), past := (tgid, startNs) :: w.past }
  | threadExit {pid tgid tsNs} (hne : pid ≠ tgid) :
      Happens T w (.exit pid tgid tsNs) { w with kernel := schedProcessExit w.kernel pid tgid tsNs true }
  | leaderExit {tgid startNs tsNs} (hq : quiet w.kernel = true) (hlive : w.live tgid = some (startNs, true)) :
      Happens T w (.exit tgid tgid tsNs) (leaderExit w tgid startNs tsNs)
  | reap {tgid} (hq : quiet w.kernel = true) : Happens T w (.reap tgid) { w with live := Function.update w.live tgid none }
  | kernel {e k} (hp : permitted w e = true) (hk : Steps T w.kernel e k) :
      Happens T w (.kernel e) { w with kernel := k }

theorem step_happens {T : Table} {w w' : World} {e : Event} (h : w.step T e = some w') : Happens T w e w' := by
  cases e with
  | fork tgid startNs =>
      simp only [World.step] at h
      split_ifs at h with hc
      cases h
      exact .fork hc.2.1 hc.2.2
  | exit pid tgid tsNs =>
      simp only [World.step, Option.ite_none_right_eq_some] at h
      obtain ⟨hq, h⟩ := h
      split at h
      · rename_i startNs leader hlive
        split_ifs at h with hne hleader
        · cases h
          exact .threadExit hne
        · cases h
          obtain rfl := not_not.mp hne
          exact .leaderExit hq (hleader ▸ hlive)
      · cases h
  | reap tgid =>
      simp only [World.step] at h
      split_ifs at h with hc
      cases h
      exact .reap hc.1
  | kernel e =>
      simp only [World.step] at h
      split_ifs at h with hp
      obtain ⟨k, hk, rfl⟩ := Option.map_eq_some_iff.mp h
      exact .kernel hp (step_steps hk)

theorem quiet_noStale {T : Table} {w : World} {e : Account.Event} (h : permitted w e = true) :
    NoStale T w.kernel e := by
  cases e with
  | drainBatch n =>
      have hq : ∀ t ∈ w.kernel.threads, finished t = true := List.all_eq_true.mp h
      simp only [NoStale, noStale]
      split
      · rename_i m bs hp
        rw [List.all_eq_true]
        intro t ht
        have hf := hq t ht
        cases hpc : t.pc with
        | add m' k n => simp [finished, hpc] at hf
        | _ => simp [pointsInto, hpc]
      · rfl
  | _ => rfl

def Registering (s : State) (id : Instance) : Prop := ∃ t ∈ s.threads, (∃ m, t.pc = .register m) ∧ ownerOf t = id

/-- While the leader of an instance runs, `PROCS` has the start time of the
instance, or a call is about to enter it. -/
def Registered (w : World) (id : Instance) : Prop :=
  w.live id.1 = some (id.2, true) → w.kernel.procs id.1 = some id.2 ∨ Registering w.kernel id

def exits (s : State) : List ExitEvent := s.drains.flatMap Drain.exits ++ s.ring

def Pure (r : Record) : Prop := ∀ cr ∈ r.elem.credits, cr.startNs = r.elem.stats.startNs

def Aimed (s : State) : Prop :=
  ∀ t ∈ s.threads, ∀ m k n, t.pc = .add m k n →
    ∃ e, (s.flows m)[k]? = some ⟨some t.call.key, e⟩ ∧ e.stats.startNs = t.call.task.startBoottime

structure Apart (w : World) : Prop where
  accounted : Accounted w.kernel
  pure : ∀ r ∈ holdings w.kernel, Pure r
  aimed : Aimed w.kernel
  running : ∀ t ∈ w.kernel.threads, finished t = false →
    t.call.task.startRead = true ∧ (w.live t.call.key.tgid).map Prod.fst = some t.call.task.startBoottime
  known : ∀ tgid id, (w.live tgid).map Prod.fst = some id → (tgid, id) ∈ w.past
  recorded : ∀ r ∈ holdings w.kernel, recordOwner r ∈ w.past
  registered : ∀ r ∈ holdings w.kernel, Registered w (recordOwner r)
  reported : ∀ e ∈ w.owed, e ∈ exits w.kernel

theorem start_apart (capacity : Nat) : Apart (.start capacity) where
  accounted := init_accounted capacity
  pure := by
    intro r hr
    simp [World.start, holdings, init, mapRecords, entries_empty] at hr
  aimed t ht := absurd ht List.not_mem_nil
  running t ht := absurd ht List.not_mem_nil
  known _ _ h := absurd h nofun
  recorded := by
    intro r hr
    simp [World.start, holdings, init, mapRecords, entries_empty] at hr
  registered _ _ h := absurd h nofun
  reported _ h := absurd h List.not_mem_nil

section Moves

variable {s s' : State} {i : Nat} {t : Thread}

theorem startNs_add (e : Element) (cr : Credit) : (e.add cr).stats.startNs = e.stats.startNs :=
  FlowStats.startNs_atomicXadd _ _ _

theorem aimed_setPc {pc : Pc} (ha : Aimed s) (hpc : ∀ m k n, pc = .add m k n →
    ∃ e, (s.flows m)[k]? = some ⟨some t.call.key, e⟩ ∧ e.stats.startNs = t.call.task.startBoottime) :
    Aimed (s.setPc i t pc) := by
  intro u hu m k n hadd
  rcases List.mem_or_eq_of_mem_set hu with hu | rfl
  · exact ha u hu m k n hadd
  · exact hpc m k n hadd

theorem aimed_setMap {m : Side} {f : Slots FlowKey Element} (ha : Aimed s)
    (hf : ∀ (k : Nat) (key : FlowKey) (e : Element), (s.flows m)[k]? = some ⟨some key, e⟩ →
      ∃ e' : Element, f[k]? = some ⟨some key, e'⟩ ∧ e'.stats.startNs = e.stats.startNs) : Aimed (s.setMap m f) := by
  intro u hu m' k n hadd
  obtain ⟨e, he, hstart⟩ := ha u hu m' k n hadd
  by_cases hm : m' = m
  · subst hm
    obtain ⟨e', he', hsame⟩ := hf k _ e he
    exact ⟨e', by simpa [State.setMap] using he', hsame.trans hstart⟩
  · exact ⟨e, by simpa [State.setMap, hm] using he, hstart⟩

theorem moves_aimed (hi : s.threads[i]? = some t) (ha : Aimed s) (hown : hitsOwn s t = true) (h : Moves s i t s') :
    Aimed s' := by
  cases h with
  | picked | missed | refused | lost | registered | returned | dropped =>
      exact aimed_setPc ha (by intro m k n hadd; cases hadd)
  | @found m k hpc hk =>
      apply aimed_setPc ha
      intro m' k' n hadd
      cases hadd
      obtain ⟨e, he⟩ := lookup_some hk
      refine ⟨e, he, ?_⟩
      rcases hpc with hpc | hpc
      · simpa [hitsOwn, hpc, hk, he] using hown
      · simpa [hitsOwn, hpc, hk, he] using hown
  | @inserted m j w hpc hk hj =>
      refine aimed_setPc (aimed_setMap ha ?_) (by intro m k n hadd; cases hadd)
      exact fun k key e he => ⟨e, getElem?_insertAt he hj, rfl⟩
  | @added m k n cr hpc hcr =>
      have hold : Aimed (s.setMap m (update (s.flows m) k (Element.add cr))) := by
        refine aimed_setMap ha fun k' key e he => ⟨_, getElem?_update k _ he, ?_⟩
        split_ifs
        · exact startNs_add e cr
        · rfl
      apply aimed_setPc hold
      intro m' k' n' hadd
      cases hadd
      exact hold t (List.mem_of_getElem? hi) m k n hpc

theorem moves_unfinished (h : Moves s i t s') : finished t = false := by
  cases h with
  | found hpc => rcases hpc with hpc | hpc <;> simp [finished, hpc]
  | picked hpc | missed hpc | refused hpc | inserted hpc | lost hpc | added hpc | returned hpc | dropped hpc
  | registered hpc => simp [finished, hpc]

theorem moves_threads (h : Moves s i t s') : ∃ pc, s'.threads = s.threads.set i { t with pc := pc } := by
  cases h <;> exact ⟨_, rfl⟩

theorem moves_registering (hi : s.threads[i]? = some t) (h : Moves s i t s') {id : Instance} (hr : Registering s id) :
    Registering s' id ∨ (∃ m, t.pc = .register m) ∧ ownerOf t = id := by
  obtain ⟨u, hu, hreg, hid⟩ := hr
  obtain ⟨pc, hthreads⟩ := moves_threads h
  obtain ⟨p, q, hp, hq⟩ := Lib.Ledgers.set_split hi { t with pc := pc }
  rw [hp, List.mem_append, List.mem_cons] at hu
  rcases hu with hu | rfl | hu
  · exact .inl ⟨u, by rw [hthreads, hq]; exact List.mem_append_left _ hu, hreg, hid⟩
  · exact .inr ⟨hreg, hid⟩
  · exact .inl ⟨u, by rw [hthreads, hq]; exact List.mem_append_right _ (List.mem_cons_of_mem _ hu), hreg, hid⟩

end Moves

section Steps

variable {T : Table} {w : World} {e : Account.Event} {k : State}

theorem moves_registered {i : Nat} {t : Thread} (hw : Apart w) (hi : w.kernel.threads[i]? = some t)
    (h : Moves w.kernel i t k) {id : Instance} (hr : Registered w id) : Registered { w with kernel := k } id := by
  intro hlive
  obtain ⟨hread, hcur⟩ := hw.running t (List.mem_of_getElem? hi) (moves_unfinished h)
  have hreg := fun hr₀ : Registering w.kernel id => moves_registering hi h hr₀
  cases h with
  | @registered m hpc =>
      by_cases htgid : id.1 = t.call.key.tgid
      · have hstart : id.2 = t.call.task.startBoottime := by
          rw [← htgid, hlive] at hcur
          exact Option.some.inj hcur
        refine .inl ?_
        rw [hstart, ← firstStats_startNs t.call hread]
        simp [State.setPc, htgid]
      · rcases hr hlive with hprocs | hreg₀
        · refine .inl ?_
          simpa [State.setPc, htgid] using hprocs
        · rcases hreg hreg₀ with hreg | ⟨-, rfl⟩
          · exact .inr hreg
          · exact absurd rfl htgid
  | found hpc =>
      rcases hr hlive with hprocs | hreg₀
      · exact .inl hprocs
      · rcases hreg hreg₀ with hreg | ⟨⟨m, hm⟩, -⟩
        · exact .inr hreg
        · rcases hpc with hpc | hpc <;> rw [hpc] at hm <;> cases hm
  | picked hpc | missed hpc | refused hpc | inserted hpc | lost hpc | added hpc | returned hpc | dropped hpc =>
      rcases hr hlive with hprocs | hreg₀
      · exact .inl hprocs
      · rcases hreg hreg₀ with hreg | ⟨⟨m, hm⟩, -⟩
        · exact .inr hreg
        · rw [hpc] at hm
          cases hm

theorem steps_registered (hw : Apart w) (hp : permitted w e = true) (h : Steps T w.kernel e k) {id : Instance}
    (hr : Registered w id) : Registered { w with kernel := k } id := by
  cases h with
  | advance hi hm => exact moves_registered hw hi hm hr
  | enter c =>
      intro hlive
      rcases hr hlive with hprocs | ⟨u, hu, hreg, hid⟩
      · exact .inl hprocs
      · exact .inr ⟨u, List.mem_append_left _ hu, hreg, hid⟩
  | exit => cases hp
  | evict => cases hp
  | flip | drainStart | drainBatch | collect => exact hr

theorem steps_running (hw : Apart w) (hg : KeepsApart w (.kernel e)) (hp : permitted w e = true)
    (h : Steps T w.kernel e k) : ∀ t ∈ k.threads, finished t = false →
      t.call.task.startRead = true ∧ (w.live t.call.key.tgid).map Prod.fst = some t.call.task.startBoottime := by
  cases h with
  | enter c =>
      intro t ht hf
      rcases List.mem_append.mp ht with ht | ht
      · exact hw.running t ht hf
      · obtain rfl := List.mem_singleton.mp ht
        simp only [permitted, Bool.and_eq_true, decide_eq_true_eq] at hp
        exact ⟨hg, hp.2⟩
  | @advance i j t s' hi hm =>
      obtain ⟨pc, hthreads⟩ := moves_threads hm
      intro u hu hf
      rw [hthreads] at hu
      rcases List.mem_or_eq_of_mem_set hu with hu | rfl
      · exact hw.running u hu hf
      · exact hw.running t (List.mem_of_getElem? hi) (moves_unfinished hm)
  | exit => cases hp
  | evict => cases hp
  | flip | drainStart | drainBatch | collect => exact hw.running

theorem steps_aimed (hw : Apart w) (hg : KeepsApart w (.kernel e)) (hp : permitted w e = true)
    (h : Steps T w.kernel e k) : Aimed k := by
  cases h with
  | enter c =>
      intro t ht m j n hadd
      rcases List.mem_append.mp ht with ht | ht
      · exact hw.aimed t ht m j n hadd
      · obtain rfl := List.mem_singleton.mp ht
        cases hadd
  | @advance i j t s' hi hm =>
      have hown : hitsOwn w.kernel t = true := by simpa [KeepsApart, keepsApart, hi] using hg
      exact moves_aimed hi hw.aimed hown hm
  | exit => cases hp
  | evict => cases hp
  | flip | drainStart | collect => exact hw.aimed
  | drainBatch =>
      intro t ht m j n hadd
      have hf := List.all_eq_true.mp hp t ht
      simp [finished, hadd] at hf

theorem steps_exits (hp : permitted w e = true) (h : Steps T w.kernel e k) : exits k = exits w.kernel := by
  cases h with
  | advance hi hm => cases hm <;> rfl
  | exit => cases hp
  | evict => cases hp
  | enter | flip | drainStart | drainBatch => rfl
  | collect => simp [exits, collect]

theorem unfinished_insert {t : Thread} {m : Side} (h : t.pc = .insert m) : finished t = false := by
  simp [finished, h]

theorem firstElement_owner (hw : Apart w) {t : Thread} (ht : t ∈ w.kernel.threads) {m : Side} (hpc : t.pc = .insert m) :
    recordOwner ⟨m, t.call.key, t.firstElement m⟩ = ownerOf t :=
  Prod.ext rfl (firstStats_startNs t.call (hw.running t ht (unfinished_insert hpc)).1)

theorem recordOwner_add (m : Side) (key : FlowKey) (x : Element) (cr : Credit) :
    recordOwner ⟨m, key, x.add cr⟩ = recordOwner ⟨m, key, x⟩ :=
  Prod.ext rfl (startNs_add x cr)

theorem lasts_pure (hw : Apart w) {t : Thread} (ht : t ∈ w.kernel.threads) : Lasts w.kernel k Pure t where
  first m hpc _ cr hcr := by
    have hstart := congrArg Prod.snd (firstElement_owner hw ht hpc)
    exact (credits_own hcr).2.2.1.trans hstart.symm
  add m j n cr x hpc hcr hx hpure := by
    obtain ⟨y, hy, hstart⟩ := hw.aimed t ht m j n hpc
    obtain rfl : x = y := by
      rw [hx] at hy
      simpa using hy
    intro c hc
    rw [startNs_add]
    rcases List.mem_cons.mp hc with rfl | hc
    · exact (credits_own hcr).2.2.1.trans hstart.symm
    · exact hpure c hc

theorem lasts_owner {P : Instance → Prop} (hw : Apart w) {t : Thread} (ht : t ∈ w.kernel.threads)
    (hfirst : ∀ m, t.pc = .insert m → { t with pc := .register m } ∈ k.threads → P (ownerOf t)) :
    Lasts w.kernel k (fun r => P (recordOwner r)) t where
  first m hpc hin := by
    rw [firstElement_owner hw ht hpc]
    exact hfirst m hpc hin
  add m j n cr x _ _ _ hP := by
    rw [recordOwner_add]
    exact hP

theorem kernel_apart (hw : Apart w) (hg : KeepsApart w (.kernel e)) (hp : permitted w e = true)
    (h : Steps T w.kernel e k) : Apart { w with kernel := k } where
  accounted := step_accounted (quiet_noStale hp) h hw.accounted
  pure := step_records hw.accounted.anchored h (fun _ ht => lasts_pure hw ht) hw.pure
  aimed := steps_aimed hw hg hp h
  running := steps_running (w := w) hw hg hp h
  known := hw.known
  recorded := by
    refine step_records hw.accounted.anchored h (fun t ht => ?_) hw.recorded
    refine lasts_owner (P := (· ∈ w.past)) hw ht fun m hpc _ => ?_
    exact hw.known _ _ (hw.running t ht (unfinished_insert hpc)).2
  registered := by
    refine step_records hw.accounted.anchored h (fun t ht => ?_) fun r hr => ?_
    · exact lasts_owner (P := Registered { w with kernel := k }) hw ht fun m _ hin _ => .inr ⟨_, hin, ⟨m, rfl⟩, rfl⟩
    · exact steps_registered hw hp h (hw.registered r hr)
  reported := by
    intro x hx
    rw [steps_exits hp h]
    exact hw.reported x hx

end Steps

theorem fork_apart {w : World} {tgid : UInt32} {startNs : UInt64} (hw : Apart w) (hnone : w.live tgid = none)
    (hnew : (tgid, startNs) ∉ w.past) :
    Apart { w with live := Function.update w.live tgid (some (startNs, true)), past := (tgid, startNs) :: w.past } where
  accounted := hw.accounted
  pure := hw.pure
  aimed := hw.aimed
  running := by
    intro t ht hf
    obtain ⟨hread, hcur⟩ := hw.running t ht hf
    refine ⟨hread, ?_⟩
    have hne : t.call.key.tgid ≠ tgid := by
      intro he
      rw [he, hnone] at hcur
      cases hcur
    simpa [Function.update_of_ne hne] using hcur
  known := by
    intro tgid' startNs' h
    by_cases ht : tgid' = tgid
    · subst ht
      simp only [Function.update_self, Option.map_some, Option.some.injEq] at h
      rw [h]
      exact List.mem_cons_self
    · simp only [Function.update_of_ne ht] at h
      exact List.mem_cons_of_mem _ (hw.known _ _ h)
  recorded r hr := List.mem_cons_of_mem _ (hw.recorded r hr)
  registered := by
    intro r hr hlive
    have hpast := hw.recorded r hr
    by_cases ht : (recordOwner r).1 = tgid
    · rw [ht] at hlive
      simp only [Function.update_self, Option.some.injEq, Prod.mk.injEq, and_true] at hlive
      refine absurd ?_ hnew
      rwa [← ht, hlive]
    · exact hw.registered r hr (by simpa [Function.update_of_ne ht] using hlive)
  reported := hw.reported

theorem reap_apart {w : World} {tgid : UInt32} (hw : Apart w) (hq : quiet w.kernel = true) :
    Apart { w with live := Function.update w.live tgid none } where
  accounted := hw.accounted
  pure := hw.pure
  aimed := hw.aimed
  running t ht hf := absurd ((List.all_eq_true.mp hq t ht).symm.trans hf) nofun
  known := by
    intro tgid' startNs h
    by_cases ht : tgid' = tgid
    · subst ht
      simp at h
    · simp only [Function.update_of_ne ht] at h
      exact hw.known _ _ h
  recorded := hw.recorded
  registered := by
    intro r hr hlive
    by_cases ht : (recordOwner r).1 = tgid
    · simp [ht] at hlive
    · exact hw.registered r hr (by simpa [Function.update_of_ne ht] using hlive)
  reported := hw.reported

theorem hasBytes_registered {w : World} {id : Instance} (hw : Apart w) (h : hasBytes w.kernel id = true) :
    Registered w id := by
  obtain ⟨cr, hcr, hid⟩ := List.any_eq_true.mp h
  obtain ⟨r, hr, hin⟩ := List.mem_flatMap.mp (hw.accounted.balanced.mem_iff.mpr hcr)
  have howner : recordOwner r = id := by
    rw [← of_decide_eq_true hid]
    exact Prod.ext (by rw [recordOwner, creditOwner, (hw.accounted.own r hr cr hin).1]) (hw.pure r hr cr hin).symm
  exact howner ▸ hw.registered r hr

theorem procs_leaderExit (s : State) (tsNs : UInt64) {x tgid : UInt32} (hx : x ≠ tgid) :
    (schedProcessExit s tgid tgid tsNs true).procs x = s.procs x := by
  simp only [schedProcessExit, ne_eq, not_true_eq_false, if_false, if_true]
  split
  · rfl
  · exact Function.update_of_ne hx _ _

theorem exits_leaderExit (s : State) (tgid : UInt32) (tsNs : UInt64) :
    ∀ x ∈ exits s, x ∈ exits (schedProcessExit s tgid tgid tsNs true) := by
  intro x hx
  simp only [schedProcessExit, ne_eq, not_true_eq_false, if_false, if_true]
  split
  · exact hx
  · rw [exits, ← List.append_assoc]
    exact List.mem_append_left _ hx

theorem emitted_leaderExit {w : World} {tgid : UInt32} {startNs : UInt64} (tsNs : UInt64) (hw : Apart w)
    (hq : quiet w.kernel = true) (hlive : w.live tgid = some (startNs, true)) (hb : hasBytes w.kernel (tgid, startNs) = true) :
    ⟨tgid, startNs, tsNs⟩ ∈ exits (schedProcessExit w.kernel tgid tgid tsNs true) := by
  rcases hasBytes_registered hw hb hlive with hp | ⟨t, ht, ⟨m, hpc⟩, -⟩
  · simp [schedProcessExit, exits, hp]
  · have hf := List.all_eq_true.mp hq t ht
    simp [finished, hpc] at hf

theorem leaderExit_apart (T : Table) {w : World} {tgid : UInt32} {startNs tsNs : UInt64} (hw : Apart w)
    (hq : quiet w.kernel = true) (hlive : w.live tgid = some (startNs, true)) :
    Apart (leaderExit w tgid startNs tsNs) := by
  have hall := List.all_eq_true.mp hq
  obtain ⟨p, r, hx⟩ := schedProcessExit_frame w.kernel tgid tgid tsNs true
  have hthreads : (schedProcessExit w.kernel tgid tgid tsNs true).threads = w.kernel.threads := by rw [hx]
  have hhold := holdings_exit w.kernel tgid tgid tsNs true
  refine ⟨?_, ?_, ?_, ?_, ?_, ?_, ?_, ?_⟩
  · exact step_accounted (T := T) (e := .exit tgid tgid tsNs true) rfl (.exit tgid tgid tsNs true) hw.accounted
  · intro r hr
    exact hw.pure r (hhold ▸ hr)
  · intro t ht m k n hadd
    have hf := hall t (hthreads ▸ ht)
    simp [finished, hadd] at hf
  · intro t ht hf
    exact absurd ((hall t (hthreads ▸ ht)).symm.trans hf) nofun
  · intro tgid' id h
    by_cases ht : tgid' = tgid
    · subst ht
      apply hw.known
      rw [hlive]
      simpa [leaderExit] using h
    · apply hw.known
      simpa [leaderExit, Function.update_of_ne ht] using h
  · intro r hr
    exact hw.recorded r (hhold ▸ hr)
  · intro r hr hl
    by_cases ht : (recordOwner r).1 = tgid
    · rw [ht] at hl
      simp [leaderExit] at hl
    · simp only [leaderExit, Function.update_of_ne ht] at hl ⊢
      rcases hw.registered r (hhold ▸ hr) hl with hp | ⟨t, htm, ⟨m, hpc⟩, -⟩
      · exact .inl ((procs_leaderExit w.kernel tsNs ht).trans hp)
      · have hf := hall t htm
        simp [finished, hpc] at hf
  · intro x hx
    rcases List.mem_append.mp hx with hx | hx
    · exact exits_leaderExit w.kernel tgid tsNs x (hw.reported x hx)
    · split_ifs at hx with hb
      · rw [List.mem_singleton.mp hx]
        exact emitted_leaderExit tsNs hw hq hlive hb
      · cases hx

theorem step_apart {T : Table} {w w' : World} {e : Event} (hw : Apart w) (hg : KeepsApart w e)
    (h : w.step T e = some w') : Apart w' := by
  cases step_happens h with
  | fork hnone hnew => exact fork_apart hw hnone hnew
  | @threadExit pid tgid tsNs hne =>
      have hsame : schedProcessExit w.kernel pid tgid tsNs true = w.kernel := if_pos hne.symm
      rw [hsame]
      exact hw
  | leaderExit hq hlive => exact leaderExit_apart T hw hq hlive
  | reap hq => exact reap_apart hw hq
  | kernel hp hk => exact kernel_apart hw hg hp hk

end NetWatch.Kernel.Reuse
