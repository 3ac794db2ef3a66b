import NetWatch.Kernel.Ledger
import NetWatch.Lib.WordSum

namespace NetWatch.Kernel.DoubleBuffer

open Kernel.Types Account Ledger NetWatch.Lib.SlotMap NetWatch.Lib.Ledgers NetWatch.Lib.Runs NetWatch.Lib.WordSum
open scoped UInt64.CommRing

def inFlight (m : Side) (t : Thread) : Bool :=
  match t.pc with
  | .lookup m' | .insert m' | .retry m' | .add m' _ _ | .drop m' | .register m' => m' = m
  | .readActive | .done _ _ => false

/-- The 2 ms wait is long enough: when a drain starts, every call that read the
old value of `ACTIVE` has returned. -/
def graceful (s : State) : Event → Bool
  | .drainStart => match s.phase with
    | .grace m => s.threads.all fun t => !inFlight m t
    | _ => true
  | _ => true

def Grace (s : State) (e : Event) : Prop := graceful s e = true

def Idle (s : State) : Prop :=
  match s.phase with
  | .running => True
  | .grace m | .drained m => sideOf s.cur ≠ m
  | .draining m _ => sideOf s.cur ≠ m ∧ ∀ t ∈ s.threads, inFlight m t = false

structure Switched (s : State) : Prop where
  active : s.active = s.cur
  index : s.cur = 0 ∨ s.cur = 1
  idle : Idle s

theorem sideOf_flip {cur : UInt32} (h : cur = 0 ∨ cur = 1) : sideOf (cur ^^^ 1) ≠ sideOf cur := by
  rcases h with rfl | rfl <;> decide

theorem moves_inFlight {s s' : State} {i : Nat} {t : Thread} (h : Moves s i t s') (m : Side)
    (ht : inFlight m t = false) (ha : sideOf s.active ≠ m) :
    ∃ t', s'.threads = s.threads.set i t' ∧ inFlight m t' = false := by
  cases h with
  | picked hpc => exact ⟨_, rfl, by simpa [inFlight] using ha⟩
  | found hpc _ =>
      rcases hpc with hpc | hpc <;> exact ⟨_, rfl, by simpa [inFlight, hpc] using ht⟩
  | missed hpc | refused hpc | inserted hpc | lost hpc | added hpc =>
      exact ⟨_, rfl, by simpa [inFlight, hpc] using ht⟩
  | returned | dropped | registered => exact ⟨_, rfl, rfl⟩

theorem moves_frame {s s' : State} {i : Nat} {t : Thread} (h : Moves s i t s') :
    s'.active = s.active ∧ s'.cur = s.cur ∧ s'.phase = s.phase := by
  cases h <;> exact ⟨rfl, rfl, rfl⟩

theorem moves_idle {s s' : State} {i : Nat} {t : Thread} (hi : s.threads[i]? = some t)
    (hs : Switched s) (h : Moves s i t s') : Idle s' := by
  obtain ⟨-, hcur, hphase⟩ := moves_frame h
  have hidle := hs.idle
  rw [Idle] at hidle ⊢
  rw [hcur, hphase]
  cases hp : s.phase with
  | running => trivial
  | grace m | drained m => simpa only [hp] using hidle
  | draining m bs =>
      simp only [hp] at hidle ⊢
      refine ⟨hidle.1, ?_⟩
      have hne : sideOf s.active ≠ m := by rw [hs.active]; exact hidle.1
      obtain ⟨t', ht', hf⟩ := moves_inFlight h m (hidle.2 t (List.mem_of_getElem? hi)) hne
      rw [ht']
      intro u hu
      rcases List.mem_or_eq_of_mem_set hu with hu | rfl
      · exact hidle.2 u hu
      · exact hf

theorem step_switched {T : Table} {s s' : State} {e : Event} (hg : Grace s e)
    (h : Steps T s e s') (hs : Switched s) : Switched s' := by
  cases h with
  | enter c =>
      refine ⟨hs.active, hs.index, ?_⟩
      have hidle := hs.idle
      rw [Idle] at hidle ⊢
      cases hp : s.phase with
      | running => simp [enter, hp]
      | grace m | drained m => simpa [enter, hp] using hidle
      | draining m bs =>
          simp only [hp] at hidle
          simp only [enter, hp]
          refine ⟨hidle.1, fun t ht => ?_⟩
          rcases List.mem_append.mp ht with ht | ht
          · exact hidle.2 t ht
          · obtain rfl := List.mem_singleton.mp ht
            rfl
  | advance hi hm =>
      obtain ⟨hactive, hcur, -⟩ := moves_frame hm
      exact ⟨by rw [hactive, hcur, hs.active], by rw [hcur]; exact hs.index, moves_idle hi hs hm⟩
  | exit pid tgid tsNs reserved =>
      obtain ⟨p, r, hx⟩ := schedProcessExit_frame s pid tgid tsNs reserved
      rw [hx]
      exact ⟨hs.active, hs.index, hs.idle⟩
  | evict tgid => exact ⟨hs.active, hs.index, hs.idle⟩
  | flip hp =>
      refine ⟨rfl, ?_, sideOf_flip hs.index⟩
      rcases hs.index with h0 | h1
      · exact .inr (by simp [Account.flip, h0])
      · exact .inl (by simp [Account.flip, h1])
  | @drainStart m hp =>
      have hidle := hs.idle
      simp only [Idle, hp] at hidle
      simp only [Grace, graceful, hp, List.all_eq_true, Bool.not_eq_true'] at hg
      exact ⟨hs.active, hs.index, hidle, hg⟩
  | @drainBatch m bs n hp =>
      have hidle := hs.idle
      simp only [Idle, hp] at hidle
      refine ⟨hs.active, hs.index, ?_⟩
      by_cases hd : bs.drop n = []
      · simpa [Idle, lookupAndDeleteBatch, State.setMap, hd] using hidle.1
      · simpa [Idle, lookupAndDeleteBatch, State.setMap, hd] using hidle
  | collect hp => exact ⟨hs.active, hs.index, trivial⟩

theorem inFlight_of_pointsInto {m : Side} {t : Thread} (h : pointsInto m t = true) :
    inFlight m t = true := by
  rw [pointsInto] at h
  split at h
  · rename_i hpc
    simp only [Bool.and_eq_true, decide_eq_true_eq] at h
    simp [inFlight, hpc, h.1]
  · cases h

/-- Under the grace period no pointer is left into a map that is drained. -/
theorem grace_noStale {T : Table} {s : State} (e : Event) (hs : Switched s) : NoStale T s e := by
  unfold NoStale noStale
  split
  · split
    · rename_i m bs hp
      have hidle := hs.idle
      simp only [Idle, hp] at hidle
      simp only [List.all_eq_true, Bool.not_eq_true', Bool.and_eq_false_imp]
      intro t ht hpt
      have hf := hidle.2 t ht
      rw [inFlight_of_pointsInto hpt] at hf
      cases hf
    · rfl
  · rfl

def returned (t : Thread) : Bool :=
  match t.pc with
  | .done _ true => true
  | _ => false

def wasDropped (t : Thread) : Bool :=
  match t.pc with
  | .done _ false => true
  | _ => false

def recorded (s : State) (k : FlowKey) (c : Counter) : Nat :=
  (((holdings s).filter fun r => r.key = k).map fun r => (r.elem.stats.counter c).toNat).sum

def completed (s : State) (k : FlowKey) (c : Counter) : Nat :=
  ((s.threads.filter fun t => t.call.key = k && returned t).map fun t => (t.call.amount c).toNat).sum

def share (c : Counter) (crs : List Credit) : Nat := (crs.map fun cr => (cr.weigh c).toNat).sum

def underway (s : State) (k : FlowKey) (c : Counter) : Nat :=
  ((s.threads.filter fun t => t.call.key = k && !returned t).map fun t => share c (credited t)).sum

def keyed (k : FlowKey) (c : Counter) (cr : Credit) : Nat := if cr.key = k then (cr.weigh c).toNat else 0

theorem counter_eq_share (e : Element) (c : Counter) :
    (e.stats.counter c).toNat = share c e.credits % 2 ^ 64 := by
  rw [e.sound c, toNat_sum, share, List.map_map]
  rfl

theorem sum_keyed_of_own (k : FlowKey) (c : Counter) {k' : FlowKey} {crs : List Credit}
    (h : ∀ cr ∈ crs, cr.key = k') : (crs.map (keyed k c)).sum = if k' = k then share c crs else 0 := by
  have hmap : crs.map (keyed k c) = crs.map fun cr => if k' = k then (cr.weigh c).toNat else 0 :=
    List.map_congr_left fun cr hcr => by rw [keyed, h cr hcr]
  rw [hmap]
  split
  · rfl
  · simp

theorem sum_map_ite {α : Type} (l : List α) (p : α → Bool) (f : α → Nat) :
    (l.map fun x => if p x then f x else 0).sum = ((l.filter p).map f).sum := by
  induction l with
  | nil => rfl
  | cons x l ih => cases hx : p x <;> simp [hx, ih]

theorem sum_keyed_held {s : State} (ho : ∀ r ∈ holdings s, Own r) (k : FlowKey) (c : Counter) :
    ((held s).map (keyed k c)).sum =
      (((holdings s).filter fun r => r.key = k).map fun r => share c r.elem.credits).sum := by
  rw [held, sum_flatMap, ← sum_map_ite]
  congr 1
  apply List.map_congr_left
  intro r hr
  rw [sum_keyed_of_own k c fun cr hcr => (ho r hr cr hcr).1]
  simp

theorem credited_key {t : Thread} {cr : Credit} (h : cr ∈ credited t) : cr.key = t.call.key := by
  rw [credited] at h
  split at h
  · exact (credits_own (List.mem_of_mem_take h)).1
  · exact (credits_own h).1
  · exact (credits_own h).1
  · cases h

theorem share_credits (t : Thread) (m : Side) (c : Counter) :
    share c (t.credits m) = (t.call.amount c).toNat := by
  by_cases htx : t.call.tx = 0 <;> by_cases hrx : t.call.rx = 0 <;>
    cases c <;> simp [share, Thread.credits, Call.adds, Call.amount, Credit.weigh, htx, hrx]

theorem share_returned {t : Thread} (h : returned t = true) (c : Counter) :
    share c (credited t) = (t.call.amount c).toNat := by
  rw [returned] at h
  split at h
  · rename_i m hpc
    simpa only [credited, hpc] using share_credits t m c
  · cases h

theorem sum_keyed_made (s : State) (k : FlowKey) (c : Counter) :
    ((made s).map (keyed k c)).sum = completed s k c + underway s k c := by
  have hthread : ∀ t ∈ s.threads, ((credited t).map (keyed k c)).sum =
      (if t.call.key = k && returned t then (t.call.amount c).toNat else 0) +
        if t.call.key = k && !returned t then share c (credited t) else 0 := by
    intro t _
    rw [sum_keyed_of_own k c fun cr hcr => credited_key hcr]
    by_cases hk : t.call.key = k
    · cases hr : returned t with
      | false => simp [hk]
      | true => simpa [hk] using share_returned hr c
    · simp [hk]
  rw [made, sum_flatMap, List.map_congr_left hthread, List.sum_map_add, sum_map_ite, sum_map_ite]
  rfl

theorem recorded_tally {s : State} (hs : Accounted s) (k : FlowKey) (c : Counter) :
    Tally (recorded s k c) (completed s k c + underway s k c) := by
  have hsum := (hs.balanced.map (keyed k c)).sum_eq
  rw [sum_keyed_held hs.own, sum_keyed_made] at hsum
  rw [← hsum]
  have hrec : recorded s k c =
      ((((holdings s).filter fun r => r.key = k).map fun r => share c r.elem.credits).map (· % 2 ^ 64)).sum := by
    rw [recorded, List.map_map]
    exact congrArg List.sum (List.map_congr_left fun r _ => counter_eq_share r.elem c)
  rw [hrec]
  exact tally_sum_mod _

def DropsCounted (s : State) : Prop := s.drops = s.threads.countP wasDropped

theorem countP_setPc {s : State} {i : Nat} {t : Thread} (hi : s.threads[i]? = some t) (pc : Pc) {n : Nat}
    (ht : wasDropped t = false) (hpc : (if wasDropped { t with pc := pc } then 1 else 0) = n) :
    (s.setPc i t pc).threads.countP wasDropped = s.threads.countP wasDropped + n := by
  obtain ⟨p, q, hp, hq⟩ := set_split hi { t with pc := pc }
  change (s.threads.set i _).countP wasDropped = _
  rw [hq, hp]
  simp only [List.countP_append, List.countP_cons, ht, hpc]
  simp only [Bool.false_eq_true, if_false]
  omega

theorem moves_drops {s s' : State} {i : Nat} {t : Thread} (hi : s.threads[i]? = some t)
    (h : Moves s i t s') (hs : DropsCounted s) : DropsCounted s' := by
  cases h with
  | picked hpc | missed hpc | refused hpc | inserted hpc | lost hpc | added hpc | returned hpc
  | registered hpc =>
      exact hs.trans (countP_setPc hi _ (n := 0) (by simp [wasDropped, hpc]) rfl).symm
  | found hpc =>
      rcases hpc with hpc | hpc <;>
        exact hs.trans (countP_setPc hi _ (n := 0) (by simp [wasDropped, hpc]) rfl).symm
  | @dropped m hpc =>
      have hc := countP_setPc hi (.done m false) (n := 1) (by simp [wasDropped, hpc]) rfl
      exact (congrArg (· + 1) hs).trans hc.symm

theorem step_drops {T : Table} {s s' : State} {e : Event} (h : Steps T s e s')
    (hs : DropsCounted s) : DropsCounted s' := by
  cases h with
  | enter c => simpa [DropsCounted, enter, wasDropped] using hs
  | advance hi hm => exact moves_drops hi hm hs
  | exit pid tgid tsNs reserved =>
      obtain ⟨p, r, hx⟩ := schedProcessExit_frame s pid tgid tsNs reserved
      rw [hx]
      exact hs
  | evict | flip | drainStart | drainBatch | collect => exact hs

theorem run_drops {T : Table} {guard : State → Event → Prop} {capacity : Nat} {es : List Event} {s : State}
    (h : Run (step T) guard (init capacity) es s) : DropsCounted s :=
  h.invariant rfl fun _ _ _ hs _ ht => step_drops (step_steps ht) hs

theorem run_noStale {T : Table} {capacity : Nat} {es : List Event} {s : State}
    (h : Run (step T) Grace (init capacity) es s) : Run (step T) (NoStale T) (init capacity) es s :=
  h.strengthen (I := Switched) ⟨rfl, .inl rfl, trivial⟩
    (fun _ _ _ hs hg ht => step_switched hg (step_steps ht) hs) (fun _ e hs _ => grace_noStale e hs)

def settled (t : Thread) : Bool :=
  match t.pc with
  | .add _ _ n => n = 0
  | .register _ => false
  | _ => true

theorem underway_settled {s : State} (h : ∀ t ∈ s.threads, settled t = true) (k : FlowKey) (c : Counter) :
    underway s k c = 0 := by
  apply List.sum_eq_zero
  intro n hn
  obtain ⟨t, ht, rfl⟩ := List.mem_map.mp hn
  obtain ⟨ht, hp⟩ := List.mem_filter.mp ht
  have hset := h t ht
  have hret : returned t = false := by
    simp only [Bool.and_eq_true, Bool.not_eq_true'] at hp
    exact hp.2
  cases hpc : t.pc with
  | done m r => cases r <;> simp [returned, hpc] at hret; simp [share, credited, hpc]
  | add m k n => simp [settled, hpc] at hset; simp [share, credited, hpc, hset]
  | register m => simp [settled, hpc] at hset
  | readActive | lookup m | insert m | retry m | drop m => simp [share, credited, hpc]

/-- Nothing is lost and nothing is counted twice, for any number of concurrent
calls and any interleaving with the ticks. A call that stands between two of
its atomic adds counts with what it has added so far; where there is none, the
records equal the calls that returned. -/
theorem double_buffer_conserves (T : Table) (capacity : Nat) {es : List Event} {s : State}
    (h : Run (step T) Grace (init capacity) es s) :
    (∀ k c, Tally (recorded s k c) (completed s k c + underway s k c)) ∧
      ((∀ t ∈ s.threads, settled t = true) → ∀ k c, Tally (recorded s k c) (completed s k c)) ∧
      s.drops = s.threads.countP wasDropped := by
  have hs := run_accounted (run_noStale h)
  refine ⟨recorded_tally hs, ?_, run_drops h⟩
  intro hset k c
  have ht := recorded_tally hs k c
  rwa [underway_settled hset, Nat.add_zero] at ht

def sampleTable : Table := ⟨1, fun _ => 0⟩

def sampleKey : FlowKey := ⟨7, 443, 50000, Vector.replicate 16 0, 2, ipprotoTcp⟩

def sampleCall (tx : UInt64) : Call :=
  ⟨sampleKey, tx, 0, ⟨5, Vector.replicate commLen 0, 1000, true, true⟩, none⟩

/-- Two calls race for one key across a flip: the first inserts, the second
loses its insert and adds, and one element is all the map has. -/
def sampleSchedule : List Event :=
  [.enter (sampleCall 100), .enter (sampleCall 20), .advance 0 0, .advance 1 0, .advance 0 0,
    .advance 1 0, .flip, .advance 0 0, .advance 1 0, .advance 1 0, .advance 1 0, .advance 1 0,
    .advance 1 0, .advance 0 0, .drainStart, .drainBatch 1, .collect]

instance (s : State) (e : Event) : Decidable (Grace s e) := inferInstanceAs (Decidable (_ = true))

theorem sampleSchedule_runs :
    (exec (checked (step sampleTable) Grace) (init 1) sampleSchedule).isSome = true := by decide

theorem double_buffer_conserves_sample :
    ∃ s, Run (step sampleTable) Grace (init 1) sampleSchedule s ∧ recorded s sampleKey .txBytes = 120 := by
  have hrun := Run.of_checked (Option.some_get sampleSchedule_runs).symm
  refine ⟨_, hrun, ?_⟩
  have hall := (double_buffer_conserves sampleTable 1 hrun).2.1 (by decide) sampleKey .txBytes
  exact (hall.2 (by decide)).trans (by decide)

end NetWatch.Kernel.DoubleBuffer
