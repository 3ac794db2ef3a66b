import Mathlib.Data.List.Nodup
import NetWatch.Kernel.Account
import NetWatch.Lib.Runs

namespace NetWatch.Kernel.Drains

open Kernel.Types Account NetWatch.Lib.SlotMap NetWatch.Lib.Runs

def keysOf (f : Slots FlowKey Element) : List FlowKey := (entries f).map Prod.fst

theorem not_mem_keysOf {f : Slots FlowKey Element} {k : FlowKey} (h : lookup f k = none) : k ∉ keysOf f := by
  intro hk
  obtain ⟨e, he, rfl⟩ := List.mem_map.mp hk
  obtain ⟨s, hs, hentry⟩ := List.mem_filterMap.mp he
  obtain ⟨key, hkey, rfl⟩ := Option.map_eq_some_iff.mp hentry
  have hmiss := List.findIdx?_eq_none_iff.mp h s hs
  simp [Slot.holds, hkey] at hmiss

theorem keysOf_insertAt {f : Slots FlowKey Element} {j : Nat} {k : FlowKey} {e w : Element} (h : (keysOf f).Nodup)
    (hk : lookup f k = none) (hj : f[j]? = some ⟨none, w⟩) : (keysOf (insertAt f j k e)).Nodup := by
  obtain ⟨l, r, hold, hnew⟩ := entries_insertAt hj k e
  have hfree := not_mem_keysOf hk
  rw [keysOf, hold, List.map_append] at h hfree
  rw [keysOf, hnew, List.map_append, List.map_cons, List.nodup_middle]
  exact List.nodup_cons.mpr ⟨hfree, h⟩

theorem keysOf_update (f : Slots FlowKey Element) (j : Nat) (g : Element → Element) :
    keysOf (update f j g) = keysOf f := by
  cases hj : f[j]? with
  | none => rw [update, List.modify_eq_self (by simpa using hj)]
  | some s =>
      rcases s with ⟨key, e⟩
      cases key with
      | some k =>
          obtain ⟨l, r, hold, hnew⟩ := entries_update hj g
          simp only [keysOf, hold, hnew, List.map_append, List.map_cons]
      | none =>
          obtain ⟨l, r, rfl, rfl⟩ := split_at hj
          rw [update, List.modify_eq_take_cons_drop (by simp), List.take_left,
            List.getElem_append_right (Nat.le_refl _), keysOf, keysOf, entries_append, entries_append]
          simp [entries_free]

theorem keysOf_delete (p : FlowKey → Bool) (f : Slots FlowKey Element) : (keysOf (delete p f)).Sublist (keysOf f) := by
  rw [keysOf, entries_delete]
  exact List.filter_sublist.map _

def recordKeys (rs : List Record) : List FlowKey := rs.map Record.key

/-- Where the drain of a tick stands: the buckets that were visited hold the keys
of the records taken so far, the others hold none of them. -/
def Visited (T : Table) (s : State) : Prop :=
  match s.phase with
  | .running | .grace _ => s.out = []
  | .draining m bs => bs.Nodup ∧ (∀ r ∈ s.out, r.side = m ∧ (T.hash r.key).val ∉ bs) ∧ (recordKeys s.out).Nodup
  | .drained m => (∀ r ∈ s.out, r.side = m) ∧ (recordKeys s.out).Nodup

structure Once (T : Table) (s : State) : Prop where
  maps : ∀ m, (keysOf (s.flows m)).Nodup
  visited : Visited T s
  drains : ∀ d ∈ s.drains, (∀ r ∈ d.records, r.side = d.side) ∧ (recordKeys d.records).Nodup

section Steps

variable {T : Table} {s s' : State}

theorem once_setMap {m : Side} {f : Slots FlowKey Element} (h : Once T s) (hf : (keysOf f).Nodup) :
    Once T (s.setMap m f) := by
  refine ⟨fun m' => ?_, h.visited, h.drains⟩
  by_cases hm : m' = m
  · subst hm
    simpa [State.setMap] using hf
  · simpa [State.setMap, hm] using h.maps m'

theorem moves_once {i : Nat} {t : Thread} (h : Once T s) (hm : Moves s i t s') : Once T s' := by
  cases hm with
  | picked | found | missed | refused | lost | dropped | registered | returned => exact ⟨h.maps, h.visited, h.drains⟩
  | inserted hpc hk hj =>
      obtain ⟨hmaps, hvisited, hdrains⟩ := once_setMap h (keysOf_insertAt (h.maps _) hk hj)
      exact ⟨hmaps, hvisited, hdrains⟩
  | @added m k n cr hpc hcr =>
      obtain ⟨hmaps, hvisited, hdrains⟩ := once_setMap (m := m) (f := update (s.flows m) k (Element.add cr)) h
        (by rw [keysOf_update]; exact h.maps m)
      exact ⟨hmaps, hvisited, hdrains⟩

theorem batch_once {m : Side} {bs : List Nat} (n : Nat) (h : Once T s) (hp : s.phase = .draining m bs) :
    Once T (lookupAndDeleteBatch T s m bs n) := by
  have hvisited := h.visited
  rw [Visited, hp] at hvisited
  obtain ⟨hbs, hout, hkeys⟩ := hvisited
  have hsplit : (bs.take n).Disjoint (bs.drop n) := List.disjoint_take_drop hbs le_rfl
  have hnew : ∀ e ∈ taken (inBuckets T (bs.take n)) (s.flows m), (T.hash e.1).val ∈ bs.take n := by
    intro e he
    have hbucket := (List.mem_filter.mp he).2
    simpa [inBuckets] using hbucket
  have hout' : ∀ r ∈ (lookupAndDeleteBatch T s m bs n).out, r.side = m ∧ (T.hash r.key).val ∉ bs.drop n := by
    intro r hr
    rcases List.mem_append.mp hr with hr | hr
    · exact ⟨(hout r hr).1, fun hmem => (hout r hr).2 (List.mem_of_mem_drop hmem)⟩
    · obtain ⟨e, he, rfl⟩ := List.mem_map.mp hr
      exact ⟨rfl, hsplit (hnew e he)⟩
  have hkeys' : (recordKeys (lookupAndDeleteBatch T s m bs n).out).Nodup := by
    have htaken : ((taken (inBuckets T (bs.take n)) (s.flows m)).map Prod.fst).Nodup :=
      (h.maps m).sublist (List.filter_sublist.map _)
    rw [recordKeys, lookupAndDeleteBatch, List.map_append, List.map_map]
    refine List.Nodup.append hkeys htaken ?_
    intro k hk hk'
    obtain ⟨r, hr, rfl⟩ := List.mem_map.mp hk
    obtain ⟨e, he, heq⟩ := List.mem_map.mp hk'
    have hkey : e.1 = r.key := heq
    exact (hout r hr).2 (hkey ▸ List.mem_of_mem_take (hnew e he))
  refine ⟨fun m' => ?_, ?_, h.drains⟩
  · by_cases hm : m' = m
    · subst hm
      simpa [lookupAndDeleteBatch, State.setMap] using (h.maps m').sublist (keysOf_delete _ _)
    · simpa [lookupAndDeleteBatch, State.setMap, hm] using h.maps m'
  · by_cases hdone : bs.drop n = []
    · have hphase : (lookupAndDeleteBatch T s m bs n).phase = .drained m := by simp [lookupAndDeleteBatch, hdone]
      rw [Visited, hphase]
      exact ⟨fun r hr => (hout' r hr).1, hkeys'⟩
    · have hphase : (lookupAndDeleteBatch T s m bs n).phase = .draining m (bs.drop n) := by
        simp [lookupAndDeleteBatch, hdone]
      rw [Visited, hphase]
      exact ⟨hbs.sublist (List.drop_sublist n bs), hout', hkeys'⟩

theorem step_once {e : Event} (h : Once T s) (hs : Steps T s e s') : Once T s' := by
  cases hs with
  | enter | evict => exact ⟨h.maps, h.visited, h.drains⟩
  | exit pid tgid tsNs reserved =>
      obtain ⟨p, r, hx⟩ := schedProcessExit_frame s pid tgid tsNs reserved
      rw [hx]
      exact ⟨h.maps, h.visited, h.drains⟩
  | advance hi hm => exact moves_once h hm
  | flip hp =>
      have hvisited := h.visited
      rw [Visited, hp] at hvisited
      exact ⟨h.maps, hvisited, h.drains⟩
  | drainStart hp =>
      have hvisited := h.visited
      rw [Visited, hp] at hvisited
      refine ⟨h.maps, ?_, h.drains⟩
      have hout : ∀ m, (drainStart T s m).out = [] := fun _ => hvisited
      rw [Visited, drainStart]
      exact ⟨List.nodup_range, by simp [hvisited], by simp [recordKeys, hvisited]⟩
  | drainBatch hp => exact batch_once _ h hp
  | collect hp =>
      have hvisited := h.visited
      rw [Visited, hp] at hvisited
      refine ⟨h.maps, rfl, ?_⟩
      intro d hd
      rcases List.mem_append.mp hd with hd | hd
      · exact h.drains d hd
      · obtain rfl := List.mem_singleton.mp hd
        exact hvisited

end Steps

def sideAt (n : Nat) : Side := if n % 2 = 0 then .a else .b

def cursorAt (n : Nat) : UInt32 := if n % 2 = 0 then 0 else 1

/-- The two maps are drained in turn. -/
structure Alternating (s : State) : Prop where
  sides : s.drains.map Drain.side = (List.range s.drains.length).map sideAt
  active : s.active = s.cur
  cur : match s.phase with
    | .running => s.cur = cursorAt s.drains.length
    | .grace m | .draining m _ | .drained m => m = sideAt s.drains.length ∧ s.cur = cursorAt (s.drains.length + 1)

theorem sideOf_cursorAt (n : Nat) : sideOf (cursorAt n) = sideAt n := by
  rw [cursorAt, sideAt]
  split_ifs <;> rfl

theorem cursorAt_succ (n : Nat) : cursorAt n ^^^ 1 = cursorAt (n + 1) := by
  rcases Nat.mod_two_eq_zero_or_one n with h | h
  · rw [cursorAt, cursorAt, if_pos h, if_neg (by omega)]
    rfl
  · rw [cursorAt, cursorAt, if_neg (by omega), if_pos (by omega)]
    rfl

theorem step_alternating {T : Table} {s s' : State} {e : Event} (h : Alternating s) (hs : Steps T s e s') :
    Alternating s' := by
  obtain ⟨hsides, hactive, hcur⟩ := h
  cases hs with
  | enter | evict => exact ⟨hsides, hactive, hcur⟩
  | exit pid tgid tsNs reserved =>
      obtain ⟨p, r, hx⟩ := schedProcessExit_frame s pid tgid tsNs reserved
      rw [hx]
      exact ⟨hsides, hactive, hcur⟩
  | advance hi hm => cases hm <;> exact ⟨hsides, hactive, hcur⟩
  | flip hp =>
      rw [hp] at hcur
      refine ⟨hsides, rfl, ?_⟩
      have hcursor : s.cur = cursorAt s.drains.length := hcur
      simp only [Account.flip, hcursor, sideOf_cursorAt, cursorAt_succ, and_self]
  | drainStart hp =>
      rw [hp] at hcur
      exact ⟨hsides, hactive, hcur⟩
  | @drainBatch m bs n hp =>
      rw [hp] at hcur
      refine ⟨hsides, hactive, ?_⟩
      dsimp only [lookupAndDeleteBatch]
      split_ifs
      · exact hcur
      · exact hcur
  | @collect m hp =>
      rw [hp] at hcur
      refine ⟨?_, hactive, ?_⟩
      · simp only [collect, List.map_append, hsides, List.length_append, List.length_singleton, List.range_succ,
          List.map_cons, List.map_nil]
        rw [hcur.1]
      · simpa [collect] using hcur.2

theorem init_once (T : Table) (capacity : Nat) : Once T (init capacity) where
  maps _ := by simp [keysOf, init, entries_empty]
  visited := rfl
  drains := by simp [init]

theorem init_alternating (capacity : Nat) : Alternating (init capacity) := ⟨rfl, rfl, rfl⟩

/-- Under every interleaving, also one in which calls write through pointers to
deleted elements, a tick has at most one record of a flow, all its records come
from the map that was just switched off, and the maps take turns. -/
theorem drained_once {T : Table} {capacity : Nat} {es : List Event} {s : State}
    (h : Run (step T) Free (init capacity) es s) :
    (∀ d ∈ s.drains, (∀ r ∈ d.records, r.side = d.side) ∧ (recordKeys d.records).Nodup) ∧
      s.drains.map Drain.side = (List.range s.drains.length).map sideAt := by
  have honce : Once T s := h.invariant (init_once T capacity) fun _ _ _ hs _ ht => step_once hs (step_steps ht)
  have hturns : Alternating s := h.invariant (init_alternating capacity) fun _ _ _ hs _ ht => step_alternating hs (step_steps ht)
  exact ⟨honce.drains, hturns.sides⟩

def sampleTable : Table := ⟨2, fun k => Fin.ofNat 2 k.lport.toNat⟩

def sampleKey (lport : UInt16) : FlowKey := ⟨7, 443, lport, Vector.replicate 16 0, 2, ipprotoTcp⟩

def sampleCall (lport : UInt16) (tx : UInt64) : Call :=
  ⟨sampleKey lport, tx, 0, ⟨5, Vector.replicate commLen 0, 1000, true, true⟩, none⟩

/-- The second flow is inserted after the drain has begun, into a bucket that it
has yet to visit. -/
def sampleSchedule : List Event :=
  .enter (sampleCall 0 100) :: List.replicate 4 (.advance 0 0) ++ [.enter (sampleCall 1 20), .advance 1 1, .flip,
    .drainStart, .drainBatch 1, .advance 1 1, .advance 1 1, .drainBatch 1, .collect]

theorem sampleSchedule_runs : (exec (step sampleTable) (init 2) sampleSchedule).isSome = true := by decide +kernel

def sampleState : State := (exec (step sampleTable) (init 2) sampleSchedule).get sampleSchedule_runs

theorem drained_once_sample :
    sampleState.drains.map (fun d => recordKeys d.records) = [[sampleKey 0, sampleKey 1]] ∧
      sampleState.drains.map Drain.side = (List.range sampleState.drains.length).map sideAt :=
  ⟨by decide +kernel, (drained_once (Run.of_exec (Option.some_get sampleSchedule_runs).symm)).2⟩

end NetWatch.Kernel.Drains
