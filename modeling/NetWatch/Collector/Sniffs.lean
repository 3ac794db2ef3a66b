import Mathlib.Data.List.Chain
import NetWatch.Collector.Destinations
import NetWatch.Collector.Exits

namespace NetWatch.Collector.Sniffs

open Kernel.Types Procfs Model Ingest Conservation Views Destinations Exits Lib.Assoc Lib.SortDedup Lib.Runs
open Classify (Sniffed)

abbrev Flow := FlowKey × UInt64

def flowOf (r : Sample) : Flow := (r.key, r.stats.startNs)

def owner (k : Flow) : ProcId := (k.1.tgid, k.2)

def recordsOf (k : Flow) (rs : List Sample) : List Sample := rs.filter fun r => flowOf r = k

def lastSniff (k : Flow) (rs : List Sample) : Option Sniffed :=
  ((recordsOf k rs).filterMap fun r => sniffHead r.stats).getLast?

def label (k : Flow) (found : Option Sniffed) : String := Classify.app k.1.proto k.1.rport k.1.lport found

def times (k : Flow) (xs : List Input) : List Int :=
  xs.flatMap fun x => (recordsOf k x.flows).map fun _ => x.clock.wallMs

section Cache

variable {now : Int} {cache : Dict Flow (Sniffed × Int)} {k : Flow} {r : Sample} {rs rs' : List Sample}

theorem recordsOf_append : recordsOf k (rs ++ rs') = recordsOf k rs ++ recordsOf k rs' := List.filter_append rs rs'

theorem lastSniff_append : lastSniff k (rs ++ rs') = (lastSniff k rs').or (lastSniff k rs) := by
  rw [lastSniff, recordsOf_append, List.filterMap_append, List.getLast?_append]
  rfl

theorem lastSniff_absent (h : recordsOf k rs = []) : lastSniff k rs = none := by
  rw [lastSniff, h]
  rfl

theorem recordsOf_self (h : flowOf r = k) : recordsOf k [r] = [r] := by
  simp [recordsOf, h]

theorem recordsOf_other (h : flowOf r ≠ k) : recordsOf k [r] = [] := by
  simp [recordsOf, h]

theorem lastSniff_self (h : flowOf r = k) : lastSniff k [r] = sniffHead r.stats := by
  rw [lastSniff, recordsOf_self h]
  cases hs : sniffHead r.stats with
  | none => simp [hs]
  | some v => simp [hs]

theorem get?_remember_other (h : flowOf r ≠ k) : (remember now cache r).get? k = cache.get? k := by
  have hne : k ≠ (r.key, r.stats.startNs) := Ne.symm h
  rw [remember]
  split
  · rw [Dict.get?_insert, if_neg hne]
  · split
    · rw [Dict.get?_insert, if_neg hne]
    · rfl

theorem get?_remember_self (h : flowOf r = k) :
    (remember now cache r).get? k = ((sniffHead r.stats).or ((cache.get? k).map Prod.fst)).map fun v => (v, now) := by
  subst h
  rw [remember, flowOf]
  cases sniffHead r.stats with
  | some found => simp
  | none =>
      cases hk : cache.get? (r.key, r.stats.startNs) with
      | some e => simp
      | none => simp [hk]

theorem get?_remembers : (rs.foldl (remember now) cache).get? k =
    if recordsOf k rs = [] then cache.get? k
    else ((lastSniff k rs).or ((cache.get? k).map Prod.fst)).map fun v => (v, now) := by
  induction rs using List.reverseRecOn with
  | nil => rfl
  | append_singleton rs r ih =>
      rw [List.foldl_append, List.foldl_cons, List.foldl_nil, recordsOf_append, lastSniff_append]
      by_cases hr : flowOf r = k
      · have hne : recordsOf k rs ++ [r] ≠ [] := List.append_ne_nil_of_right_ne_nil _ (List.cons_ne_nil r [])
        rw [get?_remember_self hr, ih, recordsOf_self hr, lastSniff_self hr, if_neg hne]
        by_cases hrs : recordsOf k rs = []
        · rw [if_pos hrs, lastSniff_absent hrs, Option.or_none]
        · rw [if_neg hrs, Option.map_map, Option.or_assoc]
          exact congrArg (Option.map fun v => (v, now)) (congrArg (Option.or _) Option.map_id_apply)
      · rw [get?_remember_other hr, ih, recordsOf_other hr, List.append_nil, lastSniff_absent (recordsOf_other hr),
          Option.none_or]

theorem fst_remembers : ((rs.foldl (remember now) cache).get? k).map Prod.fst =
    (lastSniff k rs).or ((cache.get? k).map Prod.fst) := by
  rw [get?_remembers]
  by_cases hrs : recordsOf k rs = []
  · rw [if_pos hrs, lastSniff_absent hrs, Option.none_or]
  · rw [if_neg hrs, Option.map_map]
    exact Option.map_id_apply

end Cache

section Loop

variable {clkTck : ClkTck} {c : Clock} {elapsed : Duration} {st st' l : Loop} {r : Sample} {rs : List Sample}

theorem ingestFlow_cache (h : ingestFlow clkTck c elapsed st r = some st') :
    st'.appCache = remember c.wallMs st.appCache r := by
  obtain ⟨p, -, rfl⟩ := Option.map_eq_some_iff.mp h
  rfl

theorem ingestFlow_label (h : ingestFlow clkTck c elapsed st r = some st') :
    ∃ name, st'.recs = st.recs ++ [flowRec elapsed r name (label (flowOf r) (sniffed st.appCache r))] ∧
      st'.destChanged = st.destChanged ++ [(r.id, destKey r.key (label (flowOf r) (sniffed st.appCache r)))] := by
  obtain ⟨p, -, rfl⟩ := Option.map_eq_some_iff.mp h
  exact ⟨_, rfl, rfl⟩

theorem loop_cache (h : exec (ingestFlow clkTck c elapsed) st rs = some l) :
    l.appCache = rs.foldl (remember c.wallMs) st.appCache := by
  induction rs generalizing st with
  | nil =>
      obtain rfl := Option.some.inj h
      rfl
  | cons r rs ih =>
      obtain ⟨st', hst, hl⟩ := Option.bind_eq_some_iff.mp h
      rw [ih hl, ingestFlow_cache hst, List.foldl_cons]

theorem loop_label {before after : List Sample}
    (h : exec (ingestFlow clkTck c elapsed) st (before ++ r :: after) = some l) :
    ∃ name rest, l.recs = st.recs ++ rest ∧ rest[before.length]? = some (flowRec elapsed r name
        (label (flowOf r) (sniffed (before.foldl (remember c.wallMs) st.appCache) r))) ∧
      (r.id, destKey r.key (label (flowOf r) (sniffed (before.foldl (remember c.wallMs) st.appCache) r))) ∈
        l.destChanged := by
  obtain ⟨st₁, hbefore, hrest⟩ := exec_append h
  obtain ⟨st₂, hr, hafter⟩ := Option.bind_eq_some_iff.mp hrest
  obtain ⟨es, hes, -, -, -, hrecs⟩ := loop_entries hbefore
  obtain ⟨es', -, -, -, hchanged', hrecs'⟩ := loop_entries hafter
  obtain ⟨name, hrec, hchanged⟩ := ingestFlow_label hr
  have hlength : (es.map (Entry.flowRec elapsed)).length = before.length := by
    rw [List.length_map, ← hes, List.length_map]
  rw [loop_cache hbefore] at hrec hchanged
  refine ⟨name, _, by rw [hrecs', hrec, hrecs, List.append_assoc, List.append_assoc], ?_, ?_⟩
  · rw [← hlength, List.getElem?_append_right le_rfl, Nat.sub_self]
    rfl
  · rw [hchanged', hchanged]
    simp

theorem loop_changed (h : exec (ingestFlow clkTck c elapsed) st rs = some l) {e : ProcId × DestKey}
    (he : e ∈ l.destChanged) : e ∈ st.destChanged ∨ ∃ before r after, rs = before ++ r :: after ∧
      e = (r.id, destKey r.key (label (flowOf r) (sniffed (before.foldl (remember c.wallMs) st.appCache) r))) := by
  induction rs generalizing st with
  | nil =>
      obtain rfl := Option.some.inj h
      exact .inl he
  | cons r rs ih =>
      obtain ⟨st', hst, hl⟩ := Option.bind_eq_some_iff.mp h
      obtain ⟨-, -, hchanged⟩ := ingestFlow_label hst
      rcases ih hl with hmem | ⟨before, r', after, rfl, rfl⟩
      · rw [hchanged, List.mem_append, List.mem_singleton] at hmem
        rcases hmem with hold | rfl
        · exact .inl hold
        · exact .inr ⟨[], r, rs, rfl, rfl⟩
      · refine .inr ⟨r :: before, r', after, rfl, ?_⟩
        rw [ingestFlow_cache hst, List.foldl_cons]

end Loop

def Shows (t : Tick) (i : Nat) (elapsed : Duration) (r : Sample) (app : String) : Prop :=
  (∃ name, t.flows[i]? = some (flowRec elapsed r name app)) ∧
    ∃ u, viewOf (owner (flowOf r)) (destKey r.key app) u ∈ t.dests

section Call

variable {a a' : Aggregator} {x : Input} {t : Tick} {l : Loop} {k : Flow} {v : Sniffed} {seen : Int}

theorem book_has (c : Clock) (o : Option Proc) (e : Entry) : ∃ u, (e.book c o).dests.get? e.dest = some u := by
  simp only [Entry.book, Proc.record, Dict.get?_insert, if_pos]
  exact ⟨_, rfl⟩

theorem feed_has {c : Clock} {es : List Entry} {o : Option Proc} {q : Proc} {e : Entry} (h : feed c o es = some q)
    (he : e ∈ es) : ∃ u, q.dests.get? e.dest = some u := by
  induction es using List.reverseRecOn generalizing q with
  | nil => cases he
  | append_singleton es e' ih =>
      rw [feed, List.foldl_append] at h
      obtain rfl : e'.book c (feed c o es) = q := Option.some.inj h
      by_cases hd : e.dest = e'.dest
      · rw [hd]
        exact book_has c _ e'
      · have hmem : e ∈ es := by
          rcases List.mem_append.mp he with hmem | hlast
          · exact hmem
          · rw [List.mem_singleton.mp hlast] at hd
            exact absurd rfl hd
        obtain ⟨p, hp⟩ := feed_isSome (c := c) o (List.ne_nil_of_mem hmem)
        obtain ⟨u, hu⟩ := ih hp hmem
        refine ⟨u, ?_⟩
        rw [hp]
        simp only [Entry.book, Proc.record, Dict.get?_insert, if_neg hd]
        exact hu

theorem touched_shown (hl : gather a x = some l) {id : ProcId} {dk : DestKey} (h : (id, dk) ∈ l.destChanged) :
    ∃ u, viewOf id dk u ∈ (buildTick x l (settle a x l).procs).dests := by
  obtain ⟨es, -, -, hprocs, hchanged, -⟩ := loop_entries hl
  rw [hchanged, List.nil_append] at h
  obtain ⟨e, he, htouched⟩ := List.mem_map.mp h
  obtain ⟨rfl, rfl⟩ := Prod.mk.inj htouched
  have hmem : e ∈ entriesOf e.id es := List.mem_filter.mpr ⟨he, by simp⟩
  obtain ⟨q, hq⟩ := feed_isSome (c := x.clock) ((a.procs.mapVals fun _ p => p.startTick).get? e.id)
    (List.ne_nil_of_mem hmem)
  obtain ⟨u, hu⟩ := feed_has hq hmem
  obtain ⟨r, hr, hs⟩ := (settle_settles a x l).of_some ((hprocs e.id).trans hq)
  refine ⟨u, List.mem_filterMap.mpr ⟨e.touched, (mem_sortDedup _ _).mpr (hchanged ▸ h), ?_⟩⟩
  rw [← settles_dests hs] at hu
  simp only [destView, Entry.touched, hr, hu, Option.bind_eq_bind, Option.bind_some]
  rfl

theorem ingest_shows (h : ingest a x = some (a', t)) {before after : List Sample} {r : Sample}
    (hx : x.flows = before ++ r :: after) : Shows t before.length x.elapsed r
      (label (flowOf r) (sniffed (before.foldl (remember x.clock.wallMs) a.appCache) r)) := by
  obtain ⟨l, hl, rfl, rfl⟩ := ingest_some h
  have hloop := hl
  rw [gather, hx] at hloop
  obtain ⟨name, rest, hrecs, hrec, htouched⟩ := loop_label hloop
  refine ⟨⟨name, ?_⟩, touched_shown hl htouched⟩
  rw [buildTick, hrecs, List.nil_append]
  exact hrec

theorem ingest_cache (h : ingest a x = some (a', t)) : ∃ m : Aggregator,
    m.appCache = x.flows.foldl (remember x.clock.wallMs) a.appCache ∧ a' = m.prune x.clock.wallMs := by
  obtain ⟨l, hl, rfl, -⟩ := ingest_some h
  exact ⟨settle a x l, loop_cache hl, rfl⟩

theorem prune_cache_sub {m : Aggregator} {now : Int} (h : (m.prune now).appCache.get? k = some (v, seen)) :
    m.appCache.get? k = some (v, seen) := by
  rw [Aggregator.prune] at h
  split_ifs at h
  · rw [Dict.get?_filter] at h
    exact (Option.filter_eq_some_iff.mp h).1
  · exact h

theorem prune_cache_keeps {m : Aggregator} {now : Int} (h : m.appCache.get? k = some (v, seen))
    (hseen : now - seen < appCacheTtlMs) (hproc : ((m.prune now).procs.get? (owner k)).isSome = true) :
    (m.prune now).appCache.get? k = some (v, seen) := by
  rw [Aggregator.prune] at hproc ⊢
  split_ifs at hproc ⊢ with hdue
  · rw [Dict.get?_filter, h, Option.filter_some, if_pos]
    rw [Bool.and_eq_true]
    exact ⟨decide_eq_true hseen, hproc⟩
  · exact h

/-- A sniff stays in the cache over a call in which its process stays and the flow
was seen less than ten minutes ago. -/
theorem call_keeps (h : ingest a x = some (a', t))
    (hcache : (x.flows.foldl (remember x.clock.wallMs) a.appCache).get? k = some (v, seen))
    (hseen : x.clock.wallMs - seen < appCacheTtlMs) (hproc : (a'.procs.get? (owner k)).isSome = true) :
    a'.appCache.get? k = some (v, seen) := by
  obtain ⟨m, hm, rfl⟩ := ingest_cache h
  exact prune_cache_keeps (hm ▸ hcache) hseen hproc

end Call

def records (xs : List Input) : List Sample := xs.flatMap Input.flows

/-- A cached sniff is the most recent one of its flow. -/
def Own (rs : List Sample) (a : Aggregator) : Prop :=
  ∀ k v seen, a.appCache.get? k = some (v, seen) → lastSniff k rs = some v

theorem own_records {now : Int} {cache : Dict Flow (Sniffed × Int)} {k : Flow} {rs rs' : List Sample}
    (h : ∀ v seen, cache.get? k = some (v, seen) → lastSniff k rs = some v) {v : Sniffed}
    (hv : ((rs'.foldl (remember now) cache).get? k).map Prod.fst = some v) : lastSniff k (rs ++ rs') = some v := by
  rw [fst_remembers] at hv
  rw [lastSniff_append]
  cases hnew : lastSniff k rs' with
  | some w =>
      rw [hnew] at hv
      exact hv
  | none =>
      rw [hnew, Option.none_or] at hv
      obtain ⟨⟨w, seen⟩, hw, rfl⟩ := Option.map_eq_some_iff.mp hv
      exact h w seen hw

theorem run_own {clkTck : ClkTck} {xs : List Input} {a : Aggregator} (h : Run next Free (.new clkTck) xs a) :
    Own (records xs) a := by
  refine h.history (P := fun xs a => Own (records xs) a) ?_ ?_
  · intro k v seen hv
    exact absurd ((Dict.get?_empty k).symm.trans hv) nofun
  · intro xs a x a' ha _ hx k v seen hv
    obtain ⟨⟨a', t⟩, hin, rfl⟩ := Option.map_eq_some_iff.mp hx
    obtain ⟨m, hm, rfl⟩ := ingest_cache hin
    have hold := prune_cache_sub hv
    rw [hm] at hold
    rw [records, List.flatMap_append, List.flatMap_singleton]
    exact own_records (ha k) (by rw [hold]; rfl)

theorem sniffed_own {now : Int} {cache : Dict Flow (Sniffed × Int)} {rs before : List Sample} {r : Sample}
    (h : ∀ v seen, cache.get? (flowOf r) = some (v, seen) → lastSniff (flowOf r) rs = some v) :
    sniffed (before.foldl (remember now) cache) r = none ∨
      sniffed (before.foldl (remember now) cache) r = lastSniff (flowOf r) (rs ++ before ++ [r]) := by
  rw [sniffed, lastSniff_append, lastSniff_self rfl]
  cases hr : sniffHead r.stats with
  | some v => exact .inr rfl
  | none =>
      rw [Option.none_or, Option.none_or]
      cases hc : ((before.foldl (remember now) cache).get? (r.key, r.stats.startNs)).map Prod.fst with
      | none => exact .inl rfl
      | some v => exact .inr (own_records h hc).symm

section Segment

variable {k : Flow} {found : Sniffed} {id : ProcId}

theorem stays_now {a a' : Aggregator} {ys : List Input} {x : Input} (h : Run next (Stays id) a ys a')
    (hx : Stays id a' x) : (a.procs.get? id).isSome = true := by
  cases h with
  | nil => exact hx
  | cons hg _ _ => exact hg

/-- No call comes ten minutes or more after the last appearance when the next
appearance does not. -/
theorem near_of_chain {last c : Int} {xs : List Input} (hchain : (last :: times k xs).IsChain fun u v => v - u < appCacheTtlMs)
    (hne : times k xs ≠ []) (hc : ∀ x ∈ xs, c ≤ x.clock.wallMs) : c - last < appCacheTtlMs := by
  cases htimes : times k xs with
  | nil => exact absurd htimes hne
  | cons w ws =>
      rw [htimes] at hchain
      have hgap := (List.isChain_cons_cons.mp hchain).1
      have hmem : w ∈ times k xs := htimes ▸ List.mem_cons_self
      obtain ⟨x, hx, hw⟩ := List.mem_flatMap.mp hmem
      obtain ⟨-, -, rfl⟩ := List.mem_map.mp hw
      have hle := hc x hx
      omega

theorem times_cons (x : Input) (xs : List Input) :
    times k (x :: xs) = (recordsOf k x.flows).map (fun _ => x.clock.wallMs) ++ times k xs := rfl

theorem chain_after {last : Int} {x : Input} {xs : List Input}
    (h : (last :: times k (x :: xs)).IsChain fun u v => v - u < appCacheTtlMs) (hne : recordsOf k x.flows ≠ []) :
    (x.clock.wallMs :: times k xs).IsChain fun u v => v - u < appCacheTtlMs := by
  obtain ⟨rs, r, hrs⟩ := (List.eq_nil_or_concat' (recordsOf k x.flows)).resolve_left hne
  rw [times_cons, hrs, List.map_append] at h
  have hsuffix : x.clock.wallMs :: times k xs <:+
      last :: ((rs.map fun _ => x.clock.wallMs) ++ [x.clock.wallMs] ++ times k xs) :=
    ⟨last :: rs.map fun _ => x.clock.wallMs, by simp⟩
  exact h.suffix hsuffix

/-- A cached sniff lasts as long as the flow keeps appearing and the process stays. -/
theorem run_keeps {a a' : Aggregator} {ys zs : List Input} {x : Input} {last : Int} (h : Run next (Stays (owner k)) a ys a')
    (hstays : Stays (owner k) a' x) (ha : a.appCache.get? k = some (found, last))
    (hnone : lastSniff k (records ys) = none)
    (hclock : ((ys ++ zs).map fun z => z.clock.wallMs).Pairwise (· ≤ ·)) (hzs : times k zs ≠ [])
    (hchain : (last :: times k (ys ++ zs)).IsChain fun u v => v - u < appCacheTtlMs) :
    ∃ last', a'.appCache.get? k = some (found, last') := by
  induction h generalizing last with
  | nil => exact ⟨last, ha⟩
  | @cons a y a₁ ys a' hg hy hrest ih =>
      obtain ⟨⟨a₁, t⟩, hin, rfl⟩ := Option.map_eq_some_iff.mp hy
      rw [List.cons_append, List.map_cons, List.pairwise_cons] at hclock
      rw [records, List.flatMap_cons, lastSniff_append, Option.or_eq_none_iff] at hnone
      have hproc := stays_now hrest hstays
      by_cases hrs : recordsOf k y.flows = []
      · -- The flow does not appear: its next appearance is not before this call.
        have hne : times k (ys ++ zs) ≠ [] := by
          rw [times, List.flatMap_append]
          exact List.append_ne_nil_of_right_ne_nil _ hzs
        rw [List.cons_append, times_cons, hrs, List.map_nil, List.nil_append] at hchain
        have hnear := near_of_chain hchain hne fun z hz => hclock.1 _ (List.mem_map_of_mem hz)
        have hcache : (y.flows.foldl (remember y.clock.wallMs) a.appCache).get? k = some (found, last) := by
          rw [get?_remembers, if_pos hrs, ha]
        exact ih hstays (call_keeps hin hcache hnear hproc) hnone.1 hclock.2 hchain
      · have hcache : (y.flows.foldl (remember y.clock.wallMs) a.appCache).get? k = some (found, y.clock.wallMs) := by
          rw [get?_remembers, if_neg hrs, hnone.2, ha]
          rfl
        have hnear : y.clock.wallMs - y.clock.wallMs < appCacheTtlMs := by rw [sub_self]; decide
        exact ih hstays (call_keeps hin hcache hnear hproc) hnone.1 hclock.2 (chain_after hchain hrs)

end Segment

/-- A flow without anything to sniff, after it was sniffed in an earlier call `y`:
its process has stayed, and it has kept appearing. -/
structure Lasting (k : Flow) (found : Sniffed) (y : Input) (a : Aggregator) (ys : List Input) (a' : Aggregator)
    (x : Input) (before : List Sample) (r : Sample) (after : List Sample) : Prop where
  sniff : ∃ b r₀ c, y.flows = b ++ r₀ :: c ∧ flowOf r₀ = k ∧ sniffHead r₀.stats = some found ∧
    lastSniff k (c ++ records ys ++ before) = none
  run : Run next (Stays (owner k)) a ys a'
  stays : Stays (owner k) a' x
  flows : x.flows = before ++ r :: after
  flow : flowOf r = k
  silent : sniffHead r.stats = none
  appears : (times k (y :: ys ++ [x])).IsChain fun u v => v - u < appCacheTtlMs

def Nondecreasing (xs : List Input) : Prop := (xs.map fun x => x.clock.wallMs).Pairwise (· ≤ ·)

theorem lasting_sniffed {k : Flow} {found : Sniffed} {y x : Input} {a₀ a a' : Aggregator} {t : Tick} {ys : List Input}
    {before after : List Sample} {r : Sample} (hy : ingest a₀ y = some (a, t))
    (h : Lasting k found y a ys a' x before r after) (hclock : Nondecreasing (y :: ys ++ [x])) :
    sniffed (before.foldl (remember x.clock.wallMs) a'.appCache) r = some found := by
  obtain ⟨b, r₀, c, hyflows, hr₀, hfound, hnone⟩ := h.sniff
  rw [lastSniff_append, Option.or_eq_none_iff, lastSniff_append, Option.or_eq_none_iff] at hnone
  obtain ⟨hbefore, hys, hc⟩ := hnone
  have hlast : lastSniff k y.flows = some found := by
    have hsplit : y.flows = b ++ [r₀] ++ c := by rw [hyflows, List.append_assoc]; rfl
    rw [hsplit, lastSniff_append, hc, Option.none_or, lastSniff_append, lastSniff_self hr₀, hfound, Option.some_or]
  have hrecords : recordsOf k y.flows ≠ [] := by
    intro hnil
    rw [lastSniff_absent hnil] at hlast
    cases hlast
  have hcache : (y.flows.foldl (remember y.clock.wallMs) a₀.appCache).get? k = some (found, y.clock.wallMs) := by
    rw [get?_remembers, if_neg hrecords, hlast]
    rfl
  have hnear : y.clock.wallMs - y.clock.wallMs < appCacheTtlMs := by rw [sub_self]; decide
  have ha := call_keeps hy hcache hnear (stays_now h.run h.stays)
  have hx : times k [x] ≠ [] := by
    rw [times_cons, h.flows, recordsOf_append, ← List.singleton_append, recordsOf_append, recordsOf_self h.flow]
    simp
  rw [Nondecreasing, List.cons_append, List.map_cons, List.pairwise_cons] at hclock
  have hself : (y.clock.wallMs :: times k (y :: (ys ++ [x]))).IsChain fun u v => v - u < appCacheTtlMs := by
    refine List.isChain_cons.mpr ⟨fun w hw => ?_, h.appears⟩
    obtain ⟨r₁, rs, hrs⟩ := List.exists_cons_of_ne_nil hrecords
    rw [times_cons, hrs] at hw
    obtain rfl := Option.some.inj hw
    exact hnear
  obtain ⟨last, hlast'⟩ := run_keeps h.run h.stays ha hys hclock.2 hx (chain_after hself hrecords)
  have hfst : ((before.foldl (remember x.clock.wallMs) a'.appCache).get? k).map Prod.fst =
      (lastSniff k before).or ((a'.appCache.get? k).map Prod.fst) := fst_remembers
  rw [hbefore, Option.none_or, hlast', Option.map_some] at hfst
  rw [sniffed, h.silent, Option.none_or]
  have hkey : (r.key, r.stats.startNs) = k := h.flow
  rw [hkey]
  exact hfst

/-- A flow that was sniffed keeps its label while it appears, and no label rests on
the sniff of another flow. -/
theorem sniffs_sticky {clkTck : ClkTck} {xs : List Input} {a₀ a : Aggregator} {y : Input} {t₀ : Tick}
    (h : Run next Free (.new clkTck) xs a₀) (hy : ingest a₀ y = some (a, t₀)) :
    (∀ k found ys a' x before r after a'' t, Lasting k found y a ys a' x before r after →
      Nondecreasing (y :: ys ++ [x]) → ingest a' x = some (a'', t) →
        Shows t before.length x.elapsed r (label k (some found))) ∧
    (∀ before r after, y.flows = before ++ r :: after → ∃ o,
      (o = none ∨ o = lastSniff (flowOf r) (records xs ++ before ++ [r])) ∧
        Shows t₀ before.length y.elapsed r (label (flowOf r) o)) ∧
    ∀ d ∈ t₀.dests, ∃ before r after o, y.flows = before ++ r :: after ∧ (d.pid, d.startNs) = owner (flowOf r) ∧
      (o = none ∨ o = lastSniff (flowOf r) (records xs ++ before ++ [r])) ∧ d.app = label (flowOf r) o := by
  have hown := run_own h
  refine ⟨?_, ?_, ?_⟩
  · intro k found ys a' x before r after a'' t hl hclock hx
    have hshows := ingest_shows hx hl.flows
    rwa [lasting_sniffed hy hl hclock, hl.flow] at hshows
  · intro before r after hflows
    exact ⟨_, sniffed_own (hown (flowOf r)), ingest_shows hy hflows⟩
  · intro d hd
    obtain ⟨l, hl, rfl, rfl⟩ := ingest_some hy
    obtain ⟨⟨id, dk⟩, hmem, hview⟩ := List.mem_filterMap.mp hd
    obtain ⟨p, hp, hrest⟩ := Option.bind_eq_some_iff.mp hview
    obtain ⟨u, hu, hout⟩ := Option.bind_eq_some_iff.mp hrest
    obtain rfl := Option.some.inj hout
    rcases loop_changed hl ((mem_sortDedup _ _).mp hmem) with hnil | ⟨before, r, after, hflows, htouched⟩
    · cases hnil
    · obtain ⟨rfl, rfl⟩ := Prod.mk.inj htouched
      exact ⟨before, r, after, _, hflows, rfl, sniffed_own (hown (flowOf r)), rfl⟩

def sniffFlow (head : Vector UInt8 8) (headLen : UInt32) : Sample where
  key := ⟨7, 5555, 50000, Vector.replicate 16 0, 2, 6⟩
  stats := ⟨10, 20, 1, 1, 5, Vector.replicate 16 0, head, headLen, 1000⟩
  fs := .gone

def helloFlow : Sample := sniffFlow #v[0x16, 3, 1, 0, 0, 0, 0, 0] 8

def laterFlow : Sample := sniffFlow (Vector.replicate 8 0) 0

def helloInput : Input := sampleInput (sampleClock 100000) [helloFlow] []

def laterInput : Input := sampleInput (sampleClock 101000) [laterFlow] []

theorem helloInput_runs : (ingest (.new sampleTck) helloInput).isSome = true := by decide +kernel

def afterHello : Aggregator × Tick := (ingest (.new sampleTck) helloInput).get helloInput_runs

theorem laterInput_runs : (ingest afterHello.1 laterInput).isSome = true := by decide +kernel

def afterLater : Aggregator × Tick := (ingest afterHello.1 laterInput).get laterInput_runs

theorem laterInput_lasting :
    Lasting (flowOf helloFlow) .tls helloInput afterHello.1 [] afterHello.1 laterInput [] laterFlow [] where
  sniff := ⟨[], helloFlow, [], rfl, rfl, by decide +kernel, rfl⟩
  run := .nil _
  stays := by decide +kernel
  flows := rfl
  flow := rfl
  silent := by decide +kernel
  appears := by decide +kernel

theorem sniffs_sticky_sample : Nondecreasing [helloInput, laterInput] ∧
    Shows afterLater.2 0 laterInput.elapsed laterFlow "TLS" := by
  have hclock : Nondecreasing [helloInput, laterInput] := by unfold Nondecreasing; decide
  refine ⟨hclock, ?_⟩
  have hlabel : label (flowOf helloFlow) (some .tls) = "TLS" := by decide +kernel
  rw [← hlabel]
  exact (sniffs_sticky (.nil (Aggregator.new sampleTck)) (Option.some_get helloInput_runs).symm).1 _ _ _ _ _ _ _ _ _ _
    laterInput_lasting hclock (Option.some_get laterInput_runs).symm

/-- The clock is ten minutes ahead for one call. -/
def aheadInput : Input := sampleInput (sampleClock 700000) [] []

theorem aheadInput_runs : (next afterHello.1 aheadInput).isSome = true := by decide +kernel

def afterAhead : Aggregator := (next afterHello.1 aheadInput).get aheadInput_runs

theorem backInput_runs : (ingest afterAhead laterInput).isSome = true := by decide +kernel

def afterBack : Aggregator × Tick := (ingest afterAhead laterInput).get backInput_runs

theorem aheadInput_lasting :
    Lasting (flowOf helloFlow) .tls helloInput afterHello.1 [aheadInput] afterAhead laterInput [] laterFlow [] where
  sniff := ⟨[], helloFlow, [], rfl, rfl, by decide +kernel, rfl⟩
  run := .cons (by decide +kernel) (Option.some_get aheadInput_runs).symm (.nil _)
  stays := by decide +kernel
  flows := rfl
  flow := rfl
  silent := by decide +kernel
  appears := by decide +kernel

/-- The two appearances are one second apart, but the cache was pruned between them. -/
theorem sniff_lost : ¬ ∀ {clkTck : ClkTck} {xs : List Input} {a₀ a : Aggregator} {y : Input} {t₀ : Tick},
    Run next Free (.new clkTck) xs a₀ → ingest a₀ y = some (a, t₀) →
    ∀ k found ys a' x before r after a'' t, Lasting k found y a ys a' x before r after →
      ingest a' x = some (a'', t) → Shows t before.length x.elapsed r (label k (some found)) := by
  intro h
  have hback : ingest afterAhead laterInput = some (afterBack.1, afterBack.2) := (Option.some_get backInput_runs).symm
  obtain ⟨⟨name, hflow⟩, -⟩ := h (.nil (Aggregator.new sampleTck)) (Option.some_get helloInput_runs).symm _ _ _ _ _ _ _ _ _ _
    aheadInput_lasting hback
  have happ : afterBack.2.flows.map FlowRec.app = ["unknown"] := by decide +kernel
  have hget := congrArg (Option.map FlowRec.app) hflow
  rw [← List.getElem?_map, happ] at hget
  have hsame : "unknown" = label (flowOf helloFlow) (some .tls) := Option.some.inj hget
  exact absurd hsame (by decide +kernel)

end NetWatch.Collector.Sniffs
