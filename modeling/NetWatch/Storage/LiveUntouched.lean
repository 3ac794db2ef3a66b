import NetWatch.Storage.EndedDays

namespace NetWatch.Storage.LiveUntouched

open Collector Collector.Model Collector.Ingest Collector.Views Collector.Ticks Collector.SinkRedis Collector.RedisMirror Lib.Redis
  Lib.Runs EndedDays

variable {cfg : Config} {s s' : System} {e : Event}

theorem alive_exec_members {now : Int} {vs : List ProcView} {c c' : Cell} {m : String}
    (h : exec (Cell.exec now) c (vs.map aliveOp) = some c') (hm : m ∈ c'.members) :
    (∃ v ∈ vs, v.endedMs = none ∧ idText (viewId v) = m) ∨ m ∈ c.members ∧ ∀ v ∈ vs, idText (viewId v) ≠ m := by
  induction vs generalizing c with
  | nil =>
      obtain rfl := Option.some.inj h
      exact .inr ⟨hm, List.forall_mem_nil _⟩
  | cons v vs ih =>
      obtain ⟨c₁, hc₁, hrest⟩ := Option.bind_eq_some_iff.mp h
      rcases ih hrest with ⟨w, hw, hlive, hid⟩ | ⟨hin, hother⟩
      · exact .inl ⟨w, List.mem_cons_of_mem v hw, hlive, hid⟩
      · cases hv : v.endedMs with
        | none =>
            rw [aliveOp, hv] at hc₁
            by_cases hid : idText (viewId v) = m
            · exact .inl ⟨v, List.mem_cons_self, hv, hid⟩
            · rcases Cell.members_sadd hc₁ hin with heq | hin
              · exact absurd heq.symm hid
              · exact .inr ⟨hin, List.forall_mem_cons.mpr ⟨hid, hother⟩⟩
        | some ended =>
            rw [aliveOp, hv] at hc₁
            obtain ⟨hne, hin⟩ := Cell.members_srem hc₁ hin
            exact .inr ⟨hin, List.forall_mem_cons.mpr ⟨Ne.symm hne, hother⟩⟩

def endedOps (v : ProcView) : List Op := (v.endedMs.map (Op.zadd (idText (viewId v)))).toList

theorem keyOps_ended_procCmds (ttl : Int) (v : ProcView) : keyOps .ended (procCmds ttl v) = endedOps v := by
  cases hv : v.endedMs with
  | none => simp [procCmds, keyOps, endedOps, hv]
  | some ended => simp [procCmds, keyOps, endedOps, hv]

theorem build_ended (cfg : Config) (snap : String) (t : Tick) (full prune : Bool) :
    ∃ ops, keyOps .ended (build cfg snap t full prune) = (written full t).flatMap endedOps ++ ops ∧
      ∀ op ∈ ops, ∃ max, op = .zremrangebyscore max := by
  have hdests : ∀ ip, Key.ended ≠ .dests ip := by
    intro ip h
    cases h
  have hprocs : keyOps .ended ((written full t).flatMap (procCmds cfg.ttl)) = (written full t).flatMap endedOps := by
    rw [keyOps_flatMap]
    simp only [keyOps_ended_procCmds]
  refine ⟨if prune then [.zremrangebyscore (Int.bmod (t.tsMs - Int.bmod (cfg.ttl * 1000) (2 ^ 64)) (2 ^ 64))] else [], ?_, ?_⟩
  · simp only [build, keyOps_append, hprocs, keyOps_destCmds (k := .ended) hdests]
    cases full <;> cases prune <;> simp [keyOps]
  · intro op hop
    split at hop
    · exact ⟨_, List.mem_singleton.mp hop⟩
    · cases hop

theorem ended_exec_zmembers {now : Int} {ops : List Op} {c c' : Cell} {m : String}
    (hops : ∀ op ∈ ops, (∃ x score, op = .zadd x score) ∨ ∃ max, op = .zremrangebyscore max)
    (h : exec (Cell.exec now) c ops = some c') (hm : m ∈ c'.zmembers) :
    m ∈ c.zmembers ∨ ∃ score, .zadd m score ∈ ops := by
  induction ops generalizing c with
  | nil =>
      obtain rfl := Option.some.inj h
      exact .inl hm
  | cons op ops ih =>
      obtain ⟨c₁, hc₁, hrest⟩ := Option.bind_eq_some_iff.mp h
      obtain ⟨hop, hops⟩ := List.forall_mem_cons.mp hops
      rcases ih hops hrest with hin | ⟨score, hmem⟩
      · rcases hop with ⟨x, score, rfl⟩ | ⟨max, rfl⟩
        · rcases Cell.zmembers_zadd hc₁ hin with rfl | hin
          · exact .inr ⟨score, List.mem_cons_self⟩
          · exact .inl hin
        · exact .inl (Cell.zmembers_zremrangebyscore hc₁ hin)
      · exact .inr ⟨score, List.mem_cons_of_mem op hmem⟩

theorem transaction_index {snap : String} {t : Tick} {full prune : Bool} {now : Int} {db db' : Db}
    (h : transaction now db ((build cfg snap t full prune).map fun c => (c.1.text, c.2)) = some db') :
    (∀ m ∈ (db' Key.alive.text).members, (∃ v ∈ t.procs, v.endedMs = none ∧ idText (viewId v) = m) ∨
      m ∈ (db Key.alive.text).members ∧ ∀ v ∈ written full t, idText (viewId v) ≠ m) ∧
    ∀ m ∈ (db' Key.ended.text).zmembers, m ∈ (db Key.ended.text).zmembers ∨
      ∃ v ∈ written full t, v.endedMs ≠ none ∧ idText (viewId v) = m := by
  have hcell := transaction_cell h
  constructor
  · intro m hm
    have halive := hcell Key.alive.text
    rw [opsOf_text, build_alive] at halive
    have hwritten : ∀ v ∈ written full t, v ∈ t.procs := fun v hv => (List.mem_filter.mp hv).1
    cases full with
    | true =>
        rcases alive_exec_members (c := .absent) halive hm with ⟨v, hv, hlive⟩ | ⟨hin, -⟩
        · exact .inl ⟨v, hwritten v hv, hlive⟩
        · cases hin
    | false =>
        rcases alive_exec_members halive hm with ⟨v, hv, hlive⟩ | ⟨hin, hother⟩
        · exact .inl ⟨v, hwritten v hv, hlive⟩
        · exact .inr ⟨Cell.members_purge hin, hother⟩
  · intro m hm
    have hended := hcell Key.ended.text
    obtain ⟨ops, hbuild, hops⟩ := build_ended cfg snap t full prune
    rw [opsOf_text, hbuild] at hended
    have hadds : ∀ op ∈ (written full t).flatMap endedOps, ∃ v ∈ written full t, ∃ score,
        v.endedMs = some score ∧ op = .zadd (idText (viewId v)) score := by
      intro op hop
      obtain ⟨v, hv, hmem⟩ := List.mem_flatMap.mp hop
      obtain ⟨score, hscore, rfl⟩ := Option.map_eq_some_iff.mp (Option.mem_toList.mp hmem)
      exact ⟨v, hv, score, hscore, rfl⟩
    have hkinds : ∀ op ∈ (written full t).flatMap endedOps ++ ops,
        (∃ x score, op = .zadd x score) ∨ ∃ max, op = .zremrangebyscore max := by
      intro op hop
      rcases List.mem_append.mp hop with hop | hop
      · obtain ⟨v, -, score, -, rfl⟩ := hadds op hop
        exact .inl ⟨_, _, rfl⟩
      · exact .inr (hops op hop)
    rcases ended_exec_zmembers hkinds hended hm with hin | ⟨score, hop⟩
    · exact .inl (Cell.zmembers_purge hin)
    · rcases List.mem_append.mp hop with hop | hop
      · obtain ⟨v, hv, score', hscore, heq⟩ := hadds _ hop
        cases heq
        exact .inr ⟨v, hv, by rw [hscore]; nofun, rfl⟩
      · obtain ⟨max, heq⟩ := hops _ hop
        cases heq

theorem sink_writes {sink sink' : Sink} {t : Tick} {snap : String} {now : Int}
    (h : sink.step cfg ⟨t, snap, now, true, .ok⟩ = some sink') :
    ∃ full prune, transaction now sink.db ((build cfg snap t full prune).map fun c => (c.1.text, c.2)) =
      some sink'.db := by
  rw [Sink.step] at h
  split at h
  · obtain ⟨db, hdb, rfl⟩ := Option.map_eq_some_iff.mp h
    exact ⟨_, _, hdb⟩
  · obtain ⟨db, hdb, rfl⟩ := Option.map_eq_some_iff.mp h
    exact ⟨_, _, hdb⟩

def Gone (s : System) (m : String) : Prop := m ∈ s.ended ∨ ∃ d ∈ s.deletions, m ∈ d.left

/-- What keeps the live processes apart from the ended ones: in Redis, in the
ticks still to be written, and in memory. -/
structure Separate (s : System) : Prop where
  keyed : Keyed s.agg.procs
  nodup : ∀ t ∈ s.queue, (t.procs.map viewId).Nodup
  aliveIds : ∀ m ∈ s.alive, ∃ id, idText id = m
  goneIds : ∀ m, Gone s m → ∃ id, idText id = m
  stored : ∀ m ∈ s.alive, ¬ Gone s m
  queued : ∀ t ∈ s.queue, ∀ v ∈ t.procs, v.endedMs = none → ¬ Gone s (idText (viewId v))
  ordered : s.queue.Pairwise fun t u => ∀ v ∈ t.procs, v.endedMs ≠ none → ∀ w ∈ u.procs, w.endedMs = none →
    viewId w ≠ viewId v
  memory : ∀ id p, s.agg.procs.get? id = some p → p.view.endedMs = none → ¬ s.Marked (idText id)

theorem separate_start (clkTck : ClkTck) {db : Db} (h : Apart db) : Separate (.start clkTck db) where
  keyed := new_keyed clkTck
  nodup := nofun
  aliveIds := h.alive
  goneIds := by
    rintro m (hm | ⟨d, hd, -⟩)
    · exact h.ended m hm
    · cases hd
  stored := by
    rintro m hm (hgone | ⟨d, hd, -⟩)
    · exact h.disjoint m hm hgone
    · cases hd
  queued := nofun
  ordered := .nil
  memory := fun id p hp => absurd ((Lib.Assoc.Dict.get?_empty id).symm.trans hp) nofun

theorem marked_of_gone {m : String} (h : Gone s m) : s.Marked m := by
  rcases h with h | h
  · exact .inl h
  · exact .inr (.inl h)

theorem separate_ingest {x : Input} (hs : Separate s) (hg : s.NotSeenAgain (.ingest x))
    (h : s.step cfg (.ingest x) = some s') : Separate s' := by
  obtain ⟨⟨agg, t⟩, hin, rfl⟩ := Option.map_eq_some_iff.mp h
  obtain ⟨es, mid, hpass⟩ := ingest_pass hin
  -- a process the tick shows as live was live in memory or comes from a record
  have hlive : ∀ id q, mid.get? id = some q → q.view.endedMs = none → ¬ s.Marked (idText id) := by
    intro id q hq hopen
    cases hp : s.agg.procs.get? id with
    | some p =>
        obtain ⟨q', hq', hev⟩ := pass_present hpass hp
        obtain rfl := Option.some.inj (hq'.symm.trans hq)
        apply hs.memory id p hp
        cases hend : p.view.endedMs with
        | none => rfl
        | some ended => rw [hev.origin.endedMs ended hend] at hopen; cases hopen
    | none =>
        obtain ⟨hne, -⟩ := pass_created hpass hp hq
        obtain ⟨y, hy⟩ := List.exists_mem_of_ne_nil _ hne
        obtain ⟨hmem, hid⟩ := List.mem_filter.mp hy
        have hid : y.id = id := of_decide_eq_true hid
        exact hid ▸ hg y hmem (hid ▸ hp)
  have hview : ∀ v ∈ t.procs, v.endedMs = none → ¬ s.Marked (idText (viewId v)) := by
    intro v hv hopen
    obtain ⟨q, hq, rfl⟩ := (mem_tick_procs hpass hs.keyed v).mp hv
    exact hlive _ q hq hopen
  have hnodup := pass_nodup hpass hs.keyed
  refine ⟨pass_keyed hpass hs.keyed, ?_, hs.aliveIds, hs.goneIds, hs.stored, ?_, ?_, ?_⟩
  · intro u hu
    rcases List.mem_append.mp hu with hu | hu
    · exact hs.nodup u hu
    · rw [List.mem_singleton.mp hu]
      exact hnodup
  · intro u hu v hv hopen
    rcases List.mem_append.mp hu with hu | hu
    · exact hs.queued u hu v hv hopen
    · rw [List.mem_singleton.mp hu] at hv
      exact fun hgone => hview v hv hopen (marked_of_gone hgone)
  · refine List.pairwise_append.mpr ⟨hs.ordered, List.pairwise_singleton _ _, ?_⟩
    intro u hu w hw v hv hended z hz hopen hid
    rw [List.mem_singleton.mp hw] at hz
    exact hview z hz hopen (.inr (.inr ⟨u, hu, v, hv, hended, by rw [hid]⟩))
  · intro id p hp hopen
    have hmid := pass_left hpass hp
    rintro (hm | hm | ⟨u, hu, v, hv, hended, hid⟩)
    · exact hlive id p hmid hopen (.inl hm)
    · exact hlive id p hmid hopen (.inr (.inl hm))
    · rcases List.mem_append.mp hu with hu | hu
      · exact hlive id p hmid hopen (.inr (.inr ⟨u, hu, v, hv, hended, hid⟩))
      · rw [List.mem_singleton.mp hu] at hv
        obtain ⟨q, hq, rfl⟩ := (mem_tick_procs hpass hs.keyed v).mp hv
        rw [idText_injective hid] at hq
        obtain rfl := Option.some.inj (hq.symm.trans hmid)
        exact hended hopen

theorem separate_write {snap : String} {now : Int} (hs : Separate s) (h : s.step cfg (.write snap now) = some s') :
    Separate s' := by
  rw [System.step] at h
  split at h
  case h_1 => cases h
  case h_2 t rest hqueue =>
    obtain ⟨sink, hsink, rfl⟩ := Option.map_eq_some_iff.mp h
    obtain ⟨full, prune, htx⟩ := sink_writes hsink
    obtain ⟨halive, hended⟩ := transaction_index htx
    have hordered := List.pairwise_cons.mp (hqueue ▸ hs.ordered)
    have ht : t ∈ s.queue := hqueue ▸ List.mem_cons_self
    have hrest : ∀ u ∈ rest, u ∈ s.queue := fun u hu => hqueue ▸ List.mem_cons_of_mem t hu
    have hwritten : ∀ v ∈ written full t, v ∈ t.procs := fun v hv => (List.mem_filter.mp hv).1
    -- what is gone after the write was gone before or has ended in this tick
    have hgone : ∀ m, Gone { s with queue := rest, sink := sink } m →
        Gone s m ∨ ∃ v ∈ written full t, v.endedMs ≠ none ∧ idText (viewId v) = m := by
      rintro m (hm | hm)
      · rcases hended m hm with hm | hm
        · exact .inl (.inl hm)
        · exact .inr hm
      · exact .inl (.inr hm)
    refine ⟨hs.keyed, fun u hu => hs.nodup u (hrest u hu), ?_, ?_, ?_, ?_, hordered.2, ?_⟩
    · intro m hm
      rcases halive m hm with ⟨v, -, -, hid⟩ | ⟨hm, -⟩
      · exact ⟨_, hid⟩
      · exact hs.aliveIds m hm
    · intro m hm
      rcases hgone m hm with hm | ⟨v, -, -, hid⟩
      · exact hs.goneIds m hm
      · exact ⟨_, hid⟩
    · intro m hm hg
      rcases halive m hm with ⟨v, hv, hopen, hid⟩ | ⟨hm, hother⟩
      · rcases hgone m hg with hg | ⟨w, hw, hclosed, hid'⟩
        · exact hs.queued t ht v hv hopen (hid ▸ hg)
        · have hvw := view_unique (hs.nodup t ht) hv (hwritten w hw) (idText_injective (hid.trans hid'.symm))
          exact hclosed (hvw ▸ hopen)
      · rcases hgone m hg with hg | ⟨w, hw, -, hid'⟩
        · exact hs.stored m hm hg
        · exact hother w hw hid'
    · intro u hu v hv hopen hg
      rcases hgone _ hg with hg | ⟨w, hw, hclosed, hid⟩
      · exact hs.queued u (hrest u hu) v hv hopen hg
      · exact hordered.1 u hu w (hwritten w hw) hclosed v hv hopen (idText_injective hid).symm
    · intro id p hp hopen hmarked
      apply hs.memory id p hp hopen
      rcases hmarked with hm | hm | ⟨u, hu, hv⟩
      · rcases hended _ hm with hm | ⟨v, hv, hclosed, hid⟩
        · exact .inl hm
        · exact .inr (.inr ⟨t, ht, v, hwritten v hv, hclosed, hid⟩)
      · exact .inr (.inl hm)
      · exact .inr (.inr ⟨u, hrest u hu, hv⟩)

/-- A step of a deletion: memory, queue and live set stay, and nothing is gone that
was not gone before. -/
theorem separate_shrink (hs : Separate s) (hagg : s'.agg = s.agg) (hqueue : s'.queue = s.queue)
    (halive : s'.alive = s.alive) (hgone : ∀ m, Gone s' m → Gone s m) : Separate s' := by
  refine ⟨?_, ?_, ?_, fun m hm => hs.goneIds m (hgone m hm), ?_, ?_, ?_, ?_⟩
  · rw [hagg]
    exact hs.keyed
  · rw [hqueue]
    exact hs.nodup
  · rw [halive]
    exact hs.aliveIds
  · intro m hm hg
    exact hs.stored m (halive ▸ hm) (hgone m hg)
  · intro t ht v hv hopen hg
    exact hs.queued t (hqueue ▸ ht) v hv hopen (hgone _ hg)
  · rw [hqueue]
    exact hs.ordered
  · intro id p hp hopen hmarked
    apply hs.memory id p (hagg ▸ hp) hopen
    rcases hmarked with hm | hm | hm
    · exact marked_of_gone (hgone _ (.inl hm))
    · exact marked_of_gone (hgone _ (.inr hm))
    · exact .inr (.inr (hqueue ▸ hm))

theorem gone_set {i : Nat} {d : Deletion} {ds : List Deletion} {m : String} (d' : Deletion) (hd : ds[i]? = some d)
    (hsub : ∀ x ∈ d'.left, x ∈ d.left) (h : ∃ f ∈ ds.set i d', m ∈ f.left) : ∃ f ∈ ds, m ∈ f.left := by
  obtain ⟨f, hf, hm⟩ := h
  rcases List.mem_or_eq_of_mem_set hf with hf | rfl
  · exact ⟨f, hf, hm⟩
  · exact ⟨d, List.mem_of_getElem? hd, hsub m hm⟩

theorem unlinked_id {i : Nat} {d : Deletion} {k : Key} (hs : Separate s) (hd : s.deletions[i]? = some d)
    (hk : k.text ∈ (d.left.take chunk).flatMap procKeys) : ∃ id, Gone s (idText id) ∧ (k = .proc id ∨ k = .dests id) := by
  obtain ⟨m, hm, hkey⟩ := List.mem_flatMap.mp hk
  have hgone : Gone s m := .inr ⟨d, List.mem_of_getElem? hd, List.mem_of_mem_take hm⟩
  obtain ⟨id, rfl⟩ := hs.goneIds m hgone
  refine ⟨id, hgone, ?_⟩
  rcases List.mem_cons.mp hkey with hkey | hkey
  · have htext : k.text = (Key.proc id).text := hkey
    exact .inl (text_injective htext)
  · have htext : k.text = (Key.dests id).text := List.mem_singleton.mp hkey
    exact .inr (text_injective htext)

theorem separate_step (hs : Separate s) (hg : s.NotSeenAgain e) (h : s.step cfg e = some s') : Separate s' := by
  cases e with
  | ingest x => exact separate_ingest hs hg h
  | write snap now => exact separate_write hs h
  | read now dayOf days =>
      obtain ⟨ended, hrange, rfl⟩ := Option.map_eq_some_iff.mp h
      refine separate_shrink hs rfl rfl rfl ?_
      rintro m (hm | ⟨d, hd, hm⟩)
      · exact .inl hm
      · rcases List.mem_append.mp hd with hd | hd
        · exact .inr ⟨d, hd, hm⟩
        · rw [List.mem_singleton.mp hd] at hm
          obtain ⟨x, hx, rfl⟩ := List.mem_map.mp hm
          exact .inl (Cell.zmembers_purge (Cell.mem_zrange hrange (List.mem_of_mem_filter hx)))
  | unlink i =>
      obtain ⟨d, hd, hnext⟩ := Option.bind_eq_some_iff.mp h
      split at hnext
      · cases hnext
      · cases hnext
        have hindex : ∀ k : Key, (∀ id, k ≠ .proc id ∧ k ≠ .dests id) →
            unlink s.sink.db ((d.left.take chunk).flatMap procKeys) k.text = s.sink.db k.text := by
          intro k hk
          refine if_neg fun hmem => ?_
          obtain ⟨id, -, hid⟩ := unlinked_id hs hd hmem
          rcases hid with hid | hid
          · exact (hk id).1 hid
          · exact (hk id).2 hid
        refine separate_shrink hs rfl rfl (congrArg Cell.members (hindex .alive fun _ => ⟨nofun, nofun⟩)) ?_
        rintro m (hm | hm)
        · refine .inl ?_
          rw [System.ended, ← hindex .ended fun _ => ⟨nofun, nofun⟩]
          exact hm
        · exact .inr (gone_set { d with unlinked := true } hd (fun x hx => hx) hm)
  | zrem i =>
      obtain ⟨d, hd, hnext⟩ := Option.bind_eq_some_iff.mp h
      split at hnext
      case isFalse => cases hnext
      case isTrue =>
        obtain ⟨cell, hcell, rfl⟩ := Option.map_eq_some_iff.mp hnext
        refine separate_shrink hs rfl rfl ?_ ?_
        · have hother : Function.update s.sink.db Key.ended.text cell Key.alive.text = s.sink.db Key.alive.text :=
            Function.update_of_ne (by decide) _ _
          exact congrArg Cell.members hother
        · rintro m (hm | hm)
          · have hself : Function.update s.sink.db Key.ended.text cell Key.ended.text = cell := Function.update_self _ _ _
            refine .inl (Cell.zmembers_zrem hcell ?_)
            rw [← hself]
            exact hm
          · exact .inr (gone_set _ hd (fun x hx => List.mem_of_mem_drop hx) hm)

theorem separate_untouched (hs : Separate s) (e : Event) : s.Untouched e := by
  intro m hm k hk hmem
  obtain ⟨id, rfl⟩ := hs.aliveIds m hm
  have hkey : ∃ key : Key, key.text = k ∧ (key = .proc id ∨ key = .dests id) := by
    rcases List.mem_cons.mp hk with rfl | hk
    · exact ⟨.proc id, rfl, .inl rfl⟩
    · exact ⟨.dests id, (List.mem_singleton.mp hk).symm, .inr rfl⟩
  obtain ⟨key, rfl, hkind⟩ := hkey
  cases e with
  | unlink i =>
      rw [System.unlinks] at hmem
      cases hd : s.deletions[i]? with
      | none =>
          rw [hd] at hmem
          cases hmem
      | some d =>
          rw [hd] at hmem
          obtain ⟨id', hgone, hkind'⟩ := unlinked_id hs hd hmem
          have hid : id' = id := by
            rcases hkind with rfl | rfl
            · rcases hkind' with h | h
              · exact (Key.proc.inj h).symm
              · cases h
            · rcases hkind' with h | h
              · cases h
              · exact (Key.dests.inj h).symm
          exact hs.stored _ hm (hid ▸ hgone)
  | _ => cases hmem

/-- As long as no process is seen again that is marked as ended, deletions that run
beside the collector never take the hashes of a live process. -/
theorem live_untouched {clkTck : ClkTck} {db : Db} {es : List Event} (hdb : Apart db)
    (h : Run (System.step cfg) System.NotSeenAgain (.start clkTck db) es s) (e : Event) : s.Untouched e :=
  separate_untouched (h.invariant (separate_start clkTck hdb) fun _ _ _ hs hg hstep => separate_step hs hg hstep) e

instance (s : System) (m : String) : Decidable (s.Marked m) := by
  unfold System.Marked
  infer_instance

instance (s : System) (e : Event) : Decidable (s.NotSeenAgain e) :=
  match e with
  | .ingest x =>
      inferInstanceAs (Decidable (∀ y ∈ x.flows, s.agg.procs.get? y.id = none → ¬ s.Marked (idText y.id)))
  | .write _ _ => .isTrue trivial
  | .read _ _ _ => .isTrue trivial
  | .unlink _ => .isTrue trivial
  | .zrem _ => .isTrue trivial

def sampleDay : Event := .read 165000 (fun _ => "1970-01-01") ["1970-01-01"]

def oneEnds : List Event :=
  [.ingest (Conservation.sampleInput (Conservation.sampleClock 100000)
      [Conservation.sampleFlow 5 10 20, Conservation.sampleFlow 6 10 20] [⟨7, 5, 0⟩]),
    .write "" 100000, sampleDay]

/-- The process that has exited is forgotten a minute later, and then there is
another record of it. -/
def seenAgain : List Event :=
  [.ingest (Conservation.sampleInput (Conservation.sampleClock 100000) [Conservation.sampleFlow 5 10 20]
      [⟨7, 5, 0⟩]),
    .write "" 100000,
    .ingest (Conservation.sampleInput (Conservation.sampleClock 162000) [] []),
    .write "" 162000,
    .ingest (Conservation.sampleInput (Conservation.sampleClock 163000) [Conservation.sampleFlow 5 1 1] []),
    .write "" 163000, sampleDay]

theorem emptyDb_apart : Apart emptyDb := ⟨nofun, nofun, nofun⟩

theorem live_untouched_sample : ∃ s, Run (System.step ⟨604800⟩) System.NotSeenAgain
    (.start Conservation.sampleTck emptyDb) oneEnds s ∧ s.alive = ["7:6"] ∧
    s.unlinks (.unlink 0) = procKeys "7:5" ∧ s.Untouched (.unlink 0) := by
  have hruns : ((exec (checked (System.step ⟨604800⟩) System.NotSeenAgain) (.start Conservation.sampleTck emptyDb)
      oneEnds).map fun s => (s.alive, s.unlinks (.unlink 0))) = some (["7:6"], procKeys "7:5") := by decide +kernel
  obtain ⟨s, hs, hend⟩ := Option.map_eq_some_iff.mp hruns
  have hrun := Run.of_checked hs
  exact ⟨s, hrun, congrArg Prod.fst hend, congrArg Prod.snd hend, live_untouched emptyDb_apart hrun _⟩

/-- The entry of a process in `netwatch:ended` stays when the process is seen again,
and the next deletion of that day takes its hashes. -/
theorem live_unlinked : ¬ ∀ (es : List Event) (s : System), Run (System.step ⟨604800⟩) Free
    (.start Conservation.sampleTck emptyDb) es s → ∀ e, (s.step ⟨604800⟩ e).isSome = true → s.Untouched e := by
  intro h
  have hruns : ((exec (System.step ⟨604800⟩) (.start Conservation.sampleTck emptyDb) seenAgain).map
      fun s => (s.alive, s.unlinks (.unlink 0), (s.step ⟨604800⟩ (.unlink 0)).isSome)) =
        some (["7:5"], procKeys "7:5", true) := by decide +kernel
  obtain ⟨s, hs, hend⟩ := Option.map_eq_some_iff.mp hruns
  obtain ⟨halive, hrest⟩ := Prod.mk.inj hend
  obtain ⟨hunlinks, hstep⟩ := Prod.mk.inj hrest
  have hkey : "netwatch:proc:" ++ "7:5" ∈ procKeys "7:5" := List.mem_cons_self
  have hmem : "7:5" ∈ s.alive := by
    rw [halive]
    exact List.mem_cons_self
  have hsafe := h seenAgain s (Run.of_exec hs) (.unlink 0) hstep "7:5" hmem _ hkey
  rw [hunlinks] at hsafe
  exact hsafe hkey

end NetWatch.Storage.LiveUntouched
