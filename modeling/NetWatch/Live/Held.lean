import NetWatch.Live.Restarts

namespace NetWatch.Live.Held

open Hub Restarts Lib.Timeline

variable {α : Type}

section Chains

variable {held new l m : List (CompactTick α)} {a b : Int}

def Linked (held l : List (CompactTick α)) : Prop := l.IsChain fun x y => Clear CompactTick.ts held x.ts y.ts

def Drawn (held l : List (CompactTick α)) : Prop :=
  l.IsChain fun x y => y.gap = true ∨ Clear CompactTick.ts held x.ts y.ts

def Among (held l : List (CompactTick α)) : Prop := ∀ t ∈ l, ∃ x ∈ held, x.ts = t.ts

def Grows (held new : List (CompactTick α)) : Prop :=
  ∀ x ∈ new, (∃ y ∈ held, y.ts = x.ts) ∨ ∀ y ∈ held, y.ts < x.ts

theorem clear_grows (h : Clear CompactTick.ts held a b) (hg : Grows held new) (hb : ∃ y ∈ held, y.ts = b) :
    Clear CompactTick.ts (held ++ new) a b := by
  refine h.append fun x hx => ?_
  obtain ⟨y, hy, rfl⟩ := hb
  rcases hg x hx with hsame | hnewer
  · exact .inl hsame
  · exact .inr (le_of_lt (hnewer y hy))

theorem Among.grows (h : Among held l) (new : List (CompactTick α)) : Among (held ++ new) l := by
  intro t ht
  obtain ⟨x, hx, hts⟩ := h t ht
  exact ⟨x, List.mem_append_left _ hx, hts⟩

theorem Among.trans (h : Among held l) (hl : Among l m) : Among held m := by
  intro t ht
  obtain ⟨x, hx, hts⟩ := hl t ht
  obtain ⟨y, hy, hys⟩ := h x hx
  exact ⟨y, hy, hys.trans hts⟩

theorem Linked.grows (h : Linked held l) (hg : Grows held new) (hl : Among held l) : Linked (held ++ new) l :=
  h.imp_of_mem_imp fun _ y _ hy hclear => clear_grows hclear hg (hl y hy)

theorem Drawn.grows (h : Drawn held l) (hg : Grows held new) (hl : Among held l) : Drawn (held ++ new) l := by
  refine h.imp_of_mem_imp fun x y _ hy hxy => ?_
  rcases hxy with hgap | hclear
  · exact .inl hgap
  · exact .inr (clear_grows hclear hg (hl y hy))

theorem Linked.drawn (h : Linked held l) : Drawn held l := h.imp fun _ _ hclear => .inr hclear

theorem linked_iff : Linked held l ↔ (l.map CompactTick.ts).IsChain (Clear CompactTick.ts held) := by
  rw [List.isChain_map]
  rfl

theorem increasing_iff : Increasing CompactTick.ts l ↔ (l.map CompactTick.ts).Pairwise (· < ·) := by
  rw [List.pairwise_map]
  rfl

theorem among_of_map_eq (h : l.map CompactTick.ts = m.map CompactTick.ts) : Among l m := by
  intro t ht
  have hmem : t.ts ∈ l.map CompactTick.ts := h ▸ List.mem_map_of_mem ht
  obtain ⟨x, hx, hts⟩ := List.mem_map.mp hmem
  exact ⟨x, hx, hts⟩

/-- A stretch of a list in order is linked, whatever of the list is held. -/
theorem linked_stretch {log : List (CompactTick α)} (hlog : Increasing CompactTick.ts log) (hheld : Among log held)
    (first high : Nat) : Linked held ((log.take high).drop first) := by
  refine (((isChain_clear hlog).take high).drop first).imp fun x y hclear z hz hlt => ?_
  obtain ⟨u, hu, hts⟩ := hheld z hz
  rw [← hts] at hlt ⊢
  exact hclear u hu hlt

section Newest

variable {t : CompactTick α}

theorem clear_newest (h : ∀ x ∈ held, x.ts ≤ a) : Clear CompactTick.ts (held ++ [t]) a t.ts := by
  refine (clear_of_le h).append fun x hx => .inr ?_
  rw [List.mem_singleton.mp hx]

variable (hnew : ∀ x ∈ held, x.ts < t.ts)

include hnew

theorem grows_newest : Grows held [t] := by
  intro x hx
  rw [List.mem_singleton.mp hx]
  exact .inr hnew

theorem increasing_newest (hinc : Increasing CompactTick.ts l) (hl : Among held l) : Increasing CompactTick.ts (l ++ [t]) := by
  refine increasing_snoc hinc fun x hx => ?_
  obtain ⟨y, hy, hys⟩ := hl x hx
  rw [← hys]
  exact hnew y hy

theorem linked_newest (h : Linked held l) (hl : Among held l) (hlast : ∀ z, l.getLast? = some z → ∀ x ∈ held, x.ts ≤ z.ts) :
    Linked (held ++ [t]) (l ++ [t]) := by
  refine List.IsChain.append (h.grows (grows_newest hnew) hl) (List.isChain_singleton t) fun z hz u hu => ?_
  obtain rfl := Option.some.inj hu
  exact clear_newest (hlast z hz)

theorem le_newest_held : ∀ x ∈ held ++ [t], x.ts ≤ t.ts := by
  intro x hx
  rcases List.mem_append.mp hx with hx | hx
  · exact le_of_lt (hnew x hx)
  · rw [List.mem_singleton.mp hx]

end Newest

theorem Among.snoc (h : Among held l) (t : CompactTick α) : Among (held ++ [t]) (l ++ [t]) := by
  intro x hx
  rcases List.mem_append.mp hx with hx | hx
  · exact h.grows [t] x hx
  · exact ⟨x, List.mem_append_right _ hx, rfl⟩

end Chains

section Ingest

variable {cap : Capacity} {hub : LiveHub α} {accepted : List (CompactTick α)}

theorem ingest_newer (cap : Capacity) {entry : CompactTick α} (h : ∀ z, hub.ring.getLast? = some z → z.ts < entry.ts) :
    ∃ t, hub.ingest cap entry = (⟨latest cap.val (hub.ring ++ [t]), false, hub.loaded⟩, some t) ∧ t.ts = entry.ts := by
  have hnew : ¬ (hub.ring.getLast?.any fun prev => decide (entry.ts ≤ prev.ts)) = true := by
    cases hz : hub.ring.getLast? with
    | none => simp
    | some z => simpa using h z hz
  rw [LiveHub.ingest, if_neg hnew]
  exact ⟨_, rfl, rfl⟩

theorem ingestAll_ts {entries : List (CompactTick α)} (h : Keeps cap hub accepted)
    (hinc : Increasing CompactTick.ts (accepted ++ entries)) :
    (hub.ingestAll cap entries).2.map CompactTick.ts = entries.map CompactTick.ts := by
  induction entries generalizing hub accepted with
  | nil => rfl
  | cons entry entries ih =>
      have hlast : ∀ z, hub.ring.getLast? = some z → z.ts < entry.ts := by
        intro z hz
        rw [h.newest] at hz
        exact (List.pairwise_append.mp hinc).2.2 z (List.mem_of_getLast? hz) entry List.mem_cons_self
      obtain ⟨t, ht, hts⟩ := ingest_newer cap hlast
      have hkeeps := (ingest_keeps h entry).1
      rw [LiveHub.ingestAll]
      rw [ht] at hkeeps ⊢
      have hnext : Increasing CompactTick.ts (accepted ++ [t] ++ entries) := by
        rw [increasing_iff] at hinc ⊢
        simpa [hts] using hinc
      simp only [Option.toList_some, List.map_cons, List.singleton_append]
      rw [ih hkeeps hnext, hts]

theorem backfill_ts (cap : Capacity) (hub : LiveHub α) {entries : List (CompactTick α)} (hinc : Increasing CompactTick.ts entries) :
    (hub.backfill cap entries).2.map CompactTick.ts = entries.map CompactTick.ts := by
  have hempty : Keeps cap ({ hub with ring := [] } : LiveHub α) [] := ⟨List.Pairwise.nil, by simp [latest]⟩
  exact ingestAll_ts hempty (by simpa using hinc)

end Ingest

/-- The stream and its hubs. An entry passed that no hub has held will not be held:
it is trimmed or too old for a backfill. -/
structure Server (cap : Capacity) (s : Source α) : Prop where
  log : Increasing CompactTick.ts s.log
  pos : s.pos ≤ s.log.length
  held : Among (s.log.take s.pos) s.held
  covered : ∀ k y, k < s.pos → s.log[k]? = some y →
    (∃ x ∈ s.held, x.ts = y.ts) ∨ k < max s.trimmed (s.pos - cap.val)
  fetching : ∀ low high, s.fetching = some (low, high) → s.hub.loaded = false ∧ s.pos ≤ high ∧ high ≤ s.log.length ∧
    low ≤ max s.trimmed (high - cap.val) ∧
    ∀ k y, k < s.pos → low ≤ k → s.log[k]? = some y → ∃ x ∈ s.held, x.ts = y.ts
  unloaded : s.hub.loaded = false → s.hub.ring = []
  increasing : Increasing CompactTick.ts s.hub.ring
  linked : Linked s.held s.hub.ring
  ring : Among s.held s.hub.ring
  newest : ∀ z, s.hub.ring.getLast? = some z → ∀ x ∈ s.held, x.ts ≤ z.ts

section Server

variable {cap : Capacity} {s s' : Source α}

theorem server_start : Server cap (.start : Source α) :=
  ⟨.nil, le_rfl, nofun, fun k _ hk => absurd hk (Nat.not_lt_zero k), nofun, fun _ => rfl, .nil, .nil, nofun, nofun⟩

theorem server_add (h : Server cap s) {entry : CompactTick α} (hnew : ∀ x ∈ s.log, x.ts < entry.ts) :
    Server cap (s.add entry) where
  log := increasing_snoc h.log hnew
  pos := by
    rw [Source.add, List.length_append]
    exact h.pos.trans (Nat.le_add_right _ _)
  held := by
    change Among ((s.log ++ [entry]).take s.pos) s.held
    rw [List.take_append_of_le_length h.pos]
    exact h.held
  covered := by
    intro k y hk hy
    have hlt : k < s.log.length := lt_of_lt_of_le hk h.pos
    exact h.covered k y hk (by rwa [Source.add, List.getElem?_append_left hlt] at hy)
  fetching := by
    intro low high hf
    obtain ⟨hload, hpos, hle, hlow, hheld⟩ := h.fetching low high hf
    refine ⟨hload, hpos, ?_, hlow, fun k y hk hlk hy => ?_⟩
    · rw [Source.add, List.length_append]
      exact hle.trans (Nat.le_add_right _ _)
    · have hlt : k < s.log.length := lt_of_lt_of_le hk h.pos
      exact hheld k y hk hlk (by rwa [Source.add, List.getElem?_append_left hlt] at hy)
  unloaded := h.unloaded
  increasing := h.increasing
  linked := h.linked
  ring := h.ring
  newest := h.newest

theorem server_trim (h : Server cap s) {n : Nat} (ht : s.trim n = some s') :
    Server cap s' ∧ s'.held = s.held ∧ s'.hub = s.hub := by
  rw [Source.trim] at ht
  split_ifs at ht
  cases ht
  have hmax : ∀ b, max s.trimmed b ≤ max (s.trimmed + n) b := by
    intro b
    omega
  refine ⟨⟨h.log, h.pos, h.held, ?_, ?_, h.unloaded, h.increasing, h.linked, h.ring, h.newest⟩, rfl, rfl⟩
  · intro k y hk hy
    rcases h.covered k y hk hy with hheld | hlt
    · exact .inl hheld
    · exact .inr (lt_of_lt_of_le hlt (hmax _))
  · intro low high hf
    obtain ⟨hload, hpos, hle, hlow, hheld⟩ := h.fetching low high hf
    exact ⟨hload, hpos, hle, hlow.trans (hmax _), hheld⟩

theorem server_restart (h : Server cap s) : Server cap s.restart :=
  ⟨h.log, h.pos, h.held, h.covered, nofun, fun _ => rfl, .nil, .nil, nofun, nofun⟩

theorem server_fetch (h : Server cap s) (hf : s.fetch cap = some s') :
    Server cap s' ∧ s'.held = s.held ∧ s'.hub = s.hub := by
  rw [Source.fetch] at hf
  split_ifs at hf with hload
  cases hf
  refine ⟨⟨h.log, h.pos, h.held, h.covered, ?_, h.unloaded, h.increasing, h.linked, h.ring, h.newest⟩, rfl, rfl⟩
  intro low high hrange
  obtain ⟨rfl, rfl⟩ := Prod.mk.inj (Option.some.inj hrange)
  refine ⟨Bool.eq_false_iff.mpr hload, h.pos, le_rfl, le_rfl, fun k y hk hlow hy => ?_⟩
  rcases h.covered k y hk hy with hheld | hlt
  · exact hheld
  · have hpos := h.pos
    omega

theorem server_trimmedPast (h : Server cap s) (ht : s.trimmedPast = some s') :
    Server cap s' ∧ s'.held = s.held ∧ s'.hub.loaded = s.hub.loaded := by
  rw [Source.trimmedPast] at ht
  split_ifs at ht
  cases ht
  exact ⟨⟨h.log, h.pos, h.held, h.covered, h.fetching, h.unloaded, h.increasing, h.linked, h.ring, h.newest⟩, rfl, rfl⟩

theorem Server.later (h : Server cap s) {k : Nat} {y : CompactTick α} (hk : s.pos ≤ k) (hy : s.log[k]? = some y) :
    ∀ x ∈ s.held, x.ts < y.ts := by
  intro x hx
  obtain ⟨u, hu, hts⟩ := h.held x hx
  have hmem : y ∈ s.log.drop s.pos := by
    obtain ⟨hlt, hget⟩ := List.getElem?_eq_some_iff.mp hy
    refine List.mem_drop_iff_getElem.mpr ⟨k - s.pos, by omega, ?_⟩
    rw [← hget]
    congr 1
    omega
  have hsplit := h.log
  rw [← List.take_append_drop s.pos s.log] at hsplit
  rw [← hts]
  exact (List.pairwise_append.mp hsplit).2.2 u hu y hmem

theorem latest_linked {held l : List (CompactTick α)} (n : Nat) (h : Linked held l) : Linked held (latest n l) :=
  h.suffix (latest_suffix n l)

theorem Server.read_held (h : Server cap s) {entry t : CompactTick α} (hy : s.log[max s.pos s.trimmed]? = some entry)
    (hts : t.ts = entry.ts) : ∀ x ∈ s.held ++ [t], ∃ y ∈ s.log.take (max s.pos s.trimmed + 1), y.ts = x.ts := by
  have htake : s.log.take (max s.pos s.trimmed + 1) = s.log.take (max s.pos s.trimmed) ++ [entry] := by
    rw [List.take_add_one, hy]
    rfl
  intro x hx
  rw [htake]
  rcases List.mem_append.mp hx with hx | hx
  · obtain ⟨y, hy, hys⟩ := h.held x hx
    exact ⟨y, List.mem_append_left _ ((List.take_sublist_take_left (Nat.le_max_left _ _)).subset hy), hys⟩
  · rw [List.mem_singleton.mp hx]
    exact ⟨entry, by simp, hts.symm⟩

/-- And each entry up to it is held, was trimmed or is older than the ring. -/
theorem Server.read_covered (h : Server cap s) {entry t : CompactTick α} (hy : s.log[max s.pos s.trimmed]? = some entry)
    (hts : t.ts = entry.ts) : ∀ k y, k < max s.pos s.trimmed + 1 → s.log[k]? = some y →
      (∃ x ∈ s.held ++ [t], x.ts = y.ts) ∨ k < max s.trimmed (max s.pos s.trimmed + 1 - cap.val) := by
  intro k y hk hyk
  rcases Nat.lt_succ_iff_lt_or_eq.mp hk with hk | rfl
  · by_cases hpos : k < s.pos
    · rcases h.covered k y hpos hyk with ⟨x, hx, hxs⟩ | hlow
      · exact .inl ⟨x, List.mem_append_left _ hx, hxs⟩
      · right
        omega
    · right
      omega
  · obtain rfl := Option.some.inj (hy.symm.trans hyk)
    exact .inl ⟨t, by simp, hts⟩

theorem server_read (h : Server cap s) {out : Option (CompactTick α)} (hr : s.read cap = some (s', out)) :
    Server cap s' ∧ s'.hub.loaded = true ∧ ∃ t, out = some t ∧ s'.held = s.held ++ [t] ∧ ∀ x ∈ s.held, x.ts < t.ts := by
  rw [Source.read] at hr
  split_ifs at hr with hload
  cases hy : s.log[max s.pos s.trimmed]? with
  | none => simp [hy] at hr
  | some entry =>
      have hlater := h.later (Nat.le_max_left _ _) hy
      have hring : ∀ z, s.hub.ring.getLast? = some z → z.ts < entry.ts := by
        intro z hz
        obtain ⟨x, hx, hts⟩ := h.ring z (List.mem_of_getLast? hz)
        rw [← hts]
        exact hlater x hx
      obtain ⟨t, ht, hts⟩ := ingest_newer cap hring
      simp only [hy, ht, Option.toList_some, Option.some.injEq, Prod.mk.injEq] at hr
      obtain ⟨rfl, rfl⟩ := hr
      rw [← hts] at hlater hring
      have hlast : (latest cap.val (s.hub.ring ++ [t])).getLast? = some t := by
        rw [getLast?_latest cap.pos, List.getLast?_concat]
      refine ⟨?_, hload, t, rfl, rfl, hlater⟩
      obtain ⟨hlt, hget⟩ := List.getElem?_eq_some_iff.mp hy
      exact {
        log := h.log
        pos := hlt
        held := h.read_held hy hts
        covered := h.read_covered hy hts
        fetching := by
          intro low high hf
          exact absurd (hload.symm.trans (h.fetching low high hf).1) nofun
        unloaded := fun hnot => absurd (hload.symm.trans hnot) nofun
        increasing := by
          exact increasing_latest cap.val (increasing_newest hlater h.increasing h.ring)
        linked := by
          exact latest_linked cap.val (linked_newest hlater h.linked h.ring h.newest)
        ring := by
          intro x hx
          exact h.ring.snoc t x ((latest_suffix _ _).mem hx)
        newest := by
          intro z hz
          obtain rfl := Option.some.inj (hlast.symm.trans hz)
          exact le_newest_held hlater }

section Block

variable {low high first : Nat} {new : List (CompactTick α)}

theorem Server.block_grows (h : Server cap s) (hf : s.fetching = some (low, high)) (hfirst : low ≤ first)
    (hnew : Among ((s.log.take high).drop first) new) : Grows s.held new := by
  obtain ⟨-, -, -, -, hheld⟩ := h.fetching low high hf
  intro x hx
  obtain ⟨y, hy, hys⟩ := hnew x hx
  obtain ⟨i, hi⟩ := List.mem_iff_getElem?.mp hy
  rw [List.getElem?_drop, List.getElem?_take] at hi
  split_ifs at hi
  rw [← hys]
  by_cases hpast : first + i < s.pos
  · exact .inl (hheld _ y hpast (by omega) hi)
  · exact .inr (h.later (by omega) hi)

theorem Server.block_passed (h : Server cap s) (hf : s.fetching = some (low, high))
    (hnew : Among ((s.log.take high).drop first) new) : Among (s.log.take high) (s.held ++ new) := by
  obtain ⟨-, hpos, -⟩ := h.fetching low high hf
  intro x hx
  rcases List.mem_append.mp hx with hx | hx
  · obtain ⟨y, hy, hys⟩ := h.held x hx
    exact ⟨y, (List.take_sublist_take_left hpos).subset hy, hys⟩
  · obtain ⟨y, hy, hys⟩ := hnew x hx
    exact ⟨y, List.mem_of_mem_drop hy, hys⟩

theorem mem_block {log : List (CompactTick α)} {k : Nat} {y : CompactTick α} (hin : first ≤ k) (hk : k < high)
    (hy : log[k]? = some y) : y ∈ (log.take high).drop first := by
  refine List.mem_iff_getElem?.mpr ⟨k - first, ?_⟩
  rw [List.getElem?_drop, List.getElem?_take, Nat.add_sub_cancel' hin, if_pos hk]
  exact hy

theorem Server.block_newest (h : Server cap s) {held : List (CompactTick α)} (hheld : Among (s.log.take high) held)
    (hts : new.map CompactTick.ts = ((s.log.take high).drop first).map CompactTick.ts) {z : CompactTick α}
    (hz : new.getLast? = some z) : ∀ x ∈ held, x.ts ≤ z.ts := by
  intro x hx
  obtain ⟨y, hy, hys⟩ := hheld x hx
  obtain ⟨w, hw, hws⟩ : ∃ w, ((s.log.take high).drop first).getLast? = some w ∧ w.ts = z.ts := by
    have hend := congrArg List.getLast? hts
    rw [List.getLast?_map, List.getLast?_map, hz] at hend
    exact Option.map_eq_some_iff.mp hend.symm
  have hlast : (s.log.take high).getLast? = some w := by
    rw [← List.take_append_drop first (s.log.take high), List.getLast?_append, hw]
    rfl
  calc x.ts = y.ts := hys.symm
    _ ≤ w.ts := le_last (h.log.sublist (List.take_sublist _ _)) hlast hy
    _ = z.ts := hws

end Block

theorem server_backfill (h : Server cap s) {first : Nat} (hb : s.backfill cap first = some s') :
    Server cap s' ∧ s.hub.loaded = false ∧ ∃ new, s'.held = s.held ++ new ∧ Grows s.held new := by
  rw [Source.backfill] at hb
  cases hf : s.fetching with
  | none => simp [hf] at hb
  | some range =>
      obtain ⟨low, high⟩ := range
      obtain ⟨hload, hpos, hhigh, hlow, -⟩ := h.fetching low high hf
      simp only [hf] at hb
      split_ifs at hb with hbounds
      obtain ⟨hfirst, hmax, hle⟩ := hbounds
      cases hb
      have hblock : Increasing CompactTick.ts ((s.log.take high).drop first) :=
        h.log.sublist ((List.drop_sublist _ _).trans (List.take_sublist _ _))
      have hts := backfill_ts cap s.hub hblock
      have hall : (s.hub.backfill cap ((s.log.take high).drop first)).1.loaded = true := rfl
      have hkeeps : Keeps cap (s.hub.backfill cap ((s.log.take high).drop first)).1 _ := backfill_keeps s.hub _
      generalize s.hub.backfill cap ((s.log.take high).drop first) = all at hts hkeeps hall
      have hnew : Among ((s.log.take high).drop first) all.2 := among_of_map_eq hts.symm
      have hpassed := h.block_passed hf hnew
      have hlinked : Linked (s.held ++ all.2) all.2 := by
        rw [linked_iff, hts, ← linked_iff]
        refine linked_stretch h.log (fun x hx => ?_) first high
        obtain ⟨y, hy, hys⟩ := hpassed x hx
        exact ⟨y, List.mem_of_mem_take hy, hys⟩
      refine ⟨?_, hload, all.2, rfl, h.block_grows hf hfirst hnew⟩
      exact {
        log := h.log
        pos := hhigh
        held := hpassed
        covered := by
          intro k y hk hy
          change k < high at hk
          by_cases hin : first ≤ k
          · left
            obtain ⟨x, hx, hxs⟩ := among_of_map_eq hts y (mem_block hin hk hy)
            exact ⟨x, List.mem_append_right _ hx, hxs⟩
          · right
            change k < max s.trimmed (high - cap.val)
            omega
        fetching := nofun
        unloaded := fun hnot => absurd (hall.symm.trans hnot) nofun
        increasing := by
          rw [hkeeps.ring]
          exact increasing_latest cap.val hkeeps.increasing
        linked := by
          rw [hkeeps.ring]
          exact latest_linked cap.val hlinked
        ring := by
          rw [hkeeps.ring]
          intro x hx
          exact ⟨x, List.mem_append_right _ ((latest_suffix _ _).mem hx), rfl⟩
        newest := by
          intro z hz
          rw [hkeeps.newest] at hz
          exact h.block_newest hpassed hts hz }

end Server

end NetWatch.Live.Held
