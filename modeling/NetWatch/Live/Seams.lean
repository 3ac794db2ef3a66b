import NetWatch.Live.Held

namespace NetWatch.Live.Seams

open Hub Store Link Restarts Held Lib.Timeline Lib.Runs

variable {α : Type}

/-- The first of some ticks is marked, or it is not newer than the buffer, or the
buffer reaches up to what the event stream told before. -/
def joins (told : Option Int) (buffer incoming : List (CompactTick α)) : Bool :=
  match buffer.getLast?, incoming.head? with
  | some last, some first => first.gap || decide (first.ts ≤ last.ts) || told.any fun m => m ≤ last.ts
  | _, _ => true

/-- The first tick of an answer that goes behind ticks of the buffer is marked, or
far enough from them, or it is in the buffer without a mark. -/
def reaches (ticks : List (CompactTick α)) (first : CompactTick α) : Bool :=
  match (ticks.filter fun t => t.ts < first.ts).getLast? with
  | some prev =>
      first.gap || overGap prev.ts first.ts first.intervalMs || ticks.any fun t => decide (t.ts = first.ts) && !t.gap
  | none => true

def tickJoins (s : Site α) : Bool :=
  match s.wire with
  | some (.tick t :: _) => joins s.told (s.store.pending.getD s.store.ticks) [t]
  | _ => true

/-- The ticks parked follow the buffer or the answer. Behind an answer they do
unless hello has come since without a request. -/
def answerJoins (s : Site α) : Bool :=
  match s.request with
  | some (some (first :: rest)) =>
      reaches s.store.ticks first && (s.before.isSome || joins none (first :: rest) (s.store.pending.getD []))
  | some (some []) => joins s.before s.store.ticks (s.store.pending.getD [])
  | _ => true

def Orderly (s : Site α) : Restarts.Event α → Prop
  | .add entry => ∀ x ∈ s.source.log, x.ts < entry.ts
  | .deliver => tickJoins s = true
  | .respond => answerJoins s = true
  | .fail _ => joins s.before s.store.ticks (s.store.pending.getD []) = true
  | _ => True

section Seams

variable {held buffer incoming ticks : List (CompactTick α)} {told : Option Int}

/-- Ticks that may follow a buffer. -/
def Seam (held buffer incoming : List (CompactTick α)) : Prop :=
  ∀ z p, buffer.getLast? = some z → incoming.head? = some p →
    p.gap = true ∨ p.ts ≤ z.ts ∨ Clear CompactTick.ts held z.ts p.ts

theorem seam_of_joins (h : joins told buffer incoming = true)
    (htold : ∀ m p, told = some m → incoming.head? = some p → Clear CompactTick.ts held m p.ts) :
    Seam held buffer incoming := by
  intro z p hz hp
  simp only [joins, hz, hp, Bool.or_eq_true, decide_eq_true_eq] at h
  rcases h with (hgap | hle) | hreach
  · exact .inl hgap
  · exact .inr (.inl hle)
  · cases told with
    | none => cases hreach
    | some m => exact .inr (.inr ((htold m p rfl hp).later (by simpa using hreach)))

theorem drawn_snoc {t : CompactTick α} (h : Drawn held buffer)
    (ht : ∀ z, buffer.getLast? = some z → t.gap = true ∨ Clear CompactTick.ts held z.ts t.ts) :
    Drawn held (buffer ++ [t]) := by
  refine List.IsChain.append h (List.isChain_singleton t) fun z hz u hu => ?_
  obtain rfl := Option.some.inj hu
  exact ht z hz

/-- What follows a tick may follow a buffer that reaches up to it. -/
theorem seam_of_drawn {t : CompactTick α} (h : Drawn held (t :: incoming)) (hle : ∀ z, buffer.getLast? = some z → t.ts ≤ z.ts) :
    Seam held buffer incoming := by
  intro z p hz hp
  rcases (List.isChain_cons.mp h).1 p hp with hgap | hclear
  · exact .inl hgap
  · exact .inr (.inr (hclear.later (hle z hz)))

theorem drawn_extend (hb : Drawn held buffer) (hi : Drawn held incoming) (hs : Seam held buffer incoming) :
    Drawn held (extend CompactTick.ts buffer incoming) := by
  induction incoming generalizing buffer with
  | nil => exact hb
  | cons t incoming ih =>
      have htail : Drawn held incoming := (List.isChain_cons.mp hi).2
      rw [extend, List.foldl_cons]
      by_cases hold : ∃ z, buffer.getLast? = some z ∧ t.ts ≤ z.ts
      · obtain ⟨z, hz, hle⟩ := hold
        rw [push_older hz hle]
        refine ih hb htail (seam_of_drawn hi fun y hy => ?_)
        obtain rfl := Option.some.inj (hz.symm.trans hy)
        exact hle
      · have hlt : ∀ z, buffer.getLast? = some z → z.ts < t.ts := by
          intro z hz
          exact not_le.mp fun hle => hold ⟨z, hz, hle⟩
        rw [push_newer hlt]
        refine ih (drawn_snoc hb ?_) htail (seam_of_drawn hi ?_)
        · intro z hz
          rcases hs z t hz rfl with hgap | hle | hclear
          · exact .inl hgap
          · exact absurd hle (not_le.mpr (hlt z hz))
          · exact .inr hclear
        · intro z hz
          obtain rfl : t = z := by simpa using hz
          exact le_rfl

theorem append_drawn {s : LiveStore α} (hb : Drawn held s.ticks) (hi : Drawn held incoming)
    (hs : Seam held s.ticks incoming) : Drawn held (s.append incoming).ticks :=
  (drawn_extend hb hi hs).suffix (latest_suffix _ _)

theorem append_among {s : LiveStore α} (hb : Among held s.ticks) (hi : Among held incoming) :
    Among held (s.append incoming).ticks := by
  intro t ht
  rcases mem_append_ticks ht with ht | ht
  · exact hb t ht
  · exact hi t ht

theorem filter_earlier (h : Increasing CompactTick.ts ticks) (c : Int) :
    ∃ later, ticks = (ticks.filter fun t => t.ts < c) ++ later ∧ ∀ t ∈ later, c ≤ t.ts := by
  induction ticks with
  | nil => exact ⟨[], rfl, nofun⟩
  | cons t ticks ih =>
      obtain ⟨ht, hticks⟩ := List.pairwise_cons.mp h
      by_cases hlt : t.ts < c
      · obtain ⟨later, hsplit, hlater⟩ := ih hticks
        refine ⟨later, ?_, hlater⟩
        rw [List.filter_cons_of_pos (by simpa using hlt), List.cons_append, ← hsplit]
      · have hall : ∀ x ∈ t :: ticks, c ≤ x.ts := by
          intro x hx
          rcases List.mem_cons.mp hx with rfl | hx
          · exact not_lt.mp hlt
          · exact le_trans (not_lt.mp hlt) (le_of_lt (ht x hx))
        refine ⟨t :: ticks, ?_, hall⟩
        rw [List.filter_eq_nil_iff.mpr, List.nil_append]
        intro x hx
        simpa using hall x hx

section Merge

variable {first : CompactTick α} {rest : List (CompactTick α)}

theorem merge_times (first : CompactTick α) (rest kept : List (CompactTick α)) :
    (LiveStore.mergeHead kept first :: rest).map CompactTick.ts = (first :: rest).map CompactTick.ts := by
  rw [List.map_cons, mergeHead_ts, List.map_cons]

theorem merge_increasing (kept : List (CompactTick α)) (hticks : Increasing CompactTick.ts ticks)
    (hseries : Increasing CompactTick.ts (first :: rest)) :
    Increasing CompactTick.ts ((ticks.filter fun t => t.ts < first.ts) ++ LiveStore.mergeHead kept first :: rest) := by
  have hanswer : Increasing CompactTick.ts (LiveStore.mergeHead kept first :: rest) := by
    rw [increasing_iff, merge_times, ← increasing_iff]
    exact hseries
  refine List.pairwise_append.mpr ⟨hticks.filter _, hanswer, fun x hx y hy => ?_⟩
  have hlt : x.ts < first.ts := by simpa using (List.mem_filter.mp hx).2
  rcases List.mem_cons.mp hy with rfl | hy
  · rwa [mergeHead_ts]
  · exact lt_trans hlt ((List.pairwise_cons.mp hseries).1 y hy)

theorem merge_among (kept : List (CompactTick α)) (hticks : Among held ticks) (hseries : Among held (first :: rest)) :
    Among held ((ticks.filter fun t => t.ts < first.ts) ++ LiveStore.mergeHead kept first :: rest) := by
  intro x hx
  rcases List.mem_append.mp hx with hx | hx
  · exact hticks x (List.mem_of_mem_filter hx)
  · exact hseries.trans (among_of_map_eq (merge_times first rest kept).symm) x hx

theorem merge_last (ticks kept : List (CompactTick α)) {z : CompactTick α}
    (hz : (ticks ++ LiveStore.mergeHead kept first :: rest).getLast? = some z) :
    ∃ u, (first :: rest).getLast? = some u ∧ u.ts = z.ts := by
  have hlast : (LiveStore.mergeHead kept first :: rest).getLast? = some z := by
    rw [List.getLast?_append] at hz
    rw [List.getLast?_cons] at hz ⊢
    exact hz
  have hend := congrArg List.getLast? (merge_times first rest kept)
  rw [List.getLast?_map, List.getLast?_map, hlast] at hend
  exact Option.map_eq_some_iff.mp hend.symm

/-- An answer that reaches the buffer is put behind its older ticks with a break
where ticks are missing. -/
theorem merge_drawn (hb : Drawn held ticks) (hinc : Increasing CompactTick.ts ticks) (hr : reaches ticks first = true)
    (hl : Linked held (first :: rest)) :
    Drawn held ((ticks.filter fun t => t.ts < first.ts) ++
      LiveStore.mergeHead (ticks.filter fun t => t.ts < first.ts) first :: rest) := by
  obtain ⟨later, hsplit, hlater⟩ := filter_earlier hinc first.ts
  have hkept : Drawn held (ticks.filter fun t => t.ts < first.ts) := by
    rw [Drawn, hsplit] at hb
    exact hb.left_of_append
  have hanswer : Drawn held (LiveStore.mergeHead (ticks.filter fun t => t.ts < first.ts) first :: rest) := by
    apply Linked.drawn
    rw [linked_iff, merge_times, ← linked_iff]
    exact hl
  refine List.IsChain.append hkept hanswer fun prev hprev head hhead => ?_
  obtain rfl := Option.some.inj hhead
  have hlast : (ticks.filter fun t => t.ts < first.ts).getLast? = some prev := hprev
  simp only [reaches, hlast, Bool.or_eq_true] at hr
  rcases hr with (hgap | hfar) | hin
  · left
    rw [LiveStore.mergeHead]
    split_ifs
    · rfl
    · exact hgap
  · left
    rw [LiveStore.mergeHead, hlast, Option.any_some, hfar]
    rfl
  · right
    rw [mergeHead_ts]
    obtain ⟨c, hc, hcs⟩ := List.any_eq_true.mp hin
    simp only [Bool.and_eq_true, decide_eq_true_eq, Bool.not_eq_true'] at hcs
    -- the tick is the first of those that are not older, so it follows the kept ones
    obtain ⟨more, rfl⟩ : ∃ more, later = c :: more := by
      rw [hsplit] at hinc hc
      rcases List.mem_append.mp hc with hc | hc
      · have hlt := (List.mem_filter.mp hc).2
        simp [hcs.1] at hlt
      · obtain ⟨d, more, rfl⟩ := List.exists_cons_of_ne_nil (List.ne_nil_of_mem hc)
        rcases List.mem_cons.mp hc with rfl | hc
        · exact ⟨more, rfl⟩
        · have hlt := (List.pairwise_cons.mp (List.pairwise_append.mp hinc).2.1).1 c hc
          have hle := hlater d List.mem_cons_self
          omega
    rw [Drawn, hsplit] at hb
    rcases (List.isChain_append.mp hb).2.2 prev hprev c rfl with hgap | hclear
    · cases hcs.2.symm.trans hgap
    · rwa [hcs.1] at hclear

end Merge

end Seams

section Parts

variable {held new parked ts series : List (CompactTick α)} {told before : Option Int} {attached loaded : Bool}
  {answer : Option (List (CompactTick α))} {t : CompactTick α}

/-- What an event stream brings from the time `told` on. -/
structure Feeds (held : List (CompactTick α)) (attached loaded : Bool) (parked : List (CompactTick α)) (told : Option Int)
    (ts : List (CompactTick α)) : Prop where
  linked : Linked held ts
  increasing : Increasing CompactTick.ts ts
  among : Among held ts
  joined : ∀ m t, told = some m → ts.head? = some t → Clear CompactTick.ts held m t.ts
  known : ∀ m, told = some m → ∃ x ∈ held, x.ts = m
  newest : attached = true → ∀ z, (ts.getLast?.map CompactTick.ts).or told = some z → ∀ x ∈ held, x.ts ≤ z
  silent : attached = true → loaded = false → ts = [] ∧ told = none
  fresh : ∀ p ∈ parked, ∀ t ∈ ts, p.ts < t.ts

structure Answer (held : List (CompactTick α)) (before : Option Int) (series : List (CompactTick α)) : Prop where
  linked : Linked held series
  increasing : Increasing CompactTick.ts series
  among : Among held series
  newest : ∀ m z, before = some m → series.getLast? = some z → m ≤ z.ts

structure Parks (held : List (CompactTick α)) (told before : Option Int) (answer : Option (List (CompactTick α)))
    (parked : List (CompactTick α)) : Prop where
  drawn : Drawn held parked
  increasing : Increasing CompactTick.ts parked
  among : Among held parked
  joined : ∀ m p, before = some m → parked.head? = some p → Clear CompactTick.ts held m p.ts
  start : parked = [] → ∀ m, before = some m → told = some m
  asked : ∀ m, before = some m → ∃ x ∈ held, x.ts = m
  served : ∀ series, answer = some series → Answer held before series

theorem Parks.grows (h : Parks held told before answer parked) (hg : Grows held new) :
    Parks (held ++ new) told before answer parked where
  drawn := h.drawn.grows hg h.among
  increasing := h.increasing
  among := h.among.grows new
  joined m p hm hp := clear_grows (h.joined m p hm hp) hg (h.among p (List.mem_of_mem_head? hp))
  start := h.start
  asked := by
    intro m hm
    obtain ⟨x, hx, hxs⟩ := h.asked m hm
    exact ⟨x, List.mem_append_left _ hx, hxs⟩
  served := by
    intro series hseries
    have ha := h.served series hseries
    exact ⟨ha.linked.grows hg ha.among, ha.increasing, ha.among.grows new, ha.newest⟩

theorem Feeds.told_clear (h : Feeds held attached loaded parked told (t :: ts)) :
    ∀ m p, told = some m → [t].head? = some p → Clear CompactTick.ts held m p.ts := by
  intro m p hm hp
  obtain rfl : t = p := Option.some.inj hp
  exact h.joined m t hm rfl

theorem Feeds.first_among (h : Feeds held attached loaded parked told (t :: ts)) : Among held [t] := by
  intro x hx
  rw [List.mem_singleton.mp hx]
  exact h.among t List.mem_cons_self

theorem Parks.park (h : Parks held told before answer parked) (hf : Feeds held attached loaded parked told (t :: ts))
    (hj : joins told parked [t] = true) : Parks held (some t.ts) before answer (parked ++ [t]) where
  drawn := by
    refine drawn_snoc h.drawn fun z hz => ?_
    rcases seam_of_joins hj hf.told_clear z t hz rfl with hgap | hle | hclear
    · exact .inl hgap
    · exact absurd hle (not_le.mpr (hf.fresh z (List.mem_of_getLast? hz) t List.mem_cons_self))
    · exact .inr hclear
  increasing := increasing_snoc h.increasing fun p hp => hf.fresh p hp t List.mem_cons_self
  among := by
    intro x hx
    rcases List.mem_append.mp hx with hx | hx
    · exact h.among x hx
    · exact hf.first_among x hx
  joined := by
    intro m p hm hp
    cases parked with
    | nil => exact hf.told_clear m p (h.start rfl m hm) hp
    | cons q parked => exact h.joined m p hm hp
  start := by
    intro hnil
    simp at hnil
  asked := h.asked
  served := h.served

theorem Feeds.grows (h : Feeds held attached loaded parked told ts) (hg : Grows held new) (loaded' : Bool)
    (hquiet : attached = true → ts = [] ∧ told = none) : Feeds (held ++ new) attached loaded' parked told ts where
  linked := h.linked.grows hg h.among
  increasing := h.increasing
  among := h.among.grows new
  joined m t hm ht := clear_grows (h.joined m t hm ht) hg (h.among t (List.mem_of_mem_head? ht))
  known := by
    intro m hm
    obtain ⟨x, hx, hxs⟩ := h.known m hm
    exact ⟨x, List.mem_append_left _ hx, hxs⟩
  newest := by
    intro hatt z hz
    obtain ⟨rfl, rfl⟩ := hquiet hatt
    cases hz
  silent hatt _ := hquiet hatt
  fresh := h.fresh

theorem Feeds.sent (h : Feeds held true loaded parked told ts) (hparked : Among held parked)
    (hnew : ∀ x ∈ held, x.ts < t.ts) : Feeds (held ++ [t]) true true parked told (ts ++ [t]) := by
  have hlater : ∀ x, (∃ y ∈ held, y.ts = x) → x < t.ts := by
    rintro x ⟨y, hy, rfl⟩
    exact hnew y hy
  have hlast : ∀ z, ts.getLast? = some z → ∀ x ∈ held, x.ts ≤ z.ts := by
    intro z hz
    exact h.newest rfl z.ts (by rw [hz]; rfl)
  refine ⟨linked_newest hnew h.linked h.among hlast, increasing_newest hnew h.increasing h.among, h.among.snoc t, ?_, ?_, ?_,
    nofun, ?_⟩
  · intro m u hm hu
    cases ts with
    | nil =>
        obtain rfl : t = u := Option.some.inj hu
        exact clear_newest (h.newest rfl m hm)
    | cons v ts =>
        obtain rfl : v = u := Option.some.inj hu
        exact clear_grows (h.joined m v hm rfl) (grows_newest hnew) (h.among v List.mem_cons_self)
  · intro m hm
    obtain ⟨x, hx, hxs⟩ := h.known m hm
    exact ⟨x, List.mem_append_left _ hx, hxs⟩
  · intro _ z hz
    rw [List.getLast?_concat] at hz
    obtain rfl : t.ts = z := Option.some.inj hz
    exact le_newest_held hnew
  · intro p hp u hu
    rcases List.mem_append.mp hu with hu | hu
    · exact h.fresh p hp u hu
    · rw [List.mem_singleton.mp hu]
      exact hlater p.ts (hparked p hp)

theorem Feeds.delivered (h : Feeds held attached loaded parked told (t :: ts)) (parked' : List (CompactTick α))
    (hparked : ∀ p ∈ parked', p ∈ parked ∨ p = t) : Feeds held attached loaded parked' (some t.ts) ts := by
  obtain ⟨hlt, hinc⟩ := List.pairwise_cons.mp h.increasing
  obtain ⟨hhead, htail⟩ := List.isChain_cons.mp h.linked
  refine ⟨htail, hinc, fun x hx => h.among x (List.mem_cons_of_mem t hx), ?_, ?_, ?_, ?_, ?_⟩
  · intro m u hm hu
    obtain rfl := Option.some.inj hm
    exact hhead u hu
  · intro m hm
    obtain rfl := Option.some.inj hm
    exact h.among t List.mem_cons_self
  · intro hatt z hz
    refine h.newest hatt z ?_
    rw [List.getLast?_cons]
    cases hlast : ts.getLast? with
    | none =>
        rw [hlast] at hz
        obtain rfl : t.ts = z := Option.some.inj hz
        rfl
    | some u =>
        rw [hlast] at hz
        exact hz
  · intro hatt hload
    exact absurd (h.silent hatt hload).1 nofun
  · intro p hp u hu
    rcases hparked p hp with hp | rfl
    · exact h.fresh p hp u (List.mem_cons_of_mem t hu)
    · exact hlt u hu

end Parts

end NetWatch.Live.Seams
