import NetWatch.Live.Invariant

namespace NetWatch.Live.Deliver

open Hub Store Link Invariant Lib.Timeline

variable {α : Type}

section Hello

variable {cap : Capacity} {s : Session α} {latestTs : Option Int} {rest : List (Message α)}

theorem split_past {past later : List (CompactTick α)} (hs : Sound cap s) (h : Split s past later) :
    Increasing CompactTick.ts past ∧ ∀ t ∈ past, t ∈ s.accepted := by
  refine ⟨?_, fun t ht => h.accepted ▸ List.mem_append_left later ht⟩
  have hacc := hs.hub.increasing
  rw [h.accepted] at hacc
  exact (List.pairwise_append.mp hacc).1

theorem fresh_split (h : Carries s (.hello latestTs :: rest)) : ∃ past later, Split s past later ∧
    rest = later.map .tick ∧ (latestTs = past.getLast?.map CompactTick.ts ∨ latestTs = none ∧ s.request = none) := by
  generalize hms : Message.hello latestTs :: rest = ms at h
  cases h with
  | @greeted past later hsp hpast =>
      cases later with
      | nil => cases hms
      | cons t later => cases hms
  | @fresh past later l hsp hlatest =>
      obtain ⟨hl, hrest⟩ := List.cons.inj hms
      obtain rfl := Message.hello.inj hl
      exact ⟨past, later, hsp, hrest, hlatest⟩

theorem hello_load_sound (hs : Sound cap s) (h : Carries s (.hello latestTs :: rest)) (hne : latestTs ≠ none)
    {store' : LiveStore α} (hticks : store'.ticks = s.store.ticks) (hpending : store'.pending = some []) :
    Sound cap { s with store := store', wire := some rest, request := some none, loaded := none } := by
  obtain ⟨past, later, hsp, rfl, hlatest⟩ := fresh_split h
  obtain ⟨-, hmem⟩ := split_past hs hsp
  have hpast : past ≠ [] := by
    rintro rfl
    rcases hlatest with hl | ⟨hl, -⟩
    · exact hne hl
    · exact hne hl
  have hacc : s.accepted ≠ [] := by
    rw [hsp.accepted]
    exact List.append_ne_nil_of_left_ne_nil hpast later
  have hnewest : ∀ t ∈ s.accepted, t.ts ≤ newestTs s.accepted := fun t ht => le_newestTs hs.hub.increasing ht
  refine ⟨hs.hub, hs.empty, ⟨hticks ▸ hs.order.increasing, hticks ▸ hs.order.short⟩, hticks ▸ hs.behind, hs.delivered,
    ?_, nofun, ?_, nofun⟩
  · intro ms hms
    obtain rfl := Option.some.inj hms
    refine .greeted ⟨hsp.accepted, hsp.early⟩ ?_
    rintro c (⟨answer, hreq, rfl⟩ | ⟨first, hfirst⟩) t ht
    · obtain rfl := Option.some.inj hreq
      exact le_trans (hnewest t (hmem t ht)) (le_upTo _ _)
    · cases hfirst
  · intro answer hreq
    obtain rfl := Option.some.inj hreq
    refine ⟨[], hpending, hacc, nofun, ?_, List.Pairwise.nil, nofun, ?_⟩
    · intro t ht
      obtain ⟨u, hu, hle⟩ := hs.behind t (hticks ▸ ht)
      exact le_trans hle (hnewest u hu)
    · refine (span_eq_nil fun t ht => .inl ?_).symm
      have := hnewest t ht
      exact Int.lt_add_one_of_le this

/-- The series is not requested: the buffer ends with the newest tick of the hub,
so that a request still in flight has everything before the stream. -/
theorem hello_keep_sound (hs : Sound cap s) (h : Carries s (.hello latestTs :: rest))
    (hsame : latestTs = none ∨ latestTs = s.store.ticks.getLast?.map CompactTick.ts) {store' : LiveStore α}
    (hticks : store'.ticks = s.store.ticks) (hpending : store'.pending = s.store.pending) :
    Sound cap { s with store := store', wire := some rest, loaded := none } := by
  obtain ⟨past, later, hsp, rfl, hlatest⟩ := fresh_split h
  obtain ⟨hinc, -⟩ := split_past hs hsp
  refine ⟨hs.hub, hs.empty, ⟨hticks ▸ hs.order.increasing, hticks ▸ hs.order.short⟩, hticks ▸ hs.behind, hs.delivered,
    ?_, fun hreq => hpending.trans (hs.idle hreq), ?_, nofun⟩
  · intro ms hms
    obtain rfl := Option.some.inj hms
    refine .greeted ⟨hsp.accepted, hsp.early⟩ ?_
    rintro c (⟨answer, hreq, rfl⟩ | ⟨first, hfirst⟩) t ht
    · obtain ⟨parked, -, hload⟩ := hs.loading answer hreq
      rcases hlatest with hl | ⟨-, hnone⟩
      · cases hz : past.getLast? with
        | none => rw [List.getLast?_eq_none_iff.mp hz] at ht; cases ht
        | some z =>
            rw [hz] at hl
            rcases hsame with hnone | hlast
            · exact absurd (hl.symm.trans hnone) nofun
            · obtain ⟨y, hy, hyz⟩ := Option.map_eq_some_iff.mp (hlast.symm.trans hl)
              have hbehind := hload.behind y (List.mem_of_getLast? hy)
              have hle := le_last hinc hz ht
              rw [← hyz] at hle
              exact le_trans (le_trans hle hbehind) (le_upTo _ _)
      · exact absurd (hnone.symm.trans hreq) nofun
    · cases hfirst
  · intro answer hreq
    obtain ⟨parked, hparked, h⟩ := hs.loading answer hreq
    exact ⟨parked, hpending.trans hparked, h.nonempty, h.served, hticks ▸ h.behind, h.increasing, h.early, h.tail⟩

theorem hello_sound (hs : Sound cap s) (h : Carries s (.hello latestTs :: rest)) :
    Sound cap (s.deliverHello latestTs rest) := by
  by_cases hload : latestTs ≠ none ∧ latestTs ≠ s.store.ticks.getLast?.map CompactTick.ts
  · have hnext : s.store.onHello latestTs =
        ({ s.store with status := .live, error := none, pending := some [] }, true) := if_pos hload
    rw [Session.deliverHello, hnext]
    exact hello_load_sound hs h hload.1 rfl rfl
  · have hnext : s.store.onHello latestTs = ({ s.store with status := .live, error := none }, false) := if_neg hload
    rw [Session.deliverHello, hnext]
    refine hello_keep_sound hs h ?_ rfl rfl
    by_cases hnone : latestTs = none
    · exact .inl hnone
    · exact .inr (not_not.mp fun hne => hload ⟨hnone, hne⟩)

end Hello

section Tick

variable {cap : Capacity} {s : Session α} {t : CompactTick α} {rest : List (Message α)}

theorem greeted_split (h : Carries s (.tick t :: rest)) : ∃ past later, Split s past (t :: later) ∧
    rest = later.map .tick ∧ ∀ c, Horizon s c → ∀ x ∈ past, x.ts ≤ upTo c s.delivered := by
  generalize hms : Message.tick t :: rest = ms at h
  cases h with
  | @greeted past later hsp hpast =>
      cases later with
      | nil => cases hms
      | cons u later =>
          obtain ⟨hu, hrest⟩ := List.cons.inj hms
          obtain rfl := Message.tick.inj hu
          exact ⟨past, later, hsp, hrest, hpast⟩
  | fresh => cases hms

theorem span_next {past later : List (CompactTick α)} {a n : Int}
    (hinc : Increasing CompactTick.ts (past ++ t :: later)) (hpast : ∀ x ∈ past, x.ts ≤ n) (hn : n < t.ts)
    (ha : a ≤ n + 1) : span CompactTick.ts a t.ts (past ++ t :: later) =
      span CompactTick.ts a n (past ++ t :: later) ++ [t] := by
  obtain ⟨-, htail, -⟩ := List.pairwise_append.mp hinc
  have hlater : ∀ x ∈ later, t.ts < x.ts := (List.pairwise_cons.mp htail).1
  have hone : span CompactTick.ts (n + 1) t.ts (past ++ t :: later) = [t] := by
    rw [← List.singleton_append, span_append, span_append,
      span_eq_nil fun x hx => .inl (Int.lt_add_one_of_le (hpast x hx)),
      span_eq_nil (l := later) fun x hx => .inr (hlater x hx), span_eq_self]
    · rfl
    · intro x hx
      rw [List.mem_singleton.mp hx]
      exact ⟨hn, le_refl _⟩
  rw [span_split hinc ha (le_of_lt hn), hone]

theorem tick_loading {past later : List (CompactTick α)} {answer : Option (List (CompactTick α))}
    {parked : List (CompactTick α)} (hinc : Increasing CompactTick.ts s.accepted) (hsp : Split s past (t :: later))
    (hpast : ∀ x ∈ past, x.ts ≤ upTo (cover s answer) s.delivered) (h : Loading s answer parked)
    {store' : LiveStore α} (hticks : store'.ticks = s.store.ticks) {wire' : Option (List (Message α))} :
    Loading { s with store := store', wire := wire', delivered := some t.ts } answer (parked ++ [t]) := by
  rw [hsp.accepted] at hinc
  have hbefore : ∀ x ∈ past, x.ts < t.ts := fun x hx => (List.pairwise_append.mp hinc).2.2 x hx t List.mem_cons_self
  have hold : ∀ d, s.delivered = some d → d < t.ts := by
    intro d hd
    obtain ⟨u, hu, hle⟩ := hsp.early d hd
    exact lt_of_le_of_lt hle (hbefore u hu)
  have hparked : ∀ x ∈ parked, x.ts < t.ts := by
    intro x hx
    obtain ⟨d, hd, hle⟩ := h.early x hx
    exact lt_of_le_of_lt hle (hold d hd)
  refine ⟨h.nonempty, h.served, hticks ▸ h.behind, increasing_snoc h.increasing hparked, ?_, ?_⟩
  · intro x hx
    refine ⟨t.ts, rfl, ?_⟩
    rcases List.mem_append.mp hx with hx | hx
    · exact le_of_lt (hparked x hx)
    · rw [List.mem_singleton.mp hx]
  · change ((parked ++ [t]).filter fun x => decide (cover s answer < x.ts)) =
      span CompactTick.ts (cover s answer + 1) (max (cover s answer) t.ts) s.accepted
    by_cases hlt : cover s answer < t.ts
    · have hlate : upTo (cover s answer) s.delivered < t.ts := upTo_lt hlt hold
      have hcover := le_upTo (cover s answer) s.delivered
      have hnext := span_next hinc hpast hlate (a := cover s answer + 1) (by omega)
      rw [max_eq_right (le_of_lt hlt), hsp.accepted, hnext, ← hsp.accepted, ← h.tail, List.filter_append,
        List.filter_cons_of_pos (by simpa using hlt)]
      rfl
    · have hle : t.ts ≤ cover s answer := not_lt.mp hlt
      rw [max_eq_left hle, span_eq_nil]
      · apply List.filter_eq_nil_iff.mpr
        intro x hx
        simp only [decide_eq_true_eq, not_lt]
        rcases List.mem_append.mp hx with hx | hx
        · exact le_trans (le_of_lt (hparked x hx)) hle
        · rw [List.mem_singleton.mp hx]
          exact hle
      · intro x _
        omega

theorem tick_copied {past later : List (CompactTick α)} {first : CompactTick α} {newest : Int}
    (hs : Sound cap s) (hsp : Split s past (t :: later))
    (hpast : ∀ x ∈ past, x.ts ≤ upTo newest s.delivered) (h : Copied s first newest)
    {wire' : Option (List (Message α))} :
    Copied { s with store := s.store.append [t], wire := wire', delivered := some t.ts } first newest := by
  have hinc := hs.hub.increasing
  rw [hsp.accepted] at hinc
  have hbefore : ∀ x ∈ past, x.ts < t.ts := fun x hx => (List.pairwise_append.mp hinc).2.2 x hx t List.mem_cons_self
  have hold : ∀ d, s.delivered = some d → d < t.ts := by
    intro d hd
    obtain ⟨u, hu, hle⟩ := hsp.early d hd
    exact lt_of_le_of_lt hle (hbefore u hu)
  obtain ⟨u, hu, hnewest⟩ := h.held
  obtain ⟨kept, mark, hkept, hticks⟩ := h.copy
  have hreach := le_upTo newest s.delivered
  have hin : u ∈ span CompactTick.ts first.ts (upTo newest s.delivered) s.accepted :=
    mem_span.mpr ⟨hu, by have := h.ordered; omega, by omega⟩
  have hne : span CompactTick.ts first.ts (upTo newest s.delivered) s.accepted ≠ [] := List.ne_nil_of_mem hin
  obtain ⟨z, hz⟩ : ∃ z, (span CompactTick.ts first.ts (upTo newest s.delivered) s.accepted).getLast? = some z :=
    ⟨_, List.getLast?_eq_some_getLast hne⟩
  have hlast : ∃ y, s.store.ticks.getLast? = some y ∧ y.ts = z.ts := by
    have hmark := markHead_newest mark (span CompactTick.ts first.ts (upTo newest s.delivered) s.accepted)
    rw [hz] at hmark
    obtain ⟨y, hy, hyz⟩ := Option.map_eq_some_iff.mp hmark
    refine ⟨y, ?_, hyz⟩
    rw [hticks, getLast?_latest capacity_pos, List.getLast?_append, hy]
    rfl
  obtain ⟨y, hy, hyz⟩ := hlast
  have hzu : u.ts ≤ z.ts := le_last (hs.hub.increasing.filter _) hz hin
  have hzreach : z.ts ≤ upTo newest s.delivered := (mem_span.mp (List.mem_of_getLast? hz)).2.2
  refine ⟨h.ordered, h.held, kept, mark, hkept, ?_⟩
  change (s.store.append [t]).ticks =
    latest capacity (kept ++ markHead mark (span CompactTick.ts first.ts (max newest t.ts) s.accepted))
  by_cases hlt : newest < t.ts
  · have hlate : upTo newest s.delivered < t.ts := upTo_lt hlt hold
    have hpush : push CompactTick.ts s.store.ticks t = s.store.ticks ++ [t] := by
      apply push_newer
      intro x hx
      obtain rfl := Option.some.inj (hy.symm.trans hx)
      omega
    have hnext := span_next hinc hpast hlate (a := first.ts) (by have := h.ordered; omega)
    rw [← hsp.accepted] at hnext
    rw [max_eq_right (le_of_lt hlt), hnext, markHead_snoc mark hne, ← List.append_assoc, ← latest_append_latest,
      ← hticks, ← hpush]
    rfl
  · have hle : t.ts ≤ newest := not_lt.mp hlt
    have hsame : upTo newest s.delivered = newest := by
      cases hd : s.delivered with
      | none => rfl
      | some d => exact max_eq_left (le_trans (le_of_lt (hold d hd)) hle)
    have hpush : push CompactTick.ts s.store.ticks t = s.store.ticks := push_older hy (by omega)
    have hfit : latest capacity s.store.ticks = s.store.ticks := by
      rw [latest, Nat.sub_eq_zero_of_le hs.order.short, List.drop_zero]
    rw [max_eq_left hle, ← hsame, ← hticks]
    exact (congrArg (latest capacity) hpush).trans hfit

theorem tick_sound (hs : Sound cap s) (h : Carries s (.tick t :: rest)) : Sound cap (s.deliverTick t rest) := by
  obtain ⟨past, later, hsp, rfl, hpast⟩ := greeted_split h
  have hinc := hs.hub.increasing
  rw [hsp.accepted] at hinc
  have ht : t ∈ s.accepted := hsp.accepted ▸ List.mem_append_right past List.mem_cons_self
  have hwire : ∀ store', Carries { s with store := store', wire := some (later.map .tick), delivered := some t.ts }
      (later.map .tick) := by
    intro store'
    have hsplit : Split { s with store := store', wire := some (later.map .tick), delivered := some t.ts }
        (past ++ [t]) later := by
      refine ⟨by simpa using hsp.accepted, fun d hd => ⟨t, by simp, ?_⟩⟩
      rw [← Option.some.inj hd]
    refine .greeted hsplit fun c _ x hx => le_trans ?_ (le_max_right c t.ts)
    rcases List.mem_append.mp hx with hx | hx
    · exact le_of_lt ((List.pairwise_append.mp hinc).2.2 x hx t List.mem_cons_self)
    · rw [List.mem_singleton.mp hx]
  have hdelivered : ∀ d, some t.ts = some d → ∃ u ∈ s.accepted, d ≤ u.ts := by
    intro d hd
    exact ⟨t, ht, le_of_eq (Option.some.inj hd).symm⟩
  cases hreq : s.request with
  | some answer =>
      obtain ⟨parked, hpending, hload⟩ := hs.loading answer hreq
      have hstore : s.store.onTick t = { s.store with pending := some (parked ++ [t]) } := by
        rw [LiveStore.onTick, hpending]
      rw [Session.deliverTick, hstore]
      refine ⟨hs.hub, hs.empty, ⟨hs.order.increasing, hs.order.short⟩, hs.behind, hdelivered, ?_, ?_, ?_, ?_⟩
      · intro ms hms
        obtain rfl := Option.some.inj hms
        exact hwire _
      · intro hnone
        exact absurd (hreq.symm.trans hnone) nofun
      · intro answer' hreq'
        obtain rfl := Option.some.inj (hreq.symm.trans hreq')
        have hticks : ({ s.store with pending := some (parked ++ [t]) } : LiveStore α).ticks = s.store.ticks := rfl
        refine ⟨parked ++ [t], rfl, ?_⟩
        exact tick_loading hs.hub.increasing hsp (hpast _ (.inl ⟨answer, hreq, rfl⟩)) hload hticks
      · intro first newest hloaded
        exact absurd (hreq.symm.trans (hs.copied first newest hloaded).1) nofun
  | none =>
      have hpending := hs.idle hreq
      have hstore : s.store.onTick t = s.store.append [t] := by rw [LiveStore.onTick, hpending]
      rw [Session.deliverTick, hstore]
      refine ⟨hs.hub, hs.empty, append_inOrder hs.order.increasing [t], ?_, hdelivered, ?_, fun _ => hpending, ?_, ?_⟩
      · intro x hx
        rcases mem_append_ticks hx with hx | hx
        · exact hs.behind x hx
        · exact ⟨t, ht, le_of_eq (congrArg _ (List.mem_singleton.mp hx))⟩
      · intro ms hms
        obtain rfl := Option.some.inj hms
        exact hwire _
      · intro answer hanswer
        exact absurd (hreq.symm.trans hanswer) nofun
      · intro first newest hloaded
        obtain ⟨-, hcopied⟩ := hs.copied first newest hloaded
        exact ⟨hreq, tick_copied hs hsp (hpast newest (.inr ⟨first, hloaded⟩)) hcopied⟩

end Tick

end NetWatch.Live.Deliver
