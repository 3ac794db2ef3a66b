import NetWatch.Live.Link

namespace NetWatch.Live.Invariant

open Hub Store Link Lib.Timeline Lib.Runs

variable {α : Type}

def newestTs (l : List (CompactTick α)) : Int := l.getLast?.elim 0 CompactTick.ts

/-- The newest time in the answer of a request, where a request that is not
served yet counts with all that the hub has accepted. -/
def cover (s : Session α) (answer : Option (List (CompactTick α))) : Int := newestTs (answer.getD s.accepted)

structure Loading (s : Session α) (answer : Option (List (CompactTick α))) (parked : List (CompactTick α)) : Prop where
  nonempty : s.accepted ≠ []
  served : ∀ series, answer = some series → ∃ first newest, series.head? = some first ∧
    series.getLast? = some newest ∧ series = span CompactTick.ts first.ts newest.ts s.accepted
  behind : ∀ t ∈ s.store.ticks, t.ts ≤ cover s answer
  increasing : Increasing CompactTick.ts parked
  early : ∀ t ∈ parked, ∃ d, s.delivered = some d ∧ t.ts ≤ d
  tail : (parked.filter fun t => decide (cover s answer < t.ts)) =
    span CompactTick.ts (cover s answer + 1) (upTo (cover s answer) s.delivered) s.accepted

structure Copied (s : Session α) (first : CompactTick α) (newest : Int) : Prop where
  ordered : first.ts ≤ newest
  held : ∃ u ∈ s.accepted, u.ts = newest
  copy : ∃ kept mark, (∀ t ∈ kept, t.ts < first.ts) ∧ s.store.ticks =
    latest capacity (kept ++ markHead mark (span CompactTick.ts first.ts (upTo newest s.delivered) s.accepted))

/-- A time up to which the tab gets what the hub has accepted before the stream
was connected. -/
def Horizon (s : Session α) (c : Int) : Prop :=
  (∃ answer, s.request = some answer ∧ c = cover s answer) ∨ ∃ first, s.loaded = some (first, c)

structure Split (s : Session α) (past rest : List (CompactTick α)) : Prop where
  accepted : s.accepted = past ++ rest
  early : ∀ d, s.delivered = some d → ∃ u ∈ past, d ≤ u.ts

/-- What is on the wire: all that the hub has accepted since the stream was
connected and that is not delivered yet. -/
inductive Carries (s : Session α) : List (Message α) → Prop
  | greeted {past rest} (hsplit : Split s past rest)
      (hpast : ∀ c, Horizon s c → ∀ t ∈ past, t.ts ≤ upTo c s.delivered) : Carries s (rest.map .tick)
  | fresh {past rest latestTs} (hsplit : Split s past rest)
      (hlatest : latestTs = past.getLast?.map CompactTick.ts ∨ latestTs = none ∧ s.request = none) :
      Carries s (.hello latestTs :: rest.map .tick)

structure Sound (cap : Capacity) (s : Session α) : Prop where
  hub : Keeps cap s.hub s.accepted
  empty : s.hub.loaded = false → s.accepted = []
  order : InOrder s.store
  behind : ∀ t ∈ s.store.ticks, ∃ u ∈ s.accepted, t.ts ≤ u.ts
  delivered : ∀ d, s.delivered = some d → ∃ u ∈ s.accepted, d ≤ u.ts
  wire : ∀ ms, s.wire = some ms → Carries s ms
  idle : s.request = none → s.store.pending = none
  loading : ∀ answer, s.request = some answer → ∃ parked, s.store.pending = some parked ∧ Loading s answer parked
  copied : ∀ first newest, s.loaded = some (first, newest) → s.request = none ∧ Copied s first newest

theorem newestTs_eq {l : List (CompactTick α)} {z : CompactTick α} (h : l.getLast? = some z) : newestTs l = z.ts := by
  rw [newestTs, h]
  rfl

theorem le_newestTs {l : List (CompactTick α)} (h : Increasing CompactTick.ts l) {t : CompactTick α} (ht : t ∈ l) :
    t.ts ≤ newestTs l := by
  cases hz : l.getLast? with
  | none => rw [List.getLast?_eq_none_iff.mp hz] at ht; cases ht
  | some z =>
      rw [newestTs_eq hz]
      exact le_last h hz ht

theorem start_sound (cap : Capacity) : Sound cap (Session.start : Session α) where
  hub := ⟨List.Pairwise.nil, by simp [Session.start, LiveHub.new, latest]⟩
  empty _ := rfl
  order := ⟨List.Pairwise.nil, Nat.zero_le _⟩
  behind t ht := absurd ht List.not_mem_nil
  delivered _ h := absurd h nofun
  wire _ h := absurd h nofun
  idle _ := rfl
  loading _ h := absurd h nofun
  copied _ _ h := absurd h nofun

theorem nothing_yet {cap : Capacity} {s : Session α} (hs : Sound cap s) (hnil : s.accepted = []) :
    s.store.ticks = [] ∧ s.delivered = none ∧ s.request = none ∧ s.loaded = none := by
  refine ⟨?_, ?_, ?_, ?_⟩
  · apply List.eq_nil_iff_forall_not_mem.mpr
    intro t ht
    obtain ⟨u, hu, -⟩ := hs.behind t ht
    rw [hnil] at hu
    cases hu
  · apply Option.eq_none_iff_forall_ne_some.mpr
    intro d hd
    obtain ⟨u, hu, -⟩ := hs.delivered d hd
    rw [hnil] at hu
    cases hu
  · apply Option.eq_none_iff_forall_ne_some.mpr
    intro q hq
    obtain ⟨parked, -, hload⟩ := hs.loading q hq
    exact hload.nonempty hnil
  · apply Option.eq_none_iff_forall_ne_some.mpr
    intro q hq
    obtain ⟨u, hu, -⟩ := (hs.copied q.1 q.2 hq).2.held
    rw [hnil] at hu
    cases hu

theorem backfill_sound {cap : Capacity} {s : Session α} (hs : Sound cap s) (hload : s.hub.loaded = false)
    (entries : List (CompactTick α)) :
    Sound cap { s with hub := (s.hub.backfill cap entries).1, accepted := s.accepted ++ (s.hub.backfill cap entries).2 } := by
  have hnil := hs.empty hload
  obtain ⟨hticks, hdel, hreq, hloaded⟩ := nothing_yet hs hnil
  rw [hnil, List.nil_append]
  refine ⟨backfill_keeps s.hub entries, nofun, hs.order, ?_, ?_, ?_, hs.idle, ?_, ?_⟩
  · intro t ht
    rw [hticks] at ht
    cases ht
  · intro d hd
    exact absurd (hdel.symm.trans hd) nofun
  · intro ms hms
    have hsplit : ∀ past rest : List (CompactTick α), Split s past rest → past = [] ∧ rest = [] := by
      intro past rest hsp
      exact List.append_eq_nil_iff.mp (hsp.accepted.symm.trans hnil)
    cases hs.wire ms hms with
    | @greeted past rest hsp hpast =>
        obtain ⟨rfl, rfl⟩ := hsplit past rest hsp
        refine .greeted (⟨(List.append_nil _).symm, ?_⟩ : Split _ (s.hub.backfill cap entries).2 []) ?_
        · intro d hd
          exact absurd (hdel.symm.trans hd) nofun
        · rintro c (⟨q, hq, -⟩ | ⟨first, hfirst⟩)
          · exact absurd (hreq.symm.trans hq) nofun
          · exact absurd (hloaded.symm.trans hfirst) nofun
    | @fresh past rest latestTs hsp hlatest =>
        obtain ⟨rfl, rfl⟩ := hsplit past rest hsp
        refine .fresh (⟨(List.append_nil _).symm, ?_⟩ : Split _ (s.hub.backfill cap entries).2 []) (.inr ⟨?_, hreq⟩)
        · intro d hd
          exact absurd (hdel.symm.trans hd) nofun
        · rcases hlatest with rfl | ⟨hnone, -⟩
          · rfl
          · exact hnone
  · intro q hq
    exact absurd (hreq.symm.trans hq) nofun
  · intro first newest h
    exact absurd (hloaded.symm.trans h) nofun

theorem served_mem {s : Session α} {series : List (CompactTick α)} {parked : List (CompactTick α)}
    (h : Loading s (some series) parked) : ∃ u ∈ s.accepted, u.ts = cover s (some series) := by
  obtain ⟨first, newest, -, hnewest, hspan⟩ := h.served series rfl
  have hmem : newest ∈ span CompactTick.ts first.ts newest.ts s.accepted := hspan ▸ List.mem_of_getLast? hnewest
  exact ⟨newest, (mem_span.mp hmem).1, (newestTs_eq hnewest).symm⟩

section Grow

variable {cap : Capacity} {s : Session α} {t : CompactTick α}

theorem grow_loading (hs : Sound cap s) (hub' : LiveHub α) (ht : ∀ x ∈ s.accepted, x.ts < t.ts)
    {answer : Option (List (CompactTick α))} {parked : List (CompactTick α)} (h : Loading s answer parked) :
    Loading (Session.broadcast { s with hub := hub' } (some t)) answer parked := by
  have hold : ∀ d, s.delivered = some d → d < t.ts := by
    intro d hd
    obtain ⟨u, hu, hle⟩ := hs.delivered d hd
    exact lt_of_le_of_lt hle (ht u hu)
  cases answer with
  | none =>
      have hcover : cover (Session.broadcast { s with hub := hub' } (some t)) none = t.ts :=
        newestTs_eq List.getLast?_concat
      refine ⟨by simp [Session.broadcast], nofun, ?_, h.increasing, h.early, ?_⟩
      · intro x hx
        obtain ⟨u, hu, hle⟩ := hs.behind x hx
        rw [hcover]
        exact le_of_lt (lt_of_le_of_lt hle (ht u hu))
      · rw [hcover]
        have hparked : (parked.filter fun x => decide (t.ts < x.ts)) = [] := by
          apply List.filter_eq_nil_iff.mpr
          intro x hx
          obtain ⟨d, hd, hle⟩ := h.early x hx
          have := hold d hd
          simp only [decide_eq_true_eq]
          omega
        rw [hparked]
        refine (span_eq_nil fun x hx => .inl ?_).symm
        rcases List.mem_append.mp hx with hx | hx
        · have := ht x hx
          omega
        · rw [List.mem_singleton.mp hx]
          omega
  | some series =>
      have hcover : cover (Session.broadcast { s with hub := hub' } (some t)) (some series) = cover s (some series) := rfl
      obtain ⟨u, hu, hnewest⟩ := served_mem h
      have hlt : cover s (some series) < t.ts := hnewest ▸ ht u hu
      refine ⟨by simp [Session.broadcast], ?_, h.behind, h.increasing, h.early, ?_⟩
      · intro series' hseries
        obtain rfl := Option.some.inj hseries
        obtain ⟨first, newest, hfirst, hlast, hspan⟩ := h.served series rfl
        refine ⟨first, newest, hfirst, hlast, ?_⟩
        have hlate : newest.ts < t.ts := by
          have hcov : cover s (some series) = newest.ts := newestTs_eq hlast
          omega
        exact hspan.trans (span_snoc_later hlate).symm
      · rw [hcover]
        exact h.tail.trans (span_snoc_later (upTo_lt hlt hold)).symm

theorem grow_horizon (hub' : LiveHub α) {c : Int} (h : Horizon (Session.broadcast { s with hub := hub' } (some t)) c) :
    c = t.ts ∨ Horizon s c := by
  rcases h with ⟨answer, hreq, rfl⟩ | h
  · cases answer with
    | none => exact .inl (newestTs_eq List.getLast?_concat)
    | some series => exact .inr (.inl ⟨some series, hreq, rfl⟩)
  · exact .inr (.inr h)

theorem grow_carries (hub' : LiveHub α) (ht : ∀ x ∈ s.accepted, x.ts < t.ts)
    {ms : List (Message α)} (h : Carries s ms) :
    Carries (Session.broadcast { s with hub := hub' } (some t)) (ms ++ [.tick t]) := by
  have hsplit : ∀ past rest, Split s past rest →
      Split (Session.broadcast { s with hub := hub' } (some t)) past (rest ++ [t]) := by
    intro past rest hsp
    refine ⟨?_, hsp.early⟩
    rw [← List.append_assoc, ← hsp.accepted]
    rfl
  cases h with
  | @greeted past rest hsp hpast =>
      have hmap : rest.map Message.tick ++ [Message.tick t] = (rest ++ [t]).map Message.tick := by simp
      rw [hmap]
      refine .greeted (hsplit past rest hsp) fun c hc x hx => ?_
      rcases grow_horizon hub' hc with rfl | hc
      · have hlt := ht x (hsp.accepted ▸ List.mem_append_left rest hx)
        exact le_trans (le_of_lt hlt) (le_upTo _ _)
      · exact hpast c hc x hx
  | @fresh past rest latestTs hsp hlatest =>
      have hmap : Message.hello latestTs :: rest.map Message.tick ++ [Message.tick t] =
          Message.hello latestTs :: (rest ++ [t]).map Message.tick := by simp
      rw [hmap]
      exact .fresh (hsplit past rest hsp) hlatest

theorem grow_sound (hs : Sound cap s) {hub' : LiveHub α} (hhub : Keeps cap hub' (s.accepted ++ [t]))
    (hloaded : hub'.loaded = true) (ht : ∀ x ∈ s.accepted, x.ts < t.ts) :
    Sound cap (Session.broadcast { s with hub := hub' } (some t)) := by
  have hmem : ∀ u ∈ s.accepted, u ∈ (Session.broadcast { s with hub := hub' } (some t)).accepted :=
    fun u hu => List.mem_append_left _ hu
  refine ⟨hhub, fun h => absurd (hloaded.symm.trans h) nofun, hs.order, ?_, ?_, ?_, hs.idle, ?_, ?_⟩
  · intro x hx
    obtain ⟨u, hu, hle⟩ := hs.behind x hx
    exact ⟨u, hmem u hu, hle⟩
  · intro d hd
    obtain ⟨u, hu, hle⟩ := hs.delivered d hd
    exact ⟨u, hmem u hu, hle⟩
  · intro ms hms
    obtain ⟨ms₀, hms₀, rfl⟩ := Option.map_eq_some_iff.mp hms
    exact grow_carries hub' ht (hs.wire ms₀ hms₀)
  · intro answer hreq
    obtain ⟨parked, hpending, hload⟩ := hs.loading answer hreq
    exact ⟨parked, hpending, grow_loading hs hub' ht hload⟩
  · intro first newest h
    obtain ⟨hreq, hcopied⟩ := hs.copied first newest h
    obtain ⟨u, hu, hnewest⟩ := hcopied.held
    obtain ⟨kept, mark, hkept, hticks⟩ := hcopied.copy
    refine ⟨hreq, hcopied.ordered, ⟨u, hmem u hu, hnewest⟩, kept, mark, hkept, ?_⟩
    have hlt : upTo newest s.delivered < t.ts := by
      refine upTo_lt (hnewest ▸ ht u hu) fun d hd => ?_
      obtain ⟨v, hv, hle⟩ := hs.delivered d hd
      exact lt_of_le_of_lt hle (ht v hv)
    apply hticks.trans
    have hspan : span CompactTick.ts first.ts (upTo newest s.delivered) (s.accepted ++ [t]) =
        span CompactTick.ts first.ts (upTo newest s.delivered) s.accepted := span_snoc_later hlt
    exact congrArg (fun l => latest capacity (kept ++ markHead mark l)) hspan.symm

end Grow

theorem frame_sound {cap : Capacity} {s : Session α} (hs : Sound cap s) {hub' : LiveHub α} {store' : LiveStore α}
    {wire' : Option (List (Message α))} {loaded' : Option (CompactTick α × Int)} (hhub : Keeps cap hub' s.accepted)
    (hempty : hub'.loaded = false → s.accepted = []) (hticks : store'.ticks = s.store.ticks)
    (hpending : store'.pending = s.store.pending) (hwire : wire' = s.wire ∨ wire' = none)
    (hloaded : loaded' = s.loaded ∨ loaded' = none) :
    Sound cap { s with hub := hub', store := store', wire := wire', loaded := loaded' } := by
  have hback : ∀ first newest, loaded' = some (first, newest) → s.loaded = some (first, newest) := by
    intro first newest h
    rcases hloaded with rfl | rfl
    · exact h
    · cases h
  refine ⟨hhub, hempty, ⟨?_, ?_⟩, ?_, hs.delivered, ?_, ?_, ?_, ?_⟩
  · exact hticks ▸ hs.order.increasing
  · exact hticks ▸ hs.order.short
  · exact hticks ▸ hs.behind
  · intro ms hms
    rcases hwire with rfl | rfl
    · cases hs.wire ms hms with
      | greeted hsp hpast =>
          refine .greeted ⟨hsp.accepted, hsp.early⟩ fun c hc => hpast c ?_
          rcases hc with hc | ⟨first, hfirst⟩
          · exact .inl hc
          · exact .inr ⟨first, hback first c hfirst⟩
      | fresh hsp hlatest => exact .fresh ⟨hsp.accepted, hsp.early⟩ hlatest
    · cases hms
  · intro hreq
    exact hpending.trans (hs.idle hreq)
  · intro answer hreq
    obtain ⟨parked, hparked, h⟩ := hs.loading answer hreq
    exact ⟨parked, hpending.trans hparked, h.nonempty, h.served, hticks ▸ h.behind, h.increasing, h.early, h.tail⟩
  · intro first newest h
    obtain ⟨hreq, hcopied⟩ := hs.copied first newest (hback first newest h)
    exact ⟨hreq, hcopied.ordered, hcopied.held, hticks ▸ hcopied.copy⟩

theorem read_sound {cap : Capacity} {s : Session α} (hs : Sound cap s) (hload : s.hub.loaded = true)
    (entry : CompactTick α) :
    Sound cap (Session.broadcast { s with hub := (s.hub.ingest cap entry).1 } (s.hub.ingest cap entry).2) := by
  obtain ⟨hkeeps, hnewer⟩ := ingest_keeps hs.hub entry
  have hloaded : (s.hub.ingest cap entry).1.loaded = true := (ingest_loaded entry).trans hload
  cases ht : (s.hub.ingest cap entry).2 with
  | some t =>
      rw [ht] at hkeeps
      exact grow_sound hs hkeeps hloaded (hnewer t ht)
  | none =>
      rw [ht, Option.toList_none, List.append_nil] at hkeeps
      have hsame : Session.broadcast { s with hub := (s.hub.ingest cap entry).1 } none =
          { s with hub := (s.hub.ingest cap entry).1 } := by
        simp [Session.broadcast]
      rw [hsame]
      exact frame_sound hs hkeeps (fun h => absurd (hloaded.symm.trans h) nofun) rfl rfl (.inl rfl) (.inl rfl)

theorem connect_sound {cap : Capacity} {s : Session α} (hs : Sound cap s) :
    Sound cap { s with wire := some [.hello s.hub.latestTs] } := by
  refine ⟨hs.hub, hs.empty, hs.order, hs.behind, hs.delivered, ?_, hs.idle, ?_, ?_⟩
  · intro ms hms
    obtain rfl := Option.some.inj hms
    change Carries _ (Message.hello s.hub.latestTs :: List.map Message.tick [])
    exact .fresh ⟨(List.append_nil _).symm, hs.delivered⟩ (.inl hs.hub.latestTs)
  · intro answer hreq
    obtain ⟨parked, hparked, h⟩ := hs.loading answer hreq
    exact ⟨parked, hparked, h.nonempty, h.served, h.behind, h.increasing, h.early, h.tail⟩
  · intro first newest h
    obtain ⟨hreq, hcopied⟩ := hs.copied first newest h
    exact ⟨hreq, hcopied.ordered, hcopied.held, hcopied.copy⟩

end NetWatch.Live.Invariant
