import NetWatch.Live.Seams

namespace NetWatch.Live.Breaks

open Hub Store Link Restarts Held Seams Lib.Timeline Lib.Runs

variable {α : Type} {cap : Capacity} {s : Site α} {source : Source α}

abbrev parkedOf (s : Site α) : List (CompactTick α) := s.store.pending.getD []

def Carries (s : Site α) (ms : List (Message α)) : Prop :=
  ∃ ts, ms = ts.map .tick ∧ Feeds s.source.held s.attached s.source.hub.loaded (parkedOf s) s.told ts ∨
    ∃ latestTs, ms = .hello latestTs :: ts.map .tick ∧
      Feeds s.source.held s.attached s.source.hub.loaded (parkedOf s) latestTs ts

theorem Carries.imp {s' : Site α} {ms : List (Message α)} (h : Carries s ms) (htold : s'.told = s.told)
    (hf : ∀ told ts, Feeds s.source.held s.attached s.source.hub.loaded (parkedOf s) told ts →
      Feeds s'.source.held s'.attached s'.source.hub.loaded (parkedOf s') told ts) : Carries s' ms := by
  obtain ⟨ts, ⟨hms, h⟩ | ⟨latestTs, hms, h⟩⟩ := h
  · refine ⟨ts, .inl ⟨hms, ?_⟩⟩
    rw [htold]
    exact hf s.told ts h
  · exact ⟨ts, .inr ⟨latestTs, hms, hf latestTs ts h⟩⟩

structure Sound (cap : Capacity) (s : Site α) : Prop where
  server : Server cap s.source
  order : InOrder s.store
  drawn : Drawn s.source.held s.store.ticks
  among : Among s.source.held s.store.ticks
  wire : ∀ ms, s.wire = some ms → Carries s ms
  idle : s.request = none → s.store.pending = none
  loading : ∀ answer, s.request = some answer →
    ∃ parked, s.store.pending = some parked ∧ Parks s.source.held s.told s.before answer parked

theorem sound_start : Sound cap (.start : Site α) :=
  ⟨server_start, ⟨.nil, Nat.zero_le _⟩, .nil, nofun, nofun, fun _ => rfl, nofun⟩

theorem Sound.parked (h : Sound cap s) : Among s.source.held (parkedOf s) := by
  cases hreq : s.request with
  | none =>
      rw [parkedOf, h.idle hreq]
      nofun
  | some answer =>
      obtain ⟨parked, hpending, hparks⟩ := h.loading answer hreq
      rw [parkedOf, hpending]
      exact hparks.among

theorem source_sound (h : Sound cap s) (hserver : Server cap source) (hheld : source.held = s.source.held)
    (hloaded : source.hub.loaded = s.source.hub.loaded) : Sound cap { s with source := source } := by
  refine ⟨hserver, h.order, ?_, ?_, ?_, h.idle, ?_⟩
  · rw [hheld]
    exact h.drawn
  · rw [hheld]
    exact h.among
  · intro ms hms
    have hcarries := h.wire ms hms
    simp only [Carries, hheld, hloaded]
    exact hcarries
  · intro answer hreq
    rw [hheld]
    exact h.loading answer hreq

theorem restart_sound (h : Sound cap s) : Sound cap { s with source := s.source.restart, attached := false } := by
  refine ⟨server_restart h.server, h.order, h.drawn, h.among, ?_, h.idle, h.loading⟩
  intro ms hms
  refine (h.wire ms hms).imp rfl fun told ts hf => ?_
  exact ⟨hf.linked, hf.increasing, hf.among, hf.joined, hf.known, nofun, nofun, hf.fresh⟩

theorem grown_sound {new : List (CompactTick α)} {wire : Option (List (Message α))} (h : Sound cap s)
    (hserver : Server cap source) (hheld : source.held = s.source.held ++ new) (hg : Grows s.source.held new)
    (hwire : ∀ ms, wire = some ms → Carries { s with source := source, wire := wire } ms) :
    Sound cap { s with source := source, wire := wire } := by
  refine ⟨hserver, h.order, ?_, ?_, hwire, h.idle, ?_⟩
  · rw [hheld]
    exact h.drawn.grows hg h.among
  · rw [hheld]
    exact h.among.grows new
  · intro answer hreq
    obtain ⟨parked, hpending, hparks⟩ := h.loading answer hreq
    refine ⟨parked, hpending, ?_⟩
    rw [hheld]
    exact hparks.grows hg

theorem backfill_sound {first : Nat} (h : Sound cap s) (hb : s.source.backfill cap first = some source) :
    Sound cap { s with source := source } := by
  obtain ⟨hserver, hload, new, hheld, hg⟩ := server_backfill h.server hb
  refine grown_sound h hserver hheld hg fun ms hms => ?_
  refine (h.wire ms hms).imp rfl fun told ts hf => ?_
  change Feeds source.held s.attached source.hub.loaded (parkedOf s) told ts
  rw [hheld]
  exact hf.grows hg _ fun hatt => hf.silent hatt hload

theorem read_sound {next : Source α × Option (CompactTick α)} (h : Sound cap s) (hr : s.source.read cap = some next) :
    Sound cap (s.broadcast next) := by
  obtain ⟨source, out⟩ := next
  obtain ⟨hserver, hload, t, rfl, hheld, hnew⟩ := server_read h.server hr
  have hg := grows_newest hnew
  refine grown_sound h hserver hheld hg fun ms hms => ?_
  by_cases hatt : s.attached = true
  · simp only [hatt, if_true, Option.toList_some, List.map_cons, List.map_nil] at hms
    obtain ⟨ms₀, hms₀, rfl⟩ := Option.map_eq_some_iff.mp hms
    have hsent : ∀ {told ts}, Feeds s.source.held s.attached s.source.hub.loaded (parkedOf s) told ts →
        Feeds source.held s.attached source.hub.loaded (parkedOf s) told (ts ++ [t]) := by
      intro told ts hf
      rw [hatt] at hf
      rw [hheld, hatt, hload]
      exact hf.sent h.parked hnew
    obtain ⟨ts, ⟨rfl, hf⟩ | ⟨latestTs, rfl, hf⟩⟩ := h.wire ms₀ hms₀
    · exact ⟨ts ++ [t], .inl ⟨by simp, hsent hf⟩⟩
    · exact ⟨ts ++ [t], .inr ⟨latestTs, by simp, hsent hf⟩⟩
  · simp only [hatt] at hms
    refine (h.wire ms hms).imp rfl fun told ts hf => ?_
    change Feeds source.held s.attached source.hub.loaded (parkedOf s) told ts
    rw [hheld]
    exact hf.grows hg _ fun hatt' => absurd hatt' hatt

theorem frame_sound {store : LiveStore α} {wire : Option (List (Message α))} {attached : Bool} (h : Sound cap s)
    (hticks : store.ticks = s.store.ticks) (hpending : store.pending = s.store.pending)
    (hwire : ∀ ms, wire = some ms → Carries { s with store := store, wire := wire, attached := attached } ms) :
    Sound cap { s with store := store, wire := wire, attached := attached } := by
  refine ⟨h.server, ⟨?_, ?_⟩, ?_, ?_, hwire, ?_, ?_⟩
  · rw [hticks]
    exact h.order.increasing
  · rw [hticks]
    exact h.order.short
  · rw [hticks]
    exact h.drawn
  · rw [hticks]
    exact h.among
  · intro hreq
    exact hpending.trans (h.idle hreq)
  · intro answer hreq
    obtain ⟨parked, hparked, hparks⟩ := h.loading answer hreq
    exact ⟨parked, hpending.trans hparked, hparks⟩

theorem open_sound (h : Sound cap s) : Sound cap { s with store := s.store.openStream } :=
  frame_sound h rfl rfl fun ms hms => (h.wire ms hms).imp rfl fun _ _ hf => hf

theorem connect_sound (h : Sound cap s) :
    Sound cap { s with wire := some [.hello s.source.hub.latestTs], attached := true } := by
  refine frame_sound h rfl rfl fun ms hms => ?_
  obtain rfl := Option.some.inj hms
  have hlatest : ∀ m, s.source.hub.latestTs = some m → ∃ z, s.source.hub.ring.getLast? = some z ∧ z.ts = m :=
    fun m hm => Option.map_eq_some_iff.mp hm
  refine ⟨[], .inr ⟨_, rfl, .nil, .nil, nofun, nofun, ?_, ?_, ?_, nofun⟩⟩
  · intro m hm
    obtain ⟨z, hz, rfl⟩ := hlatest m hm
    exact h.server.ring z (List.mem_of_getLast? hz)
  · intro _ m hm
    obtain ⟨z, hz, rfl⟩ := hlatest m hm
    exact h.server.newest z hz
  · intro _ hload
    refine ⟨rfl, ?_⟩
    rw [LiveHub.latestTs, h.server.unloaded hload]
    rfl

theorem hello_sound {latestTs : Option Int} {rest : List (Message α)} (h : Sound cap s)
    (hw : Carries s (.hello latestTs :: rest)) : Sound cap (s.deliverHello latestTs rest) := by
  obtain ⟨ts, hf, hrest⟩ : ∃ ts, Feeds s.source.held s.attached s.source.hub.loaded (parkedOf s) latestTs ts ∧
      rest = ts.map .tick := by
    obtain ⟨ts, ⟨hms, -⟩ | ⟨l, hms, hf⟩⟩ := hw
    · cases ts <;> cases hms
    · obtain ⟨hl, hrest⟩ := List.cons.inj hms
      obtain rfl := Message.hello.inj hl
      exact ⟨ts, hf, hrest⟩
  subst hrest
  by_cases hask : latestTs ≠ none ∧ latestTs ≠ s.store.ticks.getLast?.map CompactTick.ts
  · simp only [Site.deliverHello, LiveStore.onHello, if_pos hask]
    refine ⟨h.server, ⟨h.order.increasing, h.order.short⟩, h.drawn, h.among, ?_, nofun, ?_⟩
    · intro ms hms
      obtain rfl := Option.some.inj hms
      exact ⟨ts, .inl ⟨rfl, hf.linked, hf.increasing, hf.among, hf.joined, hf.known, hf.newest, hf.silent, nofun⟩⟩
    · intro answer hreq
      obtain rfl : none = answer := Option.some.inj hreq
      exact ⟨[], rfl, .nil, .nil, nofun, nofun, fun _ _ hm => hm, hf.known, nofun⟩
  · simp only [Site.deliverHello, LiveStore.onHello, if_neg hask]
    refine ⟨h.server, ⟨h.order.increasing, h.order.short⟩, h.drawn, h.among, ?_, h.idle, ?_⟩
    · intro ms hms
      obtain rfl := Option.some.inj hms
      exact ⟨ts, .inl ⟨rfl, hf⟩⟩
    · intro answer hreq
      obtain ⟨parked, hparked, hparks⟩ := h.loading answer hreq
      refine ⟨parked, hparked, ?_⟩
      simp only [hparked, Option.any_some, Bool.false_eq_true, if_false]
      cases parked with
      | nil =>
          refine ⟨.nil, .nil, nofun, nofun, nofun, nofun, fun series hseries => ?_⟩
          have ha := hparks.served series hseries
          exact ⟨ha.linked, ha.increasing, ha.among, nofun⟩
      | cons p parked =>
          exact ⟨hparks.drawn, hparks.increasing, hparks.among, hparks.joined, nofun, hparks.asked, hparks.served⟩

theorem append_sound {t : CompactTick α} {ts : List (CompactTick α)} (h : Sound cap s) (hreq : s.request = none)
    (hf : Feeds s.source.held s.attached s.source.hub.loaded (parkedOf s) s.told (t :: ts))
    (hj : joins s.told s.store.ticks [t] = true) : Sound cap (s.deliverTick t (ts.map .tick)) := by
  have hpending := h.idle hreq
  have hstore : s.store.onTick t = s.store.append [t] := by rw [LiveStore.onTick, hpending]
  rw [Site.deliverTick, hstore]
  refine ⟨h.server, append_inOrder h.order.increasing [t],
    append_drawn h.drawn (List.isChain_singleton t) (seam_of_joins hj hf.told_clear), append_among h.among hf.first_among, ?_,
    fun _ => hpending, fun answer hans => absurd (hreq.symm.trans hans) nofun⟩
  intro ms hms
  obtain rfl := Option.some.inj hms
  exact ⟨ts, .inl ⟨rfl, hf.delivered _ fun p hp => .inl hp⟩⟩

theorem park_sound {t : CompactTick α} {ts parked : List (CompactTick α)} {answer : Option (List (CompactTick α))}
    (h : Sound cap s) (hreq : s.request = some answer) (hpending : s.store.pending = some parked)
    (hf : Feeds s.source.held s.attached s.source.hub.loaded (parkedOf s) s.told (t :: ts))
    (hj : joins s.told parked [t] = true) : Sound cap (s.deliverTick t (ts.map .tick)) := by
  have hof : parkedOf s = parked := by rw [parkedOf, hpending, Option.getD_some]
  rw [hof] at hf
  have hstore : s.store.onTick t = { s.store with pending := some (parked ++ [t]) } := by rw [LiveStore.onTick, hpending]
  rw [Site.deliverTick, hstore]
  refine ⟨h.server, ⟨h.order.increasing, h.order.short⟩, h.drawn, h.among, ?_,
    fun hnone => absurd (hreq.symm.trans hnone) nofun, ?_⟩
  · intro ms hms
    obtain rfl := Option.some.inj hms
    refine ⟨ts, .inl ⟨rfl, hf.delivered _ fun p hp => ?_⟩⟩
    change p ∈ parked ++ [t] at hp
    simpa using hp
  · intro answer' hans
    obtain ⟨parked', hpending', hparks⟩ := h.loading answer' hans
    obtain rfl := Option.some.inj (hpending.symm.trans hpending')
    exact ⟨parked ++ [t], rfl, hparks.park hf hj⟩

theorem tick_sound {t : CompactTick α} {rest : List (Message α)} (h : Sound cap s) (hw : Carries s (.tick t :: rest))
    (hj : joins s.told (s.store.pending.getD s.store.ticks) [t] = true) : Sound cap (s.deliverTick t rest) := by
  obtain ⟨ts, hf, rfl⟩ : ∃ ts, Feeds s.source.held s.attached s.source.hub.loaded (parkedOf s) s.told (t :: ts) ∧
      rest = ts.map .tick := by
    obtain ⟨ts, ⟨hms, hf⟩ | ⟨l, hms, -⟩⟩ := hw
    · cases ts with
      | nil => cases hms
      | cons u ts =>
          obtain ⟨hu, hrest⟩ := List.cons.inj hms
          obtain rfl := Message.tick.inj hu
          exact ⟨ts, hf, hrest⟩
    · cases hms
  cases hreq : s.request with
  | none =>
      rw [h.idle hreq, Option.getD_none] at hj
      exact append_sound h hreq hf hj
  | some answer =>
      obtain ⟨parked, hpending, -⟩ := h.loading answer hreq
      rw [hpending, Option.getD_some] at hj
      exact park_sound h hreq hpending hf hj

theorem serve_sound (h : Sound cap s) (hreq : s.request = some none) :
    Sound cap { s with request := some (some (s.source.hub.series capacity)) } := by
  obtain ⟨parked, hpending, hparks⟩ := h.loading none hreq
  have hsuffix : s.source.hub.series capacity <:+ s.source.hub.ring := by
    rw [LiveHub.series]
    split
    · exact List.nil_suffix
    · exact List.rtakeWhile_suffix _ _
  refine ⟨h.server, h.order, h.drawn, h.among, fun ms hms => (h.wire ms hms).imp rfl fun _ _ hf => hf,
    fun hidle => absurd hidle (Option.some_ne_none _), ?_⟩
  intro answer hans
  obtain rfl := Option.some.inj hans
  refine ⟨parked, hpending, hparks.drawn, hparks.increasing, hparks.among, hparks.joined, hparks.start, hparks.asked, ?_⟩
  intro series hseries
  obtain rfl := Option.some.inj hseries
  refine ⟨h.server.linked.suffix hsuffix, h.server.increasing.sublist hsuffix.sublist,
    fun t ht => h.server.ring t (hsuffix.mem ht), fun m z hm hz => ?_⟩
  obtain ⟨x, hx, rfl⟩ := hparks.asked m hm
  obtain ⟨older, holder⟩ := hsuffix
  have hlast : s.source.hub.ring.getLast? = some z := by
    rw [← holder, List.getLast?_append, hz]
    rfl
  exact h.server.newest z hlast x hx

theorem ended_sound {store base : LiveStore α} {parked : List (CompactTick α)} (h : Sound cap s)
    (hticks : store.ticks = (base.append parked).ticks) (hpending : store.pending = none)
    (hinc : Increasing CompactTick.ts base.ticks) (hdrawn : Drawn s.source.held base.ticks)
    (hamong : Among s.source.held base.ticks) (hparked : Drawn s.source.held parked) (hin : Among s.source.held parked)
    (hseam : Seam s.source.held base.ticks parked) : Sound cap { s with store := store, request := none } := by
  have horder := append_inOrder hinc parked
  refine ⟨h.server, ⟨hticks ▸ horder.increasing, hticks ▸ horder.short⟩, ?_, ?_, ?_, fun _ => hpending, nofun⟩
  · rw [hticks]
    exact append_drawn hdrawn hparked hseam
  · rw [hticks]
    exact append_among hamong hin
  · intro ms hms
    refine (h.wire ms hms).imp rfl fun told ts hf => ?_
    refine ⟨hf.linked, hf.increasing, hf.among, hf.joined, hf.known, hf.newest, hf.silent, ?_⟩
    intro p hp
    rw [parkedOf, hpending] at hp
    cases hp

/-- Without ticks in the answer, what is parked goes behind the old buffer. -/
theorem unanswered_sound {answer : Option (List (CompactTick α))} {store : LiveStore α} (h : Sound cap s)
    (hreq : s.request = some answer) (hj : joins s.before s.store.ticks (s.store.pending.getD []) = true)
    (hticks : store.ticks = (s.store.append (s.store.pending.getD [])).ticks) (hpending : store.pending = none) :
    Sound cap { s with store := store, request := none } := by
  obtain ⟨parked, hparked, hparks⟩ := h.loading answer hreq
  rw [hparked, Option.getD_some] at hj hticks
  exact ended_sound h hticks hpending h.order.increasing h.drawn h.among hparks.drawn hparks.among
    (seam_of_joins hj hparks.joined)

theorem respond_sound {first : CompactTick α} {rest : List (CompactTick α)} (h : Sound cap s)
    (hreq : s.request = some (some (first :: rest))) (hr : reaches s.store.ticks first = true)
    (hj : s.before = none → joins none (first :: rest) (s.store.pending.getD []) = true) :
    Sound cap { s with store := s.store.seriesLoaded (first :: rest), request := none } := by
  obtain ⟨parked, hpending, hparks⟩ := h.loading _ hreq
  have hanswer := hparks.served _ rfl
  rw [hpending, Option.getD_some] at hj
  let kept := s.store.ticks.filter fun t => t.ts < first.ts
  let merged : LiveStore α := { s.store with ticks := kept ++ LiveStore.mergeHead kept first :: rest }
  have hticks : (s.store.seriesLoaded (first :: rest)).ticks = (merged.append parked).ticks := by
    simp only [LiveStore.seriesLoaded, LiveStore.merge, hpending, Option.getD_some]
    rfl
  have hseam : Seam s.source.held merged.ticks parked := by
    intro z p hz hp
    obtain ⟨u, hu, hus⟩ := merge_last kept kept hz
    cases hbefore : s.before with
    | none =>
        rw [← hus]
        exact seam_of_joins (hj hbefore) nofun u p hu hp
    | some m =>
        refine .inr (.inr ((hparks.joined m p hbefore hp).later ?_))
        rw [← hus]
        exact hanswer.newest m u hbefore hu
  exact ended_sound h hticks (seriesLoaded_pending _) (merge_increasing kept h.order.increasing hanswer.increasing)
    (merge_drawn h.drawn h.order.increasing hr hanswer.linked) (merge_among kept h.among hanswer.among) hparks.drawn
    hparks.among hseam

theorem close_sound (h : Sound cap s) :
    Sound cap { s with store := .new, wire := none, attached := false, request := none } :=
  ⟨h.server, ⟨.nil, Nat.zero_le _⟩, .nil, nofun, nofun, fun _ => rfl, nofun⟩

theorem sound_step {s' : Site α} {e : Restarts.Event α} (h : Sound cap s) (hg : Orderly s e) (hs : s.step cap e = some s') :
    Sound cap s' := by
  cases e with
  | add entry =>
      cases hs
      exact source_sound h (server_add h.server hg) rfl rfl
  | trim n =>
      obtain ⟨source, hsource, rfl⟩ := Option.map_eq_some_iff.mp hs
      obtain ⟨hserver, hheld, hhub⟩ := server_trim h.server hsource
      exact source_sound h hserver hheld (congrArg LiveHub.loaded hhub)
  | restart =>
      cases hs
      exact restart_sound h
  | fetch =>
      obtain ⟨source, hsource, rfl⟩ := Option.map_eq_some_iff.mp hs
      obtain ⟨hserver, hheld, hhub⟩ := server_fetch h.server hsource
      exact source_sound h hserver hheld (congrArg LiveHub.loaded hhub)
  | backfill first =>
      obtain ⟨source, hsource, rfl⟩ := Option.map_eq_some_iff.mp hs
      exact backfill_sound h hsource
  | trimmedPast =>
      obtain ⟨source, hsource, rfl⟩ := Option.map_eq_some_iff.mp hs
      obtain ⟨hserver, hheld, hloaded⟩ := server_trimmedPast h.server hsource
      exact source_sound h hserver hheld hloaded
  | read =>
      obtain ⟨next, hnext, rfl⟩ := Option.map_eq_some_iff.mp hs
      exact read_sound h hnext
  | openStream =>
      rw [Site.step] at hs
      split_ifs at hs
      cases hs
      exact open_sound h
  | connect =>
      rw [Site.step] at hs
      split_ifs at hs
      cases hs
      exact connect_sound h
  | deliver =>
      simp only [Site.step] at hs
      split at hs
      case h_1 latestTs rest hwire =>
        cases hs
        exact hello_sound h (h.wire _ hwire)
      case h_2 t rest hwire =>
        cases hs
        simp only [Orderly, tickJoins, hwire] at hg
        exact tick_sound h (h.wire _ hwire) hg
      case h_3 => cases hs
  | disconnect closed =>
      rw [Site.step] at hs
      split_ifs at hs
      cases hs
      exact frame_sound h rfl rfl nofun
  | serve =>
      simp only [Site.step] at hs
      split at hs
      case h_1 hreq =>
        cases hs
        exact serve_sound h hreq
      case h_2 => cases hs
  | respond =>
      simp only [Site.step] at hs
      split at hs
      case h_1 series hreq =>
        cases hs
        cases series with
        | nil =>
            simp only [Orderly, answerJoins, hreq] at hg
            exact unanswered_sound h hreq hg rfl (seriesLoaded_pending [])
        | cons first rest =>
            simp only [Orderly, answerJoins, hreq, Bool.and_eq_true, Bool.or_eq_true] at hg
            refine respond_sound h hreq hg.1 fun hbefore => ?_
            rcases hg.2 with hsome | hjoins
            · rw [hbefore] at hsome
              cases hsome
            · exact hjoins
      case h_2 => cases hs
  | fail message =>
      simp only [Site.step] at hs
      split at hs
      case h_1 answer hreq =>
        cases hs
        exact unanswered_sound h hreq hg rfl rfl
      case h_2 => cases hs
  | close =>
      cases hs
      exact close_sound h

/-- In every run in which ticks are put only where they join, the buffer has a break
between two ticks wherever a hub has held one between them. -/
theorem line_broken {es : List (Restarts.Event α)} (h : Run (Site.step cap) Orderly .start es s)
    {older newer : List (CompactTick α)} {a b x : CompactTick α} (hab : s.store.ticks = older ++ a :: b :: newer)
    (hx : x ∈ s.source.held) (hax : a.ts < x.ts) (hxb : x.ts < b.ts) : b.gap = true := by
  have hs : Sound cap s := h.invariant sound_start fun _ _ _ hs hg hstep => sound_step hs hg hstep
  have hdrawn := hs.drawn
  rw [Drawn, hab, List.isChain_append_cons_cons] at hdrawn
  rcases hdrawn.2.1 with hgap | hclear
  · exact hgap
  · exact absurd hxb (not_lt.mpr (hclear x hx hax))

instance (s : Site α) (e : Restarts.Event α) : Decidable (Orderly s e) :=
  match e with
  | .add entry => inferInstanceAs (Decidable (∀ x ∈ s.source.log, x.ts < entry.ts))
  | .deliver => inferInstanceAs (Decidable (tickJoins s = true))
  | .respond => inferInstanceAs (Decidable (answerJoins s = true))
  | .fail _ => inferInstanceAs (Decidable (joins s.before s.store.ticks (s.store.pending.getD []) = true))
  | .trim _ => .isTrue trivial
  | .restart => .isTrue trivial
  | .fetch => .isTrue trivial
  | .backfill _ => .isTrue trivial
  | .trimmedPast => .isTrue trivial
  | .read => .isTrue trivial
  | .openStream => .isTrue trivial
  | .connect => .isTrue trivial
  | .disconnect _ => .isTrue trivial
  | .serve => .isTrue trivial
  | .close => .isTrue trivial

def sampleEntry (ts : Int) : CompactTick Unit := ⟨ts, 1000, false, ()⟩

/-- A tab shows one tick and is cut off. A hub that keeps one tick reads another, the
server restarts, and the tab loads the one tick of the new hub. -/
def sampleEvents : List (Restarts.Event Unit) :=
  [.add (sampleEntry 1000), .fetch, .backfill 0, .openStream, .connect, .deliver, .serve, .respond, .disconnect false,
    .add (sampleEntry 2000), .read, .restart, .add (sampleEntry 3000), .add (sampleEntry 4000), .fetch, .backfill 3,
    .connect, .deliver, .serve, .respond]

theorem line_broken_sample : ∃ s : Site Unit, ∃ a b x,
    Run (Site.step ⟨1, by decide, by decide⟩) Orderly .start sampleEvents s ∧ s.store.ticks = [a, b] ∧
      x ∈ s.source.held ∧ a.ts < x.ts ∧ x.ts < b.ts ∧ b.gap = true := by
  have hruns : ((exec (checked (Site.step ⟨1, by decide, by decide⟩) Orderly) .start sampleEvents).map fun s =>
      (s.store.ticks.map CompactTick.ts, s.source.held.map CompactTick.ts)) =
      some ([1000, 4000], [1000, 2000, 4000]) := by decide +kernel
  obtain ⟨s, hs, hend⟩ := Option.map_eq_some_iff.mp hruns
  obtain ⟨hticks, hheld⟩ := Prod.mk.inj hend
  have hrun := Run.of_checked hs
  obtain ⟨a, ticks, hab, ha, hmore⟩ := List.map_eq_cons_iff.mp hticks
  obtain ⟨b, ticks, rfl, hb, hnil⟩ := List.map_eq_cons_iff.mp hmore
  obtain rfl := List.map_eq_nil_iff.mp hnil
  obtain ⟨x, hx, hxs⟩ : ∃ x ∈ s.source.held, x.ts = 2000 := List.mem_map.mp (by rw [hheld]; decide)
  have hax : a.ts < x.ts := by omega
  have hxb : x.ts < b.ts := by omega
  have hsplit : s.store.ticks = [] ++ a :: b :: [] := hab
  exact ⟨s, a, b, x, hrun, hab, hx, hax, hxb, line_broken hrun hsplit hx hax hxb⟩

def NeverCrosses (cap : Capacity) : Prop :=
  ∀ {es : List (Restarts.Event Unit)} {s : Site Unit}, Run (Site.step cap) Free .start es s →
    ∀ {older newer : List (CompactTick Unit)} {a b x : CompactTick Unit}, s.store.ticks = older ++ a :: b :: newer →
      x ∈ s.source.held → a.ts < x.ts → x.ts < b.ts → b.gap = true

/-- The server restarts and says hello before its backfill, which takes up a tick
that the tab does not have. -/
def restartEvents : List (Restarts.Event Unit) :=
  [.add (sampleEntry 1000), .fetch, .backfill 0, .openStream, .connect, .deliver, .serve, .respond, .restart,
    .disconnect false, .add (sampleEntry 2000), .connect, .deliver, .fetch, .backfill 0, .add (sampleEntry 3000), .read,
    .deliver]

theorem line_crosses : ¬ NeverCrosses ⟨3600, by decide, by decide⟩ := by
  intro h
  have hruns : ((exec (Site.step ⟨3600, by decide, by decide⟩) .start restartEvents).map fun s =>
      (s.store.ticks.map fun t => (t.ts, t.gap), s.source.held.map CompactTick.ts)) =
      some ([(1000, false), (3000, false)], [1000, 1000, 2000, 3000]) := by decide +kernel
  obtain ⟨s, hs, hend⟩ := Option.map_eq_some_iff.mp hruns
  obtain ⟨hticks, hheld⟩ := Prod.mk.inj hend
  obtain ⟨a, ticks, hab, ha, hmore⟩ := List.map_eq_cons_iff.mp hticks
  obtain ⟨b, ticks, rfl, hb, -⟩ := List.map_eq_cons_iff.mp hmore
  obtain ⟨x, hx, hxs⟩ : ∃ x ∈ s.source.held, x.ts = 2000 := List.mem_map.mp (by rw [hheld]; decide)
  obtain ⟨hats, -⟩ := Prod.mk.inj ha
  obtain ⟨hbts, hgap⟩ := Prod.mk.inj hb
  have hsplit : s.store.ticks = [] ++ a :: b :: ticks := hab
  have hmarked := h (Run.of_exec hs) hsplit hx (by omega) (by omega)
  exact absurd (hmarked.symm.trans hgap) nofun

end NetWatch.Live.Breaks
