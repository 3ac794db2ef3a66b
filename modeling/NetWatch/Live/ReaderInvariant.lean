import NetWatch.Live.Reader

namespace NetWatch.Live.ReaderInvariant

open Hub Reader Lib.Timeline Lib.Runs

variable {β σ τ φ : Type} [LinearOrder τ] {f : Format β σ τ φ} {cap : Capacity} {throws : Nat → Reader.Tick σ → Bool}

/-- The snapshots among some entries whose time exceeds that of the one taken
before. -/
def taken (f : Format β σ τ φ) (prev : Option σ) : List β → List σ
  | [] => []
  | m :: ms =>
      match f.decode m with
      | .snap s => if prev.any fun p => f.ts s ≤ f.ts p then taken f prev ms else s :: taken f (some s) ms
      | _ => taken f prev ms

theorem taken_append (prev : Option σ) (ms ns : List β) :
    taken f prev (ms ++ ns) = taken f prev ms ++ taken f ((taken f prev ms).getLast?.or prev) ns := by
  induction ms generalizing prev with
  | nil => rfl
  | cons m ms ih =>
      simp only [List.cons_append, taken]
      split
      · split
        · exact ih prev
        · rw [ih, List.cons_append, List.getLast?_cons]
          cases (taken f (some _) ms).getLast? with
          | none => rfl
          | some s => rfl
      · exact ih prev

/-- A parsable snapshot compacts into a tick of numbers. -/
def Compacts (f : Format β σ τ φ) (m : β) : Prop :=
  f.decode m ≠ .broken ∧ ∀ s, f.decode m = .snap s → f.converts s = true

structure Holds (f : Format β σ τ φ) (cap : Capacity) (h : State σ τ φ) (accepted : List (Reader.Tick σ)) : Prop where
  ring : h.ring = latest cap.val accepted
  recent : h.recent = latest recentFlows (accepted.map fun t => (f.ts t.snap, f.flows t.snap))
  increasing : accepted.Pairwise fun a b => f.ts a.snap < f.ts b.snap
  converts : ∀ t ∈ accepted, f.converts t.snap = true

theorem latest_tail {α : Type} {n : Nat} (l : List α) (x : α) :
    (if (latest n l ++ [x]).length > n then (latest n l ++ [x]).tail else latest n l ++ [x]) = latest n (l ++ [x]) := by
  have hlen : (latest n l ++ [x]).length ≤ n + 1 := by
    rw [List.length_append]
    exact Nat.add_le_add_right (length_latest_le n l) 1
  rw [← latest_append_latest n l [x]]
  generalize latest n l ++ [x] = m at hlen
  rw [latest]
  split
  · have hone : m.length - n = 1 := by omega
    rw [hone, List.drop_one]
  · have hzero : m.length - n = 0 := by omega
    rw [hzero, List.drop_zero]

section Holds

variable {h : State σ τ φ} {accepted : List (Reader.Tick σ)}

theorem Holds.newest (hh : Holds f cap h accepted) : h.ring.getLast? = accepted.getLast? := by
  rw [hh.ring, getLast?_latest cap.pos]

theorem Holds.push {t : Reader.Tick σ} (hh : Holds f cap h accepted) (hc : f.converts t.snap = true)
    (hnew : ∀ p, accepted.getLast? = some p → f.ts p.snap < f.ts t.snap) :
    Holds f cap (h.push f cap t) (accepted ++ [t]) where
  ring := by
    simp only [State.push, hh.ring, latest_append_latest]
  recent := by
    simp only [State.push, hh.recent, latest_tail, List.map_append, List.map_cons, List.map_nil]
  increasing := by
    refine List.pairwise_append.mpr ⟨hh.increasing, List.pairwise_singleton _ _, ?_⟩
    intro a ha b hb
    rw [List.mem_singleton.mp hb]
    obtain ⟨init, p, rfl⟩ : ∃ init p, accepted = init ++ [p] := by
      rcases List.eq_nil_or_concat' accepted with rfl | hex
      · cases ha
      · exact hex
    have hp := hnew p List.getLast?_concat
    rcases List.mem_append.mp ha with ha | ha
    · exact lt_trans ((List.pairwise_append.mp hh.increasing).2.2 a ha p (by simp)) hp
    · rw [List.mem_singleton.mp ha]
      exact hp
  converts := by
    intro u hu
    rcases List.mem_append.mp hu with hu | hu
    · exact hh.converts u hu
    · rw [List.mem_singleton.mp hu]
      exact hc

theorem Holds.judge (hh : Holds f cap h accepted) {m : β} (hm : Compacts f m) :
    (h.judge f m = .skipped ∧ taken f (accepted.getLast?.map Reader.Tick.snap) [m] = []) ∨
    ∃ t, h.judge f m = .accepted t ∧ taken f (accepted.getLast?.map Reader.Tick.snap) [m] = [t.snap] ∧
      Holds f cap (h.push f cap t) (accepted ++ [t]) := by
  rw [State.judge, hh.newest]
  cases hd : f.decode m with
  | unparsable => exact .inl ⟨rfl, by simp [taken, hd]⟩
  | broken => exact absurd hd hm.1
  | snap s =>
      have hs := hm.2 s hd
      cases hp : accepted.getLast? with
      | none =>
          exact .inr ⟨_, rfl, by simp [taken, hd], hh.push hs fun p hp' => absurd (hp.symm.trans hp') nofun⟩
      | some p =>
          have hpc := hh.converts p (List.mem_of_getLast? hp)
          dsimp only
          split
          case isTrue hle => exact .inl ⟨rfl, by simp [taken, hd, hle]⟩
          case isFalse hlt =>
            have hpush : ∀ gap, Holds f cap (h.push f cap ⟨s, gap⟩) (accepted ++ [⟨s, gap⟩]) := by
              intro gap
              refine hh.push hs fun q hq => ?_
              rw [← Option.some.inj (hp.symm.trans hq)]
              exact not_le.mp hlt
            split
            · exact .inr ⟨_, rfl, by simp [taken, hd, hlt], hpush _⟩
            · rw [hs, hpc]
              exact .inr ⟨_, rfl, by simp [taken, hd, hlt], hpush _⟩

theorem Holds.ingestAll (hh : Holds f cap h accepted) {ms : List β} (hm : ∀ m ∈ ms, Compacts f m) :
    ∃ h' ts, State.ingestAll f cap h ms = (h', ts, false) ∧ Holds f cap h' (accepted ++ ts) ∧
      ts.map Reader.Tick.snap = taken f (accepted.getLast?.map Reader.Tick.snap) ms := by
  induction ms generalizing h accepted with
  | nil => exact ⟨h, [], rfl, by rwa [List.append_nil], rfl⟩
  | cons m ms ih =>
      obtain ⟨hm, hms⟩ := List.forall_mem_cons.mp hm
      have hsplit := taken_append (f := f) (accepted.getLast?.map Reader.Tick.snap) [m] ms
      rw [List.singleton_append] at hsplit
      rcases hh.judge hm with ⟨hj, ht⟩ | ⟨t, hj, ht, hpush⟩
      · obtain ⟨h', ts, hall, hholds, hts⟩ := ih hh hms
        refine ⟨h', ts, ?_, hholds, ?_⟩
        · rw [State.ingestAll, hj]
          exact hall
        · rw [hsplit, ht, hts]
          rfl
      · obtain ⟨h', ts, hall, hholds, hts⟩ := ih hpush hms
        refine ⟨h', t :: ts, ?_, ?_, ?_⟩
        · rw [State.ingestAll, hj]
          simp only [hall]
        · rwa [List.append_assoc] at hholds
        · rw [hsplit, ht, List.map_cons, hts, List.getLast?_concat]
          rfl

end Holds

section Sorted

variable {log p q : List (Entry β)} {x : Entry β}

abbrev Sorted (log : List (Entry β)) : Prop := log.Pairwise fun a b => a.id < b.id

theorem Sorted.filter_lt (h : Sorted (p ++ x :: q)) : (p ++ x :: q).filter (fun e => e.id < x.id) = p := by
  obtain ⟨-, hxq, hp⟩ := List.pairwise_append.mp h
  rw [List.filter_append, List.filter_eq_self.mpr, List.filter_eq_nil_iff.mpr, List.append_nil]
  · intro e he
    rcases List.mem_cons.mp he with rfl | he
    · simp
    · have hlt := (List.pairwise_cons.mp hxq).1 e he
      simpa using le_of_lt hlt
  · intro e he
    exact decide_eq_true (hp e he x List.mem_cons_self)

theorem Sorted.drop_filter_lt (h : Sorted (p ++ x :: q)) (n : Nat) :
    ((p ++ x :: q).drop n).filter (fun e => e.id < x.id) = p.drop n := by
  by_cases hn : n ≤ p.length
  · rw [List.drop_append_of_le_length hn]
    refine Sorted.filter_lt (h.sublist ?_)
    exact (List.drop_sublist n p).append_right _
  · have hnil : p.drop n = [] := List.drop_eq_nil_of_le (by omega)
    rw [hnil, List.filter_eq_nil_iff]
    intro e he
    have hrest : e ∈ x :: q := by
      rw [List.drop_append, hnil, List.nil_append] at he
      exact List.mem_of_mem_drop he
    rcases List.mem_cons.mp hrest with rfl | he
    · simp
    · have hlt := (List.pairwise_cons.mp (List.pairwise_append.mp h).2.1).1 e he
      simpa using le_of_lt hlt

end Sorted

structure Placed (w : World β σ τ φ) (i : StreamId) (before rest : List (Entry β)) : Prop where
  log : w.log = before ++ w.passed.map Prod.fst ++ rest
  upTo : ∀ e ∈ before ++ w.passed.map Prod.fst, e.id ≤ i
  after : ∀ e ∈ rest, i < e.id
  begun : w.begun = before.length

structure Reads (f : Format β σ τ φ) (cap : Capacity) (w : World β σ τ φ) (i : StreamId) : Prop where
  known : i = zeroId ∨ ∃ x ∈ w.log, x.id = i
  placed : ∃ before rest, Placed w i before rest
  missed : ∀ e, (e, false) ∈ w.passed → e ∈ w.log.take w.trimmed
  whole : w.block = cap.val ∨ w.begun ≤ w.trimmed
  blockLe : w.block ≤ w.passed.length
  loaded : ∃ loaded, w.accepted = loaded ++ w.sent ∧
    loaded.map Reader.Tick.snap = taken f none ((w.passed.take w.block).map fun x => x.1.message) ∧
    ∀ x ∈ w.passed.take w.block, x.2 = true
  accepted : w.accepted.map Reader.Tick.snap =
    taken f none ((w.passed.filter Prod.snd).map fun x => x.1.message)
  holds : Holds f cap w.hub w.accepted

def PhaseOk (cap : Capacity) (w : World β σ τ φ) : Phase β → Prop
  | .top => True
  | .paging entries none =>
      w.hub.lastId = none ∧ entries.length < cap.val ∧ ∃ older newer, w.log = older ++ entries.reverse ++ newer
  | .paging entries (some got) =>
      w.hub.lastId = none ∧ entries.length < cap.val ∧ got.length ≤ World.pageCount cap entries ∧
        ∃ older newer, w.log = older ++ (entries ++ got).reverse ++ newer ∧
          (got.length < World.pageCount cap entries → older.length ≤ w.trimmed)
  | .checking _ => w.hub.lastId ≠ none
  | .info _ => w.hub.lastId ≠ none
  | .reading none => w.hub.lastId ≠ none
  | .reading (some (entries, trimmed)) =>
      trimmed ≤ w.trimmed ∧ ∃ i, w.hub.lastId = some i ∧ (entries ≠ [] →
        ∃ rest, (w.log.filter fun e => i < e.id) =
          (w.log.take trimmed).filter (fun e => i < e.id) ++ entries ++ rest)

structure Ok (f : Format β σ τ φ) (cap : Capacity) (w : World β σ τ φ) : Prop where
  sorted : Sorted w.log
  positive : ∀ e ∈ w.log, zeroId < e.id
  trimmed : w.trimmed ≤ w.log.length
  compacts : ∀ e ∈ w.log, Compacts f e.message
  phase : PhaseOk cap w w.phase
  reads : ∀ i, w.hub.lastId = some i → Reads f cap w i
  idle : w.hub.lastId = none → w.sent = []
  listeners : ∀ l ∈ w.listeners, l.joined ≤ w.sent.length ∧ l.got = w.sent.drop l.joined

variable {w w' : World β σ τ φ}

theorem ok_start : Ok f cap (.start : World β σ τ φ) where
  sorted := .nil
  positive := nofun
  trimmed := le_rfl
  compacts := nofun
  phase := trivial
  reads := nofun
  idle _ := rfl
  listeners := nofun

omit [LinearOrder τ] in
theorem Placed.filter_gt {i : StreamId} {before rest : List (Entry β)} (h : Placed w i before rest) :
    w.log.filter (fun e => i < e.id) = rest := by
  rw [h.log, List.filter_append, List.filter_eq_nil_iff.mpr, List.nil_append, List.filter_eq_self.mpr]
  · intro e he
    exact decide_eq_true (h.after e he)
  · intro e he
    simpa using h.upTo e he

omit [LinearOrder τ] in
theorem Placed.filter_le {i : StreamId} {before rest : List (Entry β)} (h : Placed w i before rest) :
    (w.log.drop w.begun).filter (fun e => e.id ≤ i) = w.passed.map Prod.fst := by
  rw [h.log, h.begun, List.append_assoc, List.drop_left, List.filter_append, List.filter_eq_self.mpr,
    List.filter_eq_nil_iff.mpr, List.append_nil]
  · intro e he
    simpa using h.after e he
  · intro e he
    exact decide_eq_true (h.upTo e (List.mem_append_right _ he))

theorem Reads.frame {i : StreamId} (h : Reads f cap w i) (extra : List (Entry β)) (hlog : w'.log = w.log ++ extra)
    (hextra : ∀ e ∈ extra, i < e.id) (htrim : w.trimmed ≤ w'.trimmed) (hpassed : w'.passed = w.passed)
    (hbegun : w'.begun = w.begun) (hblock : w'.block = w.block) (haccepted : w'.accepted = w.accepted)
    (hsent : w'.sent = w.sent) (hring : w'.hub.ring = w.hub.ring) (hrecent : w'.hub.recent = w.hub.recent) :
    Reads f cap w' i where
  known := by
    rcases h.known with hk | ⟨x, hx, hk⟩
    · exact .inl hk
    · exact .inr ⟨x, hlog ▸ List.mem_append_left _ hx, hk⟩
  placed := by
    obtain ⟨before, rest, hp⟩ := h.placed
    refine ⟨before, rest ++ extra, ?_, ?_, ?_, hbegun.trans hp.begun⟩
    · rw [hlog, hp.log, hpassed, List.append_assoc _ rest]
    · rw [hpassed]
      exact hp.upTo
    · intro e he
      rcases List.mem_append.mp he with he | he
      · exact hp.after e he
      · exact hextra e he
  missed := by
    intro e he
    rw [hpassed] at he
    rw [hlog, List.take_append]
    exact List.mem_append_left _ ((List.take_sublist_take_left htrim).subset (h.missed e he))
  whole := by
    rw [hblock, hbegun]
    rcases h.whole with hw | hw
    · exact .inl hw
    · exact .inr (hw.trans htrim)
  blockLe := by
    rw [hblock, hpassed]
    exact h.blockLe
  loaded := by
    rw [haccepted, hsent, hpassed, hblock]
    exact h.loaded
  accepted := by
    rw [haccepted, hpassed]
    exact h.accepted
  holds := by
    rw [haccepted]
    exact ⟨hring.trans h.holds.ring, hrecent.trans h.holds.recent, h.holds.increasing, h.holds.converts⟩

/-- Entries come with growing ids, and every snapshot among them compacts. -/
def Orderly (f : Format β σ τ φ) (w : World β σ τ φ) : Event β → Prop
  | .append e => (∀ x ∈ w.log, x.id < e.id) ∧ zeroId < e.id ∧ Compacts f e.message
  | _ => True

omit [LinearOrder τ] in
theorem phase_append {ph : Phase β} {e : Entry β} (h : PhaseOk cap w ph) (ht : w.trimmed ≤ w.log.length) :
    PhaseOk cap { w with log := w.log ++ [e] } ph := by
  cases ph with
  | top => trivial
  | paging entries reply =>
      cases reply with
      | none =>
          obtain ⟨hid, hlen, older, newer, hlog⟩ := h
          refine ⟨hid, hlen, older, newer ++ [e], ?_⟩
          rw [← List.append_assoc, ← hlog]
      | some got =>
          obtain ⟨hid, hlen, hgot, older, newer, hlog, hshort⟩ := h
          refine ⟨hid, hlen, hgot, older, newer ++ [e], ?_, hshort⟩
          rw [← List.append_assoc, ← hlog]
  | checking reply => exact h
  | info reply => exact h
  | reading reply =>
      match reply, h with
      | none, h => exact h
      | some (entries, trimmed), ⟨hle, i, hi, hrest⟩ =>
          refine ⟨hle, i, hi, fun hne => ?_⟩
          obtain ⟨rest, hrest⟩ := hrest hne
          refine ⟨rest ++ [e].filter fun x => i < x.id, ?_⟩
          have htake : (w.log ++ [e]).take trimmed = w.log.take trimmed :=
            List.take_append_of_le_length (hle.trans ht)
          rw [List.filter_append, htake, hrest, ← List.append_assoc]

omit [LinearOrder τ] in
theorem phase_trim {ph : Phase β} {n : Nat} (h : PhaseOk cap w ph) :
    PhaseOk cap { w with trimmed := w.trimmed + n } ph := by
  cases ph with
  | top => trivial
  | paging entries reply =>
      cases reply with
      | none => exact h
      | some got =>
          obtain ⟨hid, hlen, hgot, older, newer, hlog, hshort⟩ := h
          exact ⟨hid, hlen, hgot, older, newer, hlog, fun hlt => (hshort hlt).trans (Nat.le_add_right _ n)⟩
  | checking reply => exact h
  | info reply => exact h
  | reading reply =>
      match reply, h with
      | none, h => exact h
      | some (entries, trimmed), ⟨hle, hrest⟩ => exact ⟨hle.trans (Nat.le_add_right _ n), hrest⟩

theorem ok_append {e : Entry β} (h : Ok f cap w) (hg : Orderly f w (.append e)) :
    Ok f cap { w with log := w.log ++ [e] } where
  sorted := by
    refine List.pairwise_append.mpr ⟨h.sorted, List.pairwise_singleton _ _, ?_⟩
    intro x hx y hy
    rw [List.mem_singleton.mp hy]
    exact hg.1 x hx
  positive := by
    intro x hx
    rcases List.mem_append.mp hx with hx | hx
    · exact h.positive x hx
    · rw [List.mem_singleton.mp hx]
      exact hg.2.1
  trimmed := by
    rw [List.length_append]
    exact h.trimmed.trans (Nat.le_add_right _ _)
  compacts := by
    intro x hx
    rcases List.mem_append.mp hx with hx | hx
    · exact h.compacts x hx
    · rw [List.mem_singleton.mp hx]
      exact hg.2.2
  phase := phase_append h.phase h.trimmed
  reads := by
    intro i hi
    have hreads := h.reads i hi
    refine hreads.frame [e] rfl ?_ le_rfl rfl rfl rfl rfl rfl rfl rfl
    intro x hx
    rw [List.mem_singleton.mp hx]
    rcases hreads.known with rfl | ⟨y, hy, rfl⟩
    · exact hg.2.1
    · exact hg.1 y hy
  idle := h.idle
  listeners := h.listeners

theorem ok_trim {n : Nat} (h : Ok f cap w) (hn : w.trimmed + n ≤ w.log.length) :
    Ok f cap { w with trimmed := w.trimmed + n } where
  sorted := h.sorted
  positive := h.positive
  trimmed := hn
  compacts := h.compacts
  phase := phase_trim h.phase
  reads i hi := (h.reads i hi).frame [] (List.append_nil _).symm nofun (Nat.le_add_right _ n) rfl rfl rfl rfl rfl rfl rfl
  idle := h.idle
  listeners := h.listeners

theorem ok_move (h : Ok f cap w) (hub : State σ τ φ) {ph : Phase β} (hid : hub.lastId = w.hub.lastId)
    (hring : hub.ring = w.hub.ring) (hrecent : hub.recent = w.hub.recent)
    (hphase : PhaseOk cap { w with hub := hub, phase := ph } ph) : Ok f cap { w with hub := hub, phase := ph } where
  sorted := h.sorted
  positive := h.positive
  trimmed := h.trimmed
  compacts := h.compacts
  phase := hphase
  reads i hi := (h.reads i (hid.symm.trans hi)).frame [] (List.append_nil _).symm nofun le_rfl rfl rfl rfl rfl rfl
    hring hrecent
  idle hnone := h.idle (hid.symm.trans hnone)
  listeners := h.listeners

omit [LinearOrder τ] in
/-- A page is the next part of the log, going back, and a short one reaches the
beginning of the stream. -/
theorem revRange_page (cap : Capacity) (hs : Sorted w.log) {entries older newer : List (Entry β)}
    (hlog : w.log = older ++ entries.reverse ++ newer) :
    ∃ older' newer', w.log = older' ++ (entries ++ w.revRange cap entries).reverse ++ newer' ∧
      ((w.revRange cap entries).length < World.pageCount cap entries → older'.length ≤ w.trimmed) := by
  obtain ⟨older, newer, hlog, hupTo⟩ : ∃ older newer, w.log = older ++ entries.reverse ++ newer ∧
      w.stream.filter (fun e => entries.getLast?.all fun oldest => e.id < oldest.id) = older.drop w.trimmed := by
    rcases List.eq_nil_or_concat' entries with rfl | ⟨init, oldest, rfl⟩
    · refine ⟨w.log, [], by simp, ?_⟩
      simp [World.stream]
    · refine ⟨older, newer, hlog, ?_⟩
      have hsplit : w.log = older ++ oldest :: (init.reverse ++ newer) := by
        rw [hlog, List.reverse_append]
        simp
      rw [hsplit] at hs
      simp only [World.stream, List.getLast?_concat, Option.all_some, hsplit]
      exact hs.drop_filter_lt w.trimmed
  rw [World.revRange, hupTo]
  generalize hcount : World.pageCount cap entries = count
  have hback : older.drop w.trimmed =
      (older.drop w.trimmed).take ((older.drop w.trimmed).length - count) ++
        ((older.drop w.trimmed).reverse.take count).reverse := by
    rw [List.take_reverse, List.reverse_reverse, List.take_append_drop]
  refine ⟨older.take w.trimmed ++ (older.drop w.trimmed).take ((older.drop w.trimmed).length - count), newer, ?_, ?_⟩
  · rw [List.reverse_append]
    calc w.log = older.take w.trimmed ++ older.drop w.trimmed ++ entries.reverse ++ newer := by
          rw [List.take_append_drop, hlog]
      _ = _ := by
          conv_lhs => rw [hback]
          simp only [List.append_assoc]
  · intro hshort
    rw [List.length_take, List.length_reverse] at hshort
    have hzero : (older.drop w.trimmed).length - count = 0 := by omega
    rw [hzero, List.take_zero, List.append_nil, List.length_take]
    exact Nat.min_le_left _ _

theorem ok_answer {ph : Phase β} (h : Ok f cap w) (hph : w.answer cap = some ph) : Ok f cap { w with phase := ph } := by
  refine ok_move h w.hub rfl rfl rfl ?_
  have hold := h.phase
  rw [World.answer] at hph
  split at hph
  case h_1 entries hphase =>
    cases hph
    rw [hphase] at hold
    obtain ⟨hid, hlen, older, newer, hlog⟩ := hold
    obtain ⟨older', newer', hpage⟩ := revRange_page cap h.sorted hlog
    refine ⟨hid, hlen, ?_, older', newer', hpage⟩
    rw [World.revRange, List.length_take]
    exact Nat.min_le_left _ _
  case h_2 hphase =>
    cases hph
    rw [hphase] at hold
    exact hold
  case h_3 hphase =>
    cases hph
    rw [hphase] at hold
    exact hold
  case h_4 last hphase hlast =>
    cases hph
    refine ⟨le_rfl, last, hlast, fun _ => ⟨(w.stream.filter fun e => last < e.id).drop readCount, ?_⟩⟩
    rw [World.readAfter, List.append_assoc, List.take_append_drop, World.stream, ← List.filter_append,
      List.take_append_drop]
  case h_5 => cases hph

def after (w : World β σ τ φ) (missed : List (Entry β)) (e : Entry β) (hub : State σ τ φ) (ts : List (Reader.Tick σ))
    (warnings : Nat) : World β σ τ φ :=
  { w with
    hub := hub
    listeners := w.listeners.map fun l => { l with got := l.got ++ ts }
    warnings := warnings
    passed := w.passed ++ missed.map (fun e => (e, false)) ++ [(e, true)]
    accepted := w.accepted ++ ts
    sent := w.sent ++ ts }

section Pass

variable {i : StreamId} {missed rest : List (Entry β)} {e : Entry β} {hub : State σ τ φ} {ts : List (Reader.Tick σ)}
  {warnings : Nat}

theorem Reads.placed_after (h : Reads f cap w i) (hub : State σ τ φ) (ts : List (Reader.Tick σ)) (warnings : Nat)
    (hs : Sorted w.log) (hrest : w.log.filter (fun x => i < x.id) = missed ++ e :: rest) :
    ∃ before, Placed (after w missed e hub ts warnings) e.id before rest := by
  obtain ⟨before, tail, hp⟩ := h.placed
  obtain rfl : tail = missed ++ e :: rest := hp.filter_gt.symm.trans hrest
  have hlog : w.log = (before ++ w.passed.map Prod.fst ++ missed) ++ e :: rest := by
    rw [hp.log]
    simp only [List.append_assoc]
  have hafter : ∀ x ∈ rest, e.id < x.id := by
    rw [hlog] at hs
    exact (List.pairwise_cons.mp (List.pairwise_append.mp hs).2.1).1
  have hbefore : ∀ x ∈ before ++ w.passed.map Prod.fst ++ missed, x.id < e.id := by
    rw [hlog] at hs
    exact fun x hx => (List.pairwise_append.mp hs).2.2 x hx e List.mem_cons_self
  have hfst : (after w missed e hub ts warnings).passed.map Prod.fst = w.passed.map Prod.fst ++ missed ++ [e] := by
    simp [after, Function.comp_def]
  refine ⟨before, ?_, ?_, hafter, hp.begun⟩
  · rw [hfst]
    change w.log = _
    rw [hlog]
    simp
  · rw [hfst]
    intro x hx
    rcases List.mem_append.mp hx with hx | hx
    · exact le_of_lt (hbefore x (by rw [List.append_assoc]; exact List.mem_append_left _ hx))
    · rcases List.mem_append.mp hx with hx | hx
      · exact le_of_lt (hbefore x (by rw [List.append_assoc]; exact List.mem_append_right _ hx))
      · rw [List.mem_singleton.mp hx]

theorem Reads.pass (h : Reads f cap w i) (hs : Sorted w.log)
    (hrest : w.log.filter (fun x => i < x.id) = missed ++ e :: rest) (hmissed : ∀ x ∈ missed, x ∈ w.log.take w.trimmed)
    (hts : ts.map Reader.Tick.snap = taken f (w.accepted.getLast?.map Reader.Tick.snap) [e.message])
    (hholds : Holds f cap hub (w.accepted ++ ts)) : Reads f cap (after w missed e hub ts warnings) e.id where
  known := by
    refine .inr ⟨e, List.mem_of_mem_filter (p := fun x => decide (i < x.id)) ?_, rfl⟩
    change e ∈ w.log.filter _
    rw [hrest]
    exact List.mem_append_right _ List.mem_cons_self
  placed := by
    obtain ⟨before, hp⟩ := h.placed_after hub ts warnings hs hrest
    exact ⟨before, rest, hp⟩
  missed := by
    intro x hx
    simp only [after, List.mem_append, List.mem_map, Prod.mk.injEq, List.mem_singleton] at hx
    rcases hx with (hx | ⟨y, hy, rfl, -⟩) | ⟨-, hx⟩
    · exact h.missed x hx
    · exact hmissed y hy
    · cases hx
  whole := h.whole
  blockLe := by
    simp only [after, List.length_append]
    have := h.blockLe
    omega
  loaded := by
    obtain ⟨loaded, haccepted, hsnaps, hread⟩ := h.loaded
    have htake : (after w missed e hub ts warnings).passed.take w.block = w.passed.take w.block := by
      rw [after, List.append_assoc]
      exact List.take_append_of_le_length h.blockLe
    refine ⟨loaded, ?_, ?_, ?_⟩
    · change w.accepted ++ ts = loaded ++ (w.sent ++ ts)
      rw [haccepted, List.append_assoc]
    · change _ = taken f none (((after w missed e hub ts warnings).passed.take w.block).map _)
      rw [htake]
      exact hsnaps
    · change ∀ x ∈ (after w missed e hub ts warnings).passed.take w.block, x.2 = true
      rw [htake]
      exact hread
  accepted := by
    have hfilter : (after w missed e hub ts warnings).passed.filter Prod.snd = w.passed.filter Prod.snd ++ [(e, true)] := by
      have hnone : (missed.map fun x => (x, false)).filter Prod.snd = [] := by
        rw [List.filter_eq_nil_iff]
        intro x hx
        obtain ⟨y, -, rfl⟩ := List.mem_map.mp hx
        nofun
      rw [after, List.filter_append, List.filter_append, hnone, List.append_nil]
      rfl
    rw [hfilter, List.map_append, taken_append, ← h.accepted, List.getLast?_map]
    change (w.accepted ++ ts).map _ = _
    rw [List.map_append, hts, Option.or_none]
    rfl
  holds := hholds

theorem ok_after (ts : List (Reader.Tick σ)) (warnings : Nat) (h : Ok f cap w) (hi : w.hub.lastId = some i)
    (hrest : w.log.filter (fun x => i < x.id) = missed ++ e :: rest) (hmissed : ∀ x ∈ missed, x ∈ w.log.take w.trimmed)
    (hts : ts.map Reader.Tick.snap = taken f (w.accepted.getLast?.map Reader.Tick.snap) [e.message])
    (hholds : Holds f cap hub (w.accepted ++ ts)) (hid : hub.lastId = some e.id) (hph : w.phase = .top) :
    Ok f cap (after w missed e hub ts warnings) ∧
      (after w missed e hub ts warnings).log.filter (fun x => e.id < x.id) = rest := by
  have hreads := h.reads i hi
  obtain ⟨before, hp⟩ := hreads.placed_after hub ts warnings h.sorted hrest
  refine ⟨⟨h.sorted, h.positive, h.trimmed, h.compacts, ?_, ?_, fun hnone => absurd (hid.symm.trans hnone) nofun, ?_⟩,
    hp.filter_gt⟩
  · change PhaseOk cap _ w.phase
    rw [hph]
    trivial
  · intro j hj
    obtain rfl := Option.some.inj (hid.symm.trans hj)
    exact hreads.pass h.sorted hrest hmissed hts hholds
  · intro l hl
    obtain ⟨l₀, hl₀, rfl⟩ := List.mem_map.mp hl
    obtain ⟨hjoined, hgot⟩ := h.listeners l₀ hl₀
    constructor
    · exact hjoined.trans (by simp [after])
    · change l₀.got ++ ts = (w.sent ++ ts).drop l₀.joined
      rw [hgot, List.drop_append_of_le_length hjoined]

end Pass

theorem readAll_phase (ph : Phase β) (es : List (Entry β)) :
    World.readAll f cap throws { w with phase := ph } es = World.readAll f cap throws w es := by
  induction es generalizing w with
  | nil => rfl
  | cons e es ih =>
      let next := { w with hub := { w.hub with lastId := some e.id }, passed := w.passed ++ [(e, true)] }
      simp only [World.readAll]
      cases State.judge f { w.hub with lastId := some e.id } e.message with
      | skipped => exact ih (w := next)
      | threw => rfl
      | accepted t =>
          exact ih (w := World.notify throws { next with hub := next.hub.push f cap t, accepted := next.accepted ++ [t] } t)

variable (throws) in
theorem readAll_ok {i : StreamId} {es rest : List (Entry β)} (missed : List (Entry β)) (h : Ok f cap w) (hph : w.phase = .top)
    (hi : w.hub.lastId = some i) (hrest : w.log.filter (fun x => i < x.id) = missed ++ es ++ rest)
    (hmissed : ∀ x ∈ missed, x ∈ w.log.take w.trimmed) (hnone : es = [] → missed = []) :
    Ok f cap (World.readAll f cap throws { w with passed := w.passed ++ missed.map fun e => (e, false) } es) := by
  induction es generalizing w i missed with
  | nil =>
      rw [hnone rfl, World.readAll]
      simp only [List.map_nil, List.append_nil]
      exact ok_move h _ rfl rfl rfl trivial
  | cons e es ih =>
      rw [List.append_assoc, List.cons_append] at hrest
      have hreads := h.reads i hi
      have hmem : e ∈ w.log := by
        apply List.mem_of_mem_filter (p := fun x => decide (i < x.id))
        rw [hrest]
        exact List.mem_append_right _ List.mem_cons_self
      -- the new last id does not matter to how the entry is judged
      have hholds : Holds f cap { w.hub with lastId := some e.id } w.accepted :=
        ⟨hreads.holds.ring, hreads.holds.recent, hreads.holds.increasing, hreads.holds.converts⟩
      rw [World.readAll]
      rcases hholds.judge (h.compacts e hmem) with ⟨hj, ht⟩ | ⟨t, hj, ht, hpush⟩
      · simp only [hj]
        obtain ⟨hok, hnext⟩ := ok_after [] w.warnings h hi hrest hmissed ht.symm
          (by rwa [List.append_nil]) rfl hph
        have hsame := ih [] hok hph rfl hnext nofun fun _ => rfl
        simpa [after] using hsame
      · simp only [hj]
        obtain ⟨hok, hnext⟩ := ok_after [t]
          (w.warnings + (w.listeners.filter fun l => throws l.name t).length) h hi hrest hmissed ht.symm
          hpush rfl hph
        have hsame := ih [] hok hph rfl hnext nofun fun _ => rfl
        simpa [after, World.notify] using hsame

section Load

variable {entries older newer : List (Entry β)} {hub : State σ τ φ} {ts : List (Reader.Tick σ)}

omit [LinearOrder τ] in
theorem placed_loaded (hub : State σ τ φ) (ts : List (Reader.Tick σ)) (hs : Sorted w.log) (hpos : ∀ e ∈ w.log, zeroId < e.id)
    (hlog : w.log = older ++ entries.reverse ++ newer) :
    (∃ before rest, Placed (w.loaded entries hub ts) ((entries.head?.map Entry.id).getD zeroId) before rest) ∧
      (w.loaded entries hub ts).begun ≤ older.length := by
  have hpassed : (w.loaded entries hub ts).passed.map Prod.fst = entries.reverse := by
    simp [World.loaded, Function.comp_def]
  rcases List.eq_nil_or_concat' entries with rfl | ⟨init, first, hconcat⟩
  · have hzero : (w.loaded [] hub ts).begun = 0 := by simp [World.loaded]
    refine ⟨⟨[], w.log, ?_, ?_, hpos, hzero⟩, by omega⟩
    · rw [hpassed]
      rfl
    · rw [hpassed]
      nofun
  · have hsplit : w.log = older ++ first :: (init.reverse ++ newer) := by
      rw [hlog, hconcat, List.reverse_append]
      simp
    have hbegun : (w.loaded entries hub ts).begun = older.length := by
      have hlt : w.log.filter (fun e => e.id < first.id) = older := by
        rw [hsplit] at hs ⊢
        exact hs.filter_lt
      simp only [World.loaded, hconcat, List.getLast?_concat, Option.any_some]
      rw [hlt]
    obtain ⟨newest, more, rfl⟩ := List.exists_cons_of_ne_nil (l := entries) (by simp [hconcat])
    have hcut : w.log = (older ++ more.reverse) ++ newest :: newer := by
      rw [hlog, List.reverse_cons]
      simp
    rw [hcut] at hs
    refine ⟨⟨older, newer, ?_, ?_, ?_, hbegun⟩, hbegun.le⟩
    · rw [hpassed]
      exact hlog
    · rw [hpassed, List.reverse_cons, ← List.append_assoc]
      intro e he
      rcases List.mem_append.mp he with he | he
      · exact le_of_lt ((List.pairwise_append.mp hs).2.2 e he newest List.mem_cons_self)
      · rw [List.mem_singleton.mp he]
        exact le_rfl
    · exact (List.pairwise_cons.mp (List.pairwise_append.mp hs).2.1).1

theorem reads_loaded (h : Ok f cap w) (hlog : w.log = older ++ entries.reverse ++ newer)
    (hwhole : entries.length = cap.val ∨ older.length ≤ w.trimmed)
    (hts : ts.map Reader.Tick.snap = taken f none (entries.reverse.map Entry.message)) (hholds : Holds f cap hub ts) :
    Reads f cap (w.loaded entries hub ts) ((entries.head?.map Entry.id).getD zeroId) := by
  obtain ⟨hplaced, hbegun⟩ := placed_loaded hub ts h.sorted h.positive hlog
  have hflag : ∀ x ∈ (w.loaded entries hub ts).passed, x.2 = true := by
    intro x hx
    obtain ⟨e, -, rfl⟩ := List.mem_map.mp hx
    rfl
  have hmessages : (w.loaded entries hub ts).passed.map (fun x => x.1.message) = entries.reverse.map Entry.message := by
    simp [World.loaded, Function.comp_def]
  refine ⟨?_, hplaced, ?_, ?_, ?_, ⟨ts, (List.append_nil ts).symm, ?_, ?_⟩, ?_, hholds⟩
  · cases entries with
    | nil => exact .inl rfl
    | cons newest more =>
        refine .inr ⟨newest, ?_, rfl⟩
        change newest ∈ w.log
        rw [hlog]
        exact List.mem_append_left _ (List.mem_append_right _ (by simp))
  · intro e he
    exact absurd (hflag _ he) nofun
  · rcases hwhole with hw | hw
    · exact .inl hw
    · exact .inr (hbegun.trans hw)
  · simp [World.loaded]
  · rw [List.take_of_length_le (by simp [World.loaded]), hmessages]
    exact hts
  · exact fun x hx => hflag x (List.mem_of_mem_take hx)
  · rw [List.filter_eq_self.mpr hflag, hmessages]
    exact hts

theorem ok_load (h : Ok f cap w) (hid : w.hub.lastId = none) (hlog : w.log = older ++ entries.reverse ++ newer)
    (hwhole : entries.length = cap.val ∨ older.length ≤ w.trimmed) : Ok f cap (w.load f cap entries) := by
  have hempty : Holds f cap { w.hub with ring := [], recent := [] } [] :=
    ⟨by simp [latest], by simp [latest], .nil, by simp⟩
  have hcompacts : ∀ m ∈ entries.reverse.map Entry.message, Compacts f m := by
    intro m hm
    obtain ⟨e, he, rfl⟩ := List.mem_map.mp hm
    exact h.compacts e (hlog ▸ List.mem_append_left _ (List.mem_append_right _ he))
  obtain ⟨hub, ts, hall, hholds, hts⟩ := hempty.ingestAll hcompacts
  simp only [World.load, hall]
  refine ⟨h.sorted, h.positive, h.trimmed, h.compacts, ?_, ?_, ?_, ?_⟩
  · intro hnil
    cases hnil
  · intro i hi
    obtain rfl := Option.some.inj hi
    have hreads := reads_loaded h hlog hwhole hts hholds
    exact hreads.frame [] (List.append_nil _).symm (by simp) le_rfl rfl rfl rfl rfl rfl rfl rfl
  · intro hnone
    cases hnone
  · intro l hl
    obtain ⟨hjoined, hgot⟩ := h.listeners l hl
    rw [h.idle hid] at hjoined hgot
    refine ⟨hjoined, ?_⟩
    rw [hgot]
    simp [World.loaded, World.toRead]

end Load

theorem ok_resume (h : Ok f cap w) (hr : w.resume f cap throws = some w') : Ok f cap w' := by
  have hphase := h.phase
  rw [World.resume] at hr
  split at hr
  case h_1 entries got hph =>
    rw [hph] at hphase
    obtain ⟨hid, hlen, hgot, older, newer, hlog, hshort⟩ := hphase
    dsimp only at hr
    split at hr
    case isTrue hdone =>
      cases hr
      refine ok_load h hid hlog ?_
      rcases hdone with hdone | hdone
      · exact .inr (hshort hdone)
      · refine .inl (le_antisymm ?_ hdone)
        rw [World.pageCount] at hgot
        rw [List.length_append]
        omega
    case isFalse hmore =>
      cases hr
      rw [not_or, not_le] at hmore
      exact ok_move h w.hub rfl rfl rfl ⟨hid, hmore.2, older, newer, hlog⟩
  case h_2 hph =>
    cases hr
    rw [hph] at hphase
    exact ok_move h w.hub rfl rfl rfl hphase
  case h_3 hph =>
    cases hr
    rw [hph] at hphase
    exact ok_move h _ rfl rfl rfl hphase
  case h_4 first hph =>
    cases hr
    rw [hph] at hphase
    exact ok_move h _ rfl rfl rfl hphase
  case h_5 entries trimmed hph =>
    cases hr
    rw [hph] at hphase
    obtain ⟨hle, i, hi, hrest⟩ := hphase
    have htop : Ok f cap { w with phase := .top } := ok_move h w.hub rfl rfl rfl trivial
    by_cases hnil : entries = []
    · simpa [hnil, World.passTrimmed, World.readAll] using htop
    · obtain ⟨rest, hrest⟩ := hrest hnil
      have hmissed : ∀ x ∈ (w.log.take trimmed).filter (fun e => i < e.id), x ∈ w.log.take w.trimmed := by
        intro x hx
        exact (List.take_sublist_take_left hle).subset (List.mem_of_mem_filter hx)
      have hread := readAll_ok throws _ htop rfl hi hrest hmissed fun h => absurd h hnil
      rw [← readAll_phase .top]
      simpa [hnil, World.passTrimmed, hi] using hread
  case h_6 => cases hr

omit [LinearOrder τ] in
theorem phase_listeners {ph : Phase β} {ls : List (Listener σ)} (h : PhaseOk cap w ph) :
    PhaseOk cap { w with listeners := ls } ph := by
  cases ph with
  | top => trivial
  | paging entries reply => cases reply <;> exact h
  | checking reply => exact h
  | info reply => exact h
  | reading reply =>
      cases reply with
      | none => exact h
      | some reply => exact h

theorem ok_listeners {ls : List (Listener σ)} (h : Ok f cap w)
    (hls : ∀ l ∈ ls, l ∈ w.listeners ∨ l.joined = w.sent.length ∧ l.got = []) :
    Ok f cap { w with listeners := ls } where
  sorted := h.sorted
  positive := h.positive
  trimmed := h.trimmed
  compacts := h.compacts
  phase := phase_listeners h.phase
  reads i hi := (h.reads i hi).frame [] (List.append_nil _).symm nofun le_rfl rfl rfl rfl rfl rfl rfl rfl
  idle := h.idle
  listeners := by
    intro l hl
    rcases hls l hl with hl | ⟨hjoined, hgot⟩
    · exact h.listeners l hl
    · rw [hgot, hjoined, List.drop_length]
      exact ⟨le_rfl, rfl⟩

theorem ok_enter (h : Ok f cap w) (he : w.enter = some w') : Ok f cap w' := by
  rw [World.enter] at he
  split at he
  case h_1 =>
    split_ifs at he with hnone hresync
    · cases he
      refine ok_move h w.hub rfl rfl rfl ⟨Option.isNone_iff_eq_none.mp hnone, cap.pos, w.log, [], ?_⟩
      simp
    · cases he
      exact ok_move h w.hub rfl rfl rfl (mt Option.isNone_iff_eq_none.mpr hnone)
    · cases he
      exact ok_move h _ rfl rfl rfl (mt Option.isNone_iff_eq_none.mpr hnone)
  case h_2 => cases he

theorem ok_step {ev : Event β} (h : Ok f cap w) (hg : Orderly f w ev) (hs : w.step f cap throws ev = some w') :
    Ok f cap w' := by
  cases ev with
  | append e =>
      cases hs
      exact ok_append h hg
  | trim n =>
      rw [World.step] at hs
      split_ifs at hs with hn
      cases hs
      exact ok_trim h hn
  | subscribe name =>
      rw [World.step] at hs
      split_ifs at hs
      cases hs
      refine ok_listeners h fun l hl => ?_
      rcases List.mem_append.mp hl with hl | hl
      · exact .inl hl
      · rw [List.mem_singleton.mp hl]
        exact .inr ⟨rfl, rfl⟩
  | unsubscribe name =>
      cases hs
      exact ok_listeners h fun l hl => .inl (List.mem_of_mem_filter hl)
  | ready => exact ok_enter h hs
  | answer =>
      obtain ⟨ph, hph, rfl⟩ := Option.map_eq_some_iff.mp hs
      exact ok_answer h hph
  | resume => exact ok_resume h hs
  | fail =>
      cases hs
      exact ok_move h _ rfl rfl rfl trivial

theorem ok_run {evs : List (Event β)} (h : Run (World.step f cap throws) (Orderly f) .start evs w) : Ok f cap w :=
  h.invariant ok_start fun _ _ _ hok hg hs => ok_step hok hg hs

end NetWatch.Live.ReaderInvariant
