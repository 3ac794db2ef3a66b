import NetWatch.Live.ReaderInvariant

namespace NetWatch.Live.Turns

open Hub Reader ReaderInvariant Lib.Timeline Lib.Runs

variable {β σ τ φ : Type} [LinearOrder τ]

section Turn

variable (f : Format β σ τ φ) (cap : Capacity) (throws : Nat → Reader.Tick σ → Bool)

/-- What comes next when nothing else happens: Redis answers or `#run` goes on. -/
def move (w : World β σ τ φ) : Event β :=
  match w.phase with
  | .top => .ready
  | .paging _ none => .answer
  | .checking none => .answer
  | .info none => .answer
  | .reading none => .answer
  | _ => .resume

def turn (w : World β σ τ φ) : World β σ τ φ := (w.step f cap throws (move w)).getD w

def holding (log : List (Entry β)) : World β σ τ φ := { World.start with log := log }

def appended (w : World β σ τ φ) (more : List (Entry β)) : World β σ τ φ := { w with log := w.log ++ more }

def newest (log : List (Entry β)) : StreamId := (log.getLast?.map Entry.id).getD zeroId

section Phases

variable {f cap throws} {w : World β σ τ φ} {entries got : List (Entry β)}

theorem turn_top (h : w.phase = .top) :
    turn f cap throws w =
      if w.hub.lastId.isNone then { w with phase := .paging [] none }
      else if w.hub.resync then { w with phase := .checking none }
      else w.toRead := by
  simp only [turn, move, h, World.step, World.enter]
  split_ifs <;> rfl

theorem turn_page (h : w.phase = .paging entries none) :
    turn f cap throws w = { w with phase := .paging entries (some (w.revRange cap entries)) } := by
  simp only [turn, move, h, World.step, World.answer, Option.map_some, Option.getD_some]

theorem turn_paged (h : w.phase = .paging entries (some got)) :
    turn f cap throws w =
      if got.length < World.pageCount cap entries ∨ cap.val ≤ (entries ++ got).length then w.load f cap (entries ++ got)
      else { w with phase := .paging (entries ++ got) none } := by
  simp only [turn, move, h, World.step, World.resume]
  split_ifs <;> rfl

theorem turn_check (h : w.phase = .checking none) :
    turn f cap throws w = { w with phase := .checking (some !w.log.isEmpty) } := by
  simp only [turn, move, h, World.step, World.answer, Option.map_some, Option.getD_some]

theorem turn_checked {exist : Bool} (h : w.phase = .checking (some exist)) :
    turn f cap throws w = if exist then { w with phase := .info none } else w.toRead := by
  cases exist with
  | true => simp [turn, move, h, World.step, World.resume]
  | false => simp [turn, move, h, World.step, World.resume]

theorem turn_info (h : w.phase = .info none) :
    turn f cap throws w = { w with phase := .info (some (w.stream.head?.map Entry.id)) } := by
  simp only [turn, move, h, World.step, World.answer, Option.map_some, Option.getD_some]

theorem turn_informed {first : Option StreamId} (h : w.phase = .info (some first)) :
    turn f cap throws w = World.toRead { w with
      hub := { w.hub with
        pendingGap := w.hub.pendingGap || w.hub.lastId.any fun last => first.any fun id => last < id } } := by
  simp only [turn, move, h, World.step, World.resume, Option.getD_some]

theorem turn_read {last : StreamId} (h : w.phase = .reading none) (hid : w.hub.lastId = some last) :
    turn f cap throws w = { w with phase := .reading (some (w.readAfter last, w.trimmed)) } := by
  simp only [turn, move, h, World.step, World.answer, hid, Option.map_some, Option.getD_some]

theorem turn_reply {trimmed : Nat} (h : w.phase = .reading (some (entries, trimmed))) :
    turn f cap throws w = (w.passTrimmed entries trimmed).readAll f cap throws entries := by
  simp only [turn, move, h, World.step, World.resume, Option.getD_some]

end Phases

end Turn

/-- The same entries for a hub that skips those it cannot compact. -/
def lenient (f : Format β σ τ φ) : Format β σ τ φ :=
  { f with
    decode := fun m => match f.decode m with
      | .broken => .unparsable
      | d => d
    converts := fun _ => true }

/-- Among the snapshots whose time goes forward there are no two, or all of them
have an interval that converts. -/
def Clean (f : Format β σ τ φ) (ms : List β) : Prop :=
  (taken f none ms).length ≤ 1 ∨ ∀ s ∈ taken f none ms, f.converts s = true

variable {f : Format β σ τ φ} {cap : Capacity} {throws : Nat → Reader.Tick σ → Bool} {w : World β σ τ φ}

section Lenient

variable {h : State σ τ φ} {accepted : List (Reader.Tick σ)} {m : β}

omit [LinearOrder τ] in
theorem lenient_compacts : Compacts (lenient f) m := by
  constructor
  · simp only [lenient]
    cases f.decode m <;> simp
  · exact fun _ _ => rfl

omit [LinearOrder τ] in
theorem push_lenient (t : Reader.Tick σ) : h.push (lenient f) cap t = h.push f cap t := rfl

theorem taken_lenient (prev : Option σ) (ms : List β) : taken (lenient f) prev ms = taken f prev ms := by
  induction ms generalizing prev with
  | nil => rfl
  | cons m ms ih =>
      simp only [taken, lenient] at ih ⊢
      cases f.decode m with
      | unparsable => exact ih prev
      | broken => exact ih prev
      | snap s =>
          dsimp only
          rw [ih prev, ih (some s)]
          rfl

theorem Clean.of_append {ms ns : List β} (h : Clean f (ms ++ ns)) : Clean f ms := by
  rw [Clean, taken_append] at h
  rcases h with h | h
  · left
    rw [List.length_append] at h
    omega
  · exact .inr fun s hs => h s (List.mem_append_left _ hs)

theorem Clean.pair {ms ns : List β} {p s : σ} (h : Clean f (ms ++ m :: ns)) (hp : (taken f none ms).getLast? = some p)
    (hd : f.decode m = .snap s) (hlt : f.ts p < f.ts s) : f.converts p = true ∧ f.converts s = true := by
  have htaken : taken f none (ms ++ m :: ns) = taken f none ms ++ s :: taken f (some s) ns := by
    rw [taken_append, hp]
    simp [taken, hd, hlt]
  have hmem := List.mem_of_getLast? hp
  rw [Clean, htaken] at h
  rcases h with h | h
  · have hpos := List.length_pos_of_mem hmem
    rw [List.length_append, List.length_cons] at h
    omega
  · exact ⟨h p (List.mem_append_left _ hmem), h s (List.mem_append_right _ List.mem_cons_self)⟩

/-- What the hub makes of an entry is what the lenient one does, but that it may
throw where that one skips. -/
theorem judge_lenient {ms ns : List β} (hh : Holds (lenient f) cap h accepted)
    (hms : accepted.map Reader.Tick.snap = taken f none ms) (hc : Clean f (ms ++ m :: ns)) :
    h.judge f m = h.judge (lenient f) m ∨ h.judge f m = .threw ∧ h.judge (lenient f) m = .skipped ∧ f.decode m = .broken := by
  simp only [State.judge, lenient]
  cases hd : f.decode m with
  | unparsable => exact .inl rfl
  | broken => exact .inr ⟨rfl, rfl, rfl⟩
  | snap s =>
      left
      dsimp only
      cases hp : h.ring.getLast? with
      | none => rfl
      | some p =>
          dsimp only
          by_cases hle : f.ts s ≤ f.ts p.snap
          · simp [hle]
          · have hlast : (taken f none ms).getLast? = some p.snap := by
              rw [← hms, List.getLast?_map, ← hh.newest, hp]
              rfl
            obtain ⟨hcp, hcs⟩ := hc.pair hlast hd (not_le.mp hle)
            simp [hle, hcp, hcs]

theorem ingestAll_lenient {ms : List β} (before ns : List β) (hh : Holds (lenient f) cap h accepted)
    (hbefore : accepted.map Reader.Tick.snap = taken f none before) (hc : Clean f (before ++ ms ++ ns))
    (hms : ∀ m ∈ ms, f.decode m ≠ .broken) : State.ingestAll f cap h ms = State.ingestAll (lenient f) cap h ms := by
  induction ms generalizing h accepted before with
  | nil => rfl
  | cons m ms ih =>
      obtain ⟨hm, hms⟩ := List.forall_mem_cons.mp hms
      have hsplit : before ++ m :: ms ++ ns = (before ++ [m]) ++ ms ++ ns := by simp
      have hjudge : h.judge f m = h.judge (lenient f) m := by
        have hclean : Clean f (before ++ m :: (ms ++ ns)) := by simpa using hc
        rcases judge_lenient hh hbefore hclean with hj | ⟨-, -, hb⟩
        · exact hj
        · exact absurd hb hm
      have hnext : ∀ ts : List (Reader.Tick σ),
          ts.map Reader.Tick.snap = taken (lenient f) (accepted.getLast?.map Reader.Tick.snap) [m] →
          (accepted ++ ts).map Reader.Tick.snap = taken f none (before ++ [m]) := by
        intro ts hts
        rw [List.map_append, hts, taken_lenient, taken_append, ← hbefore, List.getLast?_map, Option.or_none]
      rw [hsplit] at hc
      rw [State.ingestAll, State.ingestAll, hjudge]
      rcases hh.judge lenient_compacts with ⟨hj, ht⟩ | ⟨t, hj, ht, hpush⟩
      · rw [hj]
        exact ih (before ++ [m]) hh (by simpa using hnext [] ht.symm) hc hms
      · rw [hj]
        have hrest := ih (before ++ [m]) hpush (hnext [t] ht.symm) hc hms
        dsimp only
        rw [← hrest]
        rfl

theorem ingestAll_threw {ms : List β} (hm : m ∈ ms) (hb : f.decode m = .broken) :
    (State.ingestAll f cap h ms).2.2 = true := by
  induction ms generalizing h with
  | nil => cases hm
  | cons x ms ih =>
      rw [State.ingestAll]
      cases hj : h.judge f x with
      | skipped =>
          rcases List.mem_cons.mp hm with rfl | hm
          · simp [State.judge, hb] at hj
          · exact ih hm
      | threw => rfl
      | accepted t =>
          rcases List.mem_cons.mp hm with rfl | hm
          · simp [State.judge, hb] at hj
          · exact ih hm

theorem ingestAll_frame (f : Format β σ τ φ) (cap : Capacity) (h : State σ τ φ) (ms : List β) :
    (State.ingestAll f cap h ms).1.lastId = h.lastId ∧
      (h.pendingGap = false → (State.ingestAll f cap h ms).1.pendingGap = false) := by
  induction ms generalizing h with
  | nil => exact ⟨rfl, id⟩
  | cons m ms ih =>
      rw [State.ingestAll]
      cases h.judge f m with
      | skipped => exact ih h
      | threw => exact ⟨rfl, id⟩
      | accepted t => exact ⟨(ih (h.push f cap t)).1, fun _ => (ih (h.push f cap t)).2 rfl⟩

end Lenient

section Fetch

variable {log entries got : List (Entry β)}

def FetchPhase (cap : Capacity) (log : List (Entry β)) : Phase β → Prop
  | .top => True
  | .paging entries none => entries.reverse <:+ log ∧ entries.length < cap.val
  | .paging entries (some got) =>
      (entries ++ got).reverse <:+ log ∧ entries.length < cap.val ∧ got.length ≤ World.pageCount cap entries ∧
        (got.length < World.pageCount cap entries → (entries ++ got).reverse = log)
  | _ => False

structure Fetching (cap : Capacity) (log : List (Entry β)) (w : World β σ τ φ) : Prop where
  still : w.log = log
  trimmed : w.trimmed = 0
  lastId : w.hub.lastId = none
  calm : w.hub.pendingGap = false
  sent : w.sent = []
  listeners : w.listeners = []
  phase : FetchPhase cap log w.phase

omit [LinearOrder τ] in
theorem fetching_holding : Fetching cap log (holding log : World β σ τ φ) := ⟨rfl, rfl, rfl, rfl, rfl, rfl, trivial⟩

def fetchRank (cap : Capacity) : Phase β → Nat
  | .paging entries none => 2 * (cap.val - entries.length) + 1
  | .paging entries (some _) => 2 * (cap.val - entries.length)
  | _ => 2 * cap.val + 2

omit [LinearOrder τ] in
theorem Fetching.revRange (h : Fetching cap log w) (hs : Sorted log) (hsuffix : entries.reverse <:+ log) :
    (entries ++ w.revRange cap entries).reverse <:+ log ∧
      ((w.revRange cap entries).length < World.pageCount cap entries →
        (entries ++ w.revRange cap entries).reverse = log) := by
  obtain ⟨older, rfl⟩ := hsuffix
  have hupTo : (w.stream.filter fun e => entries.getLast?.all fun oldest => e.id < oldest.id) = older := by
    rw [World.stream, h.trimmed, List.drop_zero, h.still]
    rcases List.eq_nil_or_concat' entries with rfl | ⟨init, oldest, rfl⟩
    · simp
    · rw [List.reverse_append, List.reverse_singleton, List.singleton_append] at hs ⊢
      simp only [List.getLast?_concat, Option.all_some]
      exact hs.filter_lt
  rw [World.revRange, hupTo, List.reverse_append, List.take_reverse, List.reverse_reverse]
  constructor
  · exact ⟨older.take (older.length - World.pageCount cap entries), by rw [← List.append_assoc, List.take_append_drop]⟩
  · intro hshort
    rw [List.length_reverse, List.length_drop] at hshort
    have hzero : older.length - World.pageCount cap entries = 0 := by omega
    rw [hzero, List.drop_zero]

theorem latest_of_suffix {block : List (Entry β)} (hsuffix : block <:+ log) (hle : block.length ≤ cap.val)
    (h : cap.val ≤ block.length ∨ block = log) : block = latest cap.val log := by
  obtain ⟨older, rfl⟩ := hsuffix
  rw [latest, List.length_append]
  rcases h with h | h
  · have hsub : older.length + block.length - cap.val = older.length := by omega
    rw [hsub, List.drop_left]
  · obtain rfl : older = [] := List.self_eq_append_left.mp h
    have hsub : ([] : List (Entry β)).length + block.length - cap.val = 0 := by
      rw [List.length_nil]
      omega
    rw [hsub, List.drop_zero, List.nil_append]

theorem fetching_turn (f : Format β σ τ φ) (throws : Nat → Reader.Tick σ → Bool) (h : Fetching cap log w) (hs : Sorted log) :
    (Fetching cap log (turn f cap throws w) ∧ fetchRank cap (turn f cap throws w).phase < fetchRank cap w.phase) ∨
      ∃ entries, entries.reverse = latest cap.val log ∧ turn f cap throws w = w.load f cap entries := by
  have hphase := h.phase
  have hmove : ∀ {ph : Phase β}, FetchPhase cap log ph → Fetching cap log { w with phase := ph } := fun hph =>
    ⟨h.still, h.trimmed, h.lastId, h.calm, h.sent, h.listeners, hph⟩
  cases hph : w.phase with
  | top =>
      rw [turn_top hph, h.lastId, Option.isNone_none, if_pos rfl]
      exact .inl ⟨hmove ⟨List.nil_suffix, cap.pos⟩, by simp [fetchRank]⟩
  | paging entries reply =>
      rw [hph] at hphase
      cases reply with
      | none =>
          obtain ⟨hsuffix, hlen⟩ := hphase
          obtain ⟨hpage, hshort⟩ := h.revRange hs hsuffix
          rw [turn_page hph]
          refine .inl ⟨hmove ⟨hpage, hlen, ?_, hshort⟩, by simp [fetchRank]⟩
          rw [World.revRange, List.length_take]
          exact Nat.min_le_left _ _
      | some got =>
          obtain ⟨hsuffix, hlen, hgot, hshort⟩ := hphase
          have hcount : World.pageCount cap entries ≤ cap.val - entries.length := Nat.min_le_right _ _
          by_cases hdone : got.length < World.pageCount cap entries ∨ cap.val ≤ (entries ++ got).length
          · refine .inr ⟨entries ++ got, latest_of_suffix hsuffix ?_ ?_, ?_⟩
            · rw [List.length_reverse, List.length_append]
              omega
            · rcases hdone with hdone | hdone
              · exact .inr (hshort hdone)
              · exact .inl (by rwa [List.length_reverse])
            · rw [turn_paged hph, if_pos hdone]
          · rw [turn_paged hph, if_neg hdone]
            rw [not_or, not_lt, not_le] at hdone
            have hpos : 0 < World.pageCount cap entries := by
              rw [World.pageCount, page]
              omega
            refine .inl ⟨hmove ⟨hsuffix, hdone.2⟩, ?_⟩
            simp only [fetchRank, List.length_append] at hdone ⊢
            omega
  | checking reply => rw [hph] at hphase; exact hphase.elim
  | info reply => rw [hph] at hphase; exact hphase.elim
  | reading reply => rw [hph] at hphase; exact hphase.elim

theorem fetching_load (h : Fetching cap log w) {e : Entry β} (he : e ∈ entries) (hb : f.decode e.message = .broken) :
    Fetching cap log (w.load f cap entries) := by
  have hmem : e.message ∈ entries.reverse.map Entry.message := List.mem_map_of_mem (List.mem_reverse.mpr he)
  have hframe := ingestAll_frame f cap { w.hub with ring := [], recent := [] } (entries.reverse.map Entry.message)
  rw [World.load]
  simp only [ingestAll_threw hmem hb, if_true]
  exact ⟨h.still, h.trimmed, hframe.1.trans h.lastId, hframe.2 h.calm, rfl, h.listeners, trivial⟩

/-- With an entry among the newest ones that does not compact, the backfill is
tried for ever. -/
theorem stuck (throws : Nat → Reader.Tick σ → Bool) (hs : Sorted log) {e : Entry β} (he : e ∈ latest cap.val log) (hb : f.decode e.message = .broken) (n : Nat) :
    Fetching cap log ((turn f cap throws)^[n] (holding log)) := by
  induction n with
  | zero => exact fetching_holding
  | succ n ih =>
      rw [Function.iterate_succ_apply']
      rcases fetching_turn f throws ih hs with ⟨hnext, -⟩ | ⟨entries, hentries, hload⟩
      · exact hnext
      · rw [hload]
        refine fetching_load ih (e := e) ?_ hb
        rw [← List.mem_reverse, hentries]
        exact he

end Fetch

section Follow

variable {log es rest : List (Entry β)} {begun : Nat} {i : StreamId}

/-- The hub after its backfill, as far as the lenient one could be there. -/
structure Follow (f : Format β σ τ φ) (cap : Capacity) (log : List (Entry β)) (begun : Nat) (w : World β σ τ φ) : Prop where
  ok : Ok (lenient f) cap w
  still : w.log = log
  trimmed : w.trimmed = 0
  begun : w.begun = begun
  known : w.hub.lastId ≠ none

/-- Nothing was missed, so what was passed is an end of the log up to the last id. -/
theorem Follow.accounts (h : Follow f cap log begun w) (hi : w.hub.lastId = some i) :
    log.drop begun = w.passed.map Prod.fst ++ log.filter (fun e => i < e.id) ∧
      w.accepted.map Reader.Tick.snap = taken f none ((w.passed.map Prod.fst).map Entry.message) := by
  have hreads := h.ok.reads i hi
  obtain ⟨before, rest, hp⟩ := hreads.placed
  have hflags : ∀ x ∈ w.passed, x.2 = true := by
    rintro ⟨e, flag⟩ hx
    cases flag with
    | true => rfl
    | false =>
        have hmissed := hreads.missed e hx
        rw [h.trimmed] at hmissed
        cases hmissed
  constructor
  · rw [← h.still, hp.filter_gt, ← h.begun, hp.begun]
    conv_lhs => rw [hp.log, List.append_assoc, List.drop_left]
  · rw [hreads.accepted, taken_lenient, List.filter_eq_self.mpr hflags, List.map_map]
    rfl

theorem readAll_follow (h : Follow f cap log begun w) (hc : Clean f ((log.drop begun).map Entry.message))
    (hph : w.phase = .top) (hi : w.hub.lastId = some i) (hrest : log.filter (fun e => i < e.id) = es ++ rest) :
    Follow f cap log begun (World.readAll f cap throws w es) := by
  induction es generalizing w i with
  | nil => exact ⟨ok_move h.ok w.hub rfl rfl rfl trivial, h.still, h.trimmed, h.begun, h.known⟩
  | cons e es ih =>
      obtain ⟨hdrop, haccepted⟩ := h.accounts hi
      have hreads := h.ok.reads i hi
      have hholds : Holds (lenient f) cap { w.hub with lastId := some e.id } w.accepted :=
        ⟨hreads.holds.ring, hreads.holds.recent, hreads.holds.increasing, hreads.holds.converts⟩
      have hnext : ∀ (ts : List (Reader.Tick σ)) (warnings : Nat) {hub : State σ τ φ},
          ts.map Reader.Tick.snap = taken (lenient f) (w.accepted.getLast?.map Reader.Tick.snap) [e.message] →
          Holds (lenient f) cap hub (w.accepted ++ ts) → hub.lastId = some e.id →
          Follow f cap log begun (after w [] e hub ts warnings) ∧ log.filter (fun x => e.id < x.id) = es ++ rest := by
        intro ts warnings hub hts hhub hid
        have hstill := h.still
        have hnone : w.log.filter (fun x => i < x.id) = [] ++ e :: (es ++ rest) := by
          rw [hstill]
          exact hrest
        obtain ⟨hok, hlater⟩ := ok_after ts warnings h.ok hi hnone (by simp) hts hhub hid hph
        refine ⟨⟨hok, h.still, h.trimmed, h.begun, ?_⟩, ?_⟩
        · intro hnone
          cases hid.symm.trans hnone
        · rw [← h.still]
          exact hlater
      have hclean : Clean f ((w.passed.map Prod.fst).map Entry.message ++ e.message :: (es ++ rest).map Entry.message) := by
        rw [hdrop, hrest, List.map_append] at hc
        exact hc
      rw [World.readAll]
      rcases judge_lenient hholds haccepted hclean with hj | ⟨hj, hskip, -⟩
      · rcases hholds.judge lenient_compacts with ⟨hl, ht⟩ | ⟨t, hl, ht, hpush⟩
        · rw [hl] at hj
          simp only [hj]
          obtain ⟨hfollow, hlater⟩ := hnext [] w.warnings ht.symm (by rwa [List.append_nil]) rfl
          simpa [after] using ih hfollow hph rfl hlater
        · rw [hl] at hj
          simp only [hj]
          obtain ⟨hfollow, hlater⟩ := hnext [t]
            (w.warnings + (w.listeners.filter fun l => throws l.name t).length) ht.symm hpush rfl
          simpa [after, World.notify, push_lenient] using ih hfollow hph rfl hlater
      · rcases hholds.judge lenient_compacts with ⟨-, ht⟩ | ⟨t, hl, -⟩
        · simp only [hj]
          obtain ⟨hfollow, -⟩ := hnext [] w.warnings ht.symm (by rwa [List.append_nil]) rfl
          have hcaught : Ok (lenient f) cap (after w [] e { w.hub with lastId := some e.id } [] w.warnings).caught :=
            ok_move hfollow.ok _ rfl rfl rfl trivial
          refine ⟨?_, h.still, h.trimmed, h.begun, Option.some_ne_none _⟩
          simpa [after] using hcaught
        · cases hskip.symm.trans hl

theorem readAll_lastId (f : Format β σ τ φ) (cap : Capacity) (throws : Nat → Reader.Tick σ → Bool)
    (w : World β σ τ φ) (e : Entry β) (es : List (Entry β)) :
    ∃ x ∈ e :: es, (World.readAll f cap throws w (e :: es)).hub.lastId = some x.id := by
  induction es generalizing w e with
  | nil =>
      refine ⟨e, List.mem_cons_self, ?_⟩
      rw [World.readAll]
      dsimp only
      split <;> rfl
  | cons x es ih =>
      rw [World.readAll]
      dsimp only
      split
      · obtain ⟨y, hy, hid⟩ := ih _ x
        exact ⟨y, List.mem_cons_of_mem e hy, hid⟩
      · exact ⟨e, List.mem_cons_self, rfl⟩
      · obtain ⟨y, hy, hid⟩ := ih _ x
        exact ⟨y, List.mem_cons_of_mem e hy, hid⟩

def ahead (w : World β σ τ φ) : List (Entry β) := w.log.filter fun e => w.hub.lastId.all fun i => i < e.id

def readRank : Phase β → Nat
  | .reading (some ([], _)) => 7
  | .top => 6
  | .checking none => 5
  | .checking (some _) => 4
  | .info none => 3
  | .info (some _) => 2
  | .reading none => 1
  | _ => 0

theorem follow_move (h : Follow f cap log begun w) (hub : State σ τ φ) {ph : Phase β} (hid : hub.lastId = w.hub.lastId)
    (hring : hub.ring = w.hub.ring) (hrecent : hub.recent = w.hub.recent)
    (hphase : PhaseOk cap { w with hub := hub, phase := ph } ph) :
    Follow f cap log begun { w with hub := hub, phase := ph } :=
  ⟨ok_move h.ok hub hid hring hrecent hphase, h.still, h.trimmed, h.begun, fun hnone => h.known (hid.symm.trans hnone)⟩

/-- A turn takes up entries, or brings the hub nearer to a reply with the entries
ahead. -/
structure Nearer (f : Format β σ τ φ) (cap : Capacity) (log : List (Entry β)) (begun : Nat) (w w' : World β σ τ φ) : Prop where
  follow : Follow f cap log begun w'
  progress : (w'.hub.lastId = w.hub.lastId ∧ (ahead w ≠ [] → readRank w'.phase < readRank w.phase)) ∨
    ∃ x ∈ ahead w, w'.hub.lastId = some x.id

theorem follow_nearer (h : Follow f cap log begun w) (hub : State σ τ φ) {ph : Phase β} (hid : hub.lastId = w.hub.lastId)
    (hring : hub.ring = w.hub.ring) (hrecent : hub.recent = w.hub.recent)
    (hphase : PhaseOk cap { w with hub := hub, phase := ph } ph) (hrank : readRank ph < readRank w.phase) :
    Nearer f cap log begun w { w with hub := hub, phase := ph } :=
  ⟨follow_move h hub hid hring hrecent hphase, .inl ⟨hid, fun _ => hrank⟩⟩

theorem read_nearer (h : Follow f cap log begun w) (hph : w.phase = .reading none) :
    Nearer f cap log begun w (turn f cap throws w) := by
  obtain ⟨i, hi⟩ := Option.ne_none_iff_exists'.mp h.known
  have hok : Ok (lenient f) cap { w with phase := .reading (some (w.readAfter i, w.trimmed)) } :=
    ok_answer h.ok (by simp [World.answer, hph, hi])
  rw [turn_read hph hi]
  refine ⟨⟨hok, h.still, h.trimmed, h.begun, h.known⟩, .inl ⟨rfl, fun hahead => ?_⟩⟩
  have hne : w.readAfter i ≠ [] := by
    rw [World.readAfter, World.stream, h.trimmed, List.drop_zero, ne_eq, List.take_eq_nil_iff, not_or]
    exact ⟨by decide, by simpa [ahead, hi] using hahead⟩
  obtain ⟨e, es, hes⟩ := List.exists_cons_of_ne_nil hne
  simp [readRank, hes, hph]

theorem reply_nearer {trimmed : Nat} (h : Follow f cap log begun w) (hc : Clean f ((log.drop begun).map Entry.message))
    (hph : w.phase = .reading (some (es, trimmed))) : Nearer f cap log begun w (turn f cap throws w) := by
  have hphase := h.ok.phase
  rw [hph] at hphase
  obtain ⟨hle, i, hi, hreply⟩ := hphase
  obtain rfl : trimmed = 0 := Nat.le_zero.mp (h.trimmed ▸ hle)
  have hpass : w.passTrimmed es 0 = w := by simp [World.passTrimmed]
  have htop : Follow f cap log begun { w with phase := .top } := follow_move h w.hub rfl rfl rfl trivial
  rw [turn_reply hph, hpass, ← readAll_phase .top]
  cases es with
  | nil => exact ⟨htop, .inl ⟨rfl, fun _ => by simp [World.readAll, readRank, hph]⟩⟩
  | cons e es =>
      obtain ⟨rest, hrest⟩ := hreply (List.cons_ne_nil e es)
      rw [List.take_zero, List.filter_nil, List.nil_append, h.still] at hrest
      obtain ⟨x, hx, hid⟩ := readAll_lastId f cap throws { w with phase := .top } e es
      refine ⟨readAll_follow htop hc rfl hi hrest, .inr ⟨x, ?_, hid⟩⟩
      have hahead : ahead w = log.filter fun e => i < e.id := by simp [ahead, hi, h.still]
      rw [hahead, hrest]
      exact List.mem_append_left _ hx

theorem follow_turn (throws : Nat → Reader.Tick σ → Bool) (h : Follow f cap log begun w) (hc : Clean f ((log.drop begun).map Entry.message)) :
    Nearer f cap log begun w (turn f cap throws w) := by
  have hphase := h.ok.phase
  have htoRead : readRank (.reading none : Phase β) < readRank w.phase → Nearer f cap log begun w w.toRead :=
    follow_nearer h _ rfl rfl rfl h.known
  cases hph : w.phase with
  | top =>
      rw [hph] at htoRead
      have hnone : ¬ w.hub.lastId.isNone = true := fun hnone => h.known (Option.isNone_iff_eq_none.mp hnone)
      rw [turn_top hph, if_neg hnone]
      split_ifs
      · exact follow_nearer h w.hub rfl rfl rfl h.known (by simp [readRank, hph])
      · exact htoRead (by simp [readRank])
  | paging entries reply =>
      rw [hph] at hphase
      cases reply with
      | none => exact absurd hphase.1 h.known
      | some got => exact absurd hphase.1 h.known
  | checking reply =>
      rw [hph] at htoRead
      cases reply with
      | none =>
          rw [turn_check hph]
          exact follow_nearer h w.hub rfl rfl rfl h.known (by simp [readRank, hph])
      | some exist =>
          rw [turn_checked hph]
          split_ifs
          · exact follow_nearer h w.hub rfl rfl rfl h.known (by simp [readRank, hph])
          · exact htoRead (by simp [readRank])
  | info reply =>
      cases reply with
      | none =>
          rw [turn_info hph]
          exact follow_nearer h w.hub rfl rfl rfl h.known (by simp [readRank, hph])
      | some first =>
          rw [turn_informed hph]
          exact follow_nearer h _ rfl rfl rfl h.known (by simp [readRank, hph])
  | reading reply =>
      cases reply with
      | none => exact read_nearer h hph
      | some got => exact reply_nearer h hc hph

theorem Follow.known_newest (h : Follow f cap log begun w) (hahead : ahead w = []) : w.hub.lastId = some (newest log) := by
  obtain ⟨i, hi⟩ := Option.ne_none_iff_exists'.mp h.known
  have hreads := h.ok.reads i hi
  have hle : ∀ e ∈ log, e.id ≤ i := by
    intro e he
    have hnot := List.filter_eq_nil_iff.mp hahead e (h.still ▸ he)
    simpa [hi] using hnot
  have hsorted := h.ok.sorted
  have hpos := h.ok.positive
  have hknown := hreads.known
  rw [h.still] at hsorted hpos hknown
  rw [hi, newest]
  rcases List.eq_nil_or_concat' log with rfl | ⟨init, last, rfl⟩
  · rcases hknown with rfl | ⟨x, hx, -⟩
    · rfl
    · cases hx
  · have hlast := hle last (by simp)
    rw [List.getLast?_concat, Option.map_some, Option.getD_some]
    congr 1
    refine le_antisymm ?_ hlast
    rcases hknown with rfl | ⟨x, hx, rfl⟩
    · exact le_of_lt (hpos last (by simp))
    · rcases List.mem_append.mp hx with hx | hx
      · exact le_of_lt ((List.pairwise_append.mp hsorted).2.2 x hx last (by simp))
      · rw [List.mem_singleton.mp hx]

theorem ahead_turn (throws : Nat → Reader.Tick σ → Bool) (h : Follow f cap log begun w) (hc : Clean f ((log.drop begun).map Entry.message)) :
    (ahead (turn f cap throws w)).length < (ahead w).length ∨
      ahead (turn f cap throws w) = ahead w ∧
        (ahead w ≠ [] → readRank (turn f cap throws w).phase < readRank w.phase) := by
  obtain ⟨hfollow, hmoved⟩ := follow_turn throws h hc
  rcases hmoved with ⟨hsame, hrank⟩ | ⟨x, hx, hid⟩
  · refine .inr ⟨?_, hrank⟩
    rw [ahead, ahead, hsame, hfollow.still, h.still]
  · left
    obtain ⟨i, hi⟩ := Option.ne_none_iff_exists'.mp h.known
    have hbefore : ahead w = log.filter fun e => i < e.id := by simp [ahead, hi, h.still]
    have hafter : ahead (turn f cap throws w) = log.filter fun e => x.id < e.id := by simp [ahead, hid, hfollow.still]
    have hix : i < x.id := by
      rw [hbefore, List.mem_filter] at hx
      simpa using hx.2
    have hsub : List.Sublist (ahead (turn f cap throws w)) (ahead w) := by
      rw [hbefore, hafter]
      refine List.monotone_filter_right log fun e he => ?_
      simp only [decide_eq_true_eq] at he ⊢
      exact lt_trans hix he
    refine lt_of_le_of_ne hsub.length_le fun hlen => ?_
    rw [← hsub.eq_of_length hlen, hafter, List.mem_filter] at hx
    exact absurd hx.2 (by simp)

theorem follow_reaches (throws : Nat → Reader.Tick σ → Bool) (h : Follow f cap log begun w) (hc : Clean f ((log.drop begun).map Entry.message)) :
    ∃ N, ∀ n, N ≤ n → Follow f cap log begun ((turn f cap throws)^[n] w) ∧
      ahead ((turn f cap throws)^[n] w) = [] := by
  refine eventually_of_descent (I := Follow f cap log begun) (D := fun w => ahead w = []) (turn f cap throws)
    (fun w => 8 * (ahead w).length + readRank w.phase) (fun w hw => (follow_turn throws hw hc).follow) ?_ ?_ h
  · intro w hw hnil
    rcases ahead_turn throws hw hc with hlt | ⟨hsame, -⟩
    · rw [hnil] at hlt
      exact absurd hlt (Nat.not_lt_zero _)
    · rw [hsame, hnil]
  · intro w hw hne _
    have hbound : readRank (turn f cap throws w).phase < 8 := by
      rw [readRank.eq_def]
      split <;> decide
    rcases ahead_turn throws hw hc with hlt | ⟨hsame, hrank⟩
    · omega
    · have := hrank hne
      rw [hsame]
      omega

end Follow

end NetWatch.Live.Turns
