import NetWatch.Live.Turns

namespace NetWatch.Live.Recovery

open Hub Reader ReaderInvariant Turns Lib.Timeline Lib.Runs

variable {β σ τ φ : Type} [LinearOrder τ] {f : Format β σ τ φ} {cap : Capacity} {throws : Nat → Reader.Tick σ → Bool}
  {w : World β σ τ φ} {log old more entries : List (Entry β)}

theorem le_newest (hs : Sorted log) {e : Entry β} (he : e ∈ log) : e.id ≤ newest log := by
  obtain ⟨init, last, rfl⟩ : ∃ init last, log = init ++ [last] := by
    rcases List.eq_nil_or_concat' log with rfl | hex
    · cases he
    · exact hex
  rw [newest, List.getLast?_concat, Option.map_some, Option.getD_some]
  rcases List.mem_append.mp he with he | he
  · exact le_of_lt ((List.pairwise_append.mp hs).2.2 e he last (by simp))
  · rw [List.mem_singleton.mp he]

section Load

omit [LinearOrder τ] in
theorem begun_loaded (hs : Sorted log) (hlog : w.log = log) (hentries : entries.reverse = latest cap.val log)
    (hub : State σ τ φ) (ts : List (Reader.Tick σ)) : (w.loaded entries hub ts).begun = log.length - cap.val := by
  have hcap := cap.pos
  have hsplit : log = log.take (log.length - cap.val) ++ entries.reverse := by
    rw [hentries, latest, List.take_append_drop]
  rcases List.eq_nil_or_concat' entries with rfl | ⟨init, first, rfl⟩
  · have hlen := congrArg List.length hsplit
    simp only [World.loaded, List.reverse_nil, List.append_nil, List.length_take, List.getLast?_nil, Option.any_none,
      List.filter_false, List.length_nil] at hlen ⊢
    omega
  · rw [List.reverse_append, List.reverse_singleton, List.singleton_append] at hsplit
    have hfilter : (log.filter fun e => e.id < first.id) = log.take (log.length - cap.val) := by
      conv_lhs => rw [hsplit]
      rw [hsplit] at hs
      exact hs.filter_lt
    simp only [World.loaded, List.getLast?_concat, Option.any_some, hlog]
    rw [hfilter, List.length_take]
    omega

theorem load_follow (h : Fetching cap log w) (hs : Sorted log) (hpos : ∀ e ∈ log, zeroId < e.id)
    (hentries : entries.reverse = latest cap.val log) (hb : ∀ e ∈ latest cap.val log, f.decode e.message ≠ .broken)
    (hc : Clean f ((latest cap.val log).map Entry.message)) :
    Follow f cap log (log.length - cap.val) (w.load f cap entries) ∧ ahead (w.load f cap entries) = [] := by
  have htop : Ok (lenient f) cap { w with phase := .top } := by
    refine ⟨h.still ▸ hs, h.still ▸ hpos, h.trimmed ▸ Nat.zero_le _, fun _ _ => lenient_compacts, trivial, ?_, fun _ => h.sent, ?_⟩
    · intro i hi
      cases h.lastId.symm.trans hi
    · intro l hl
      change l ∈ w.listeners at hl
      rw [h.listeners] at hl
      cases hl
  have hempty : Holds (lenient f) cap { w.hub with ring := [], recent := [] } [] :=
    ⟨by simp [latest], by simp [latest], .nil, by simp⟩
  have hsame : State.ingestAll f cap { w.hub with ring := [], recent := [] } (entries.reverse.map Entry.message) =
      State.ingestAll (lenient f) cap { w.hub with ring := [], recent := [] } (entries.reverse.map Entry.message) := by
    refine ingestAll_lenient [] [] hempty rfl ?_ ?_
    · rw [hentries]
      simpa using hc
    · rw [hentries]
      intro m hm
      obtain ⟨e, he, rfl⟩ := List.mem_map.mp hm
      exact hb e he
  obtain ⟨hub, ts, hall, -, -⟩ :=
    hempty.ingestAll fun m (_ : m ∈ entries.reverse.map Entry.message) => lenient_compacts
  have hnewest : (entries.head?.map Entry.id).getD zeroId = newest log := by
    rw [newest, ← getLast?_latest cap.pos log, ← hentries, List.getLast?_reverse]
  have hload : w.load f cap entries = (w.loaded entries { hub with lastId := some (newest log) } ts).toRead := by
    simp only [World.load, hsame, hall, hnewest]
    rfl
  have hok : Ok (lenient f) cap (w.load f cap entries) := by
    have hstill : w.log = log.take (log.length - cap.val) ++ entries.reverse ++ [] := by
      rw [h.still, hentries, latest, List.append_nil, List.take_append_drop]
    have hwhole : entries.length = cap.val ∨ (log.take (log.length - cap.val)).length ≤ w.trimmed := by
      rw [← List.length_reverse, hentries, latest, List.length_drop, List.length_take, h.trimmed]
      omega
    have hlenient := ok_load htop h.lastId hstill hwhole
    simp only [World.load, hall, hnewest] at hlenient
    rw [hload]
    exact hlenient
  refine ⟨⟨hok, ?_, ?_, ?_, ?_⟩, ?_⟩
  · rw [hload]
    exact h.still
  · rw [hload]
    exact h.trimmed
  · rw [hload]
    exact begun_loaded hs h.still hentries hub ts
  · rw [hload]
    exact Option.some_ne_none _
  · rw [hload, ahead, List.filter_eq_nil_iff]
    intro e he
    have hle : e.id ≤ newest log := le_newest hs (h.still ▸ he)
    simpa [World.toRead, World.loaded] using hle

theorem backfill_reached (throws : Nat → Reader.Tick σ → Bool) (hs : Sorted log) (hpos : ∀ e ∈ log, zeroId < e.id)
    (hb : ∀ e ∈ latest cap.val log, f.decode e.message ≠ .broken) (hc : Clean f ((latest cap.val log).map Entry.message)) :
    ∃ N, ∀ n, N ≤ n → Follow f cap log (log.length - cap.val) ((turn f cap throws)^[n] (holding log)) ∧
      ahead ((turn f cap throws)^[n] (holding log)) = [] := by
  have hstay : ∀ w, Follow f cap log (log.length - cap.val) w ∧ ahead w = [] →
      Follow f cap log (log.length - cap.val) (turn f cap throws w) ∧ ahead (turn f cap throws w) = [] := by
    intro w hw
    refine ⟨(follow_turn throws hw.1 hc).follow, ?_⟩
    rcases ahead_turn throws hw.1 hc with hlt | ⟨hsame, -⟩
    · rw [hw.2] at hlt
      exact absurd hlt (Nat.not_lt_zero _)
    · rw [hsame, hw.2]
  have hgoes : ∀ w, Fetching cap log w ∨ Follow f cap log (log.length - cap.val) w ∧ ahead w = [] →
      Fetching cap log (turn f cap throws w) ∨
        Follow f cap log (log.length - cap.val) (turn f cap throws w) ∧ ahead (turn f cap throws w) = [] := by
    rintro w (hw | hw)
    · rcases fetching_turn f throws hw hs with ⟨hnext, -⟩ | ⟨entries, hentries, hload⟩
      · exact .inl hnext
      · rw [hload]
        exact .inr (load_follow hw hs hpos hentries hb hc)
    · exact .inr (hstay w hw)
  have hnearer : ∀ w, Fetching cap log w ∨ Follow f cap log (log.length - cap.val) w ∧ ahead w = [] →
      ¬ (Follow f cap log (log.length - cap.val) w ∧ ahead w = []) →
      ¬ (Follow f cap log (log.length - cap.val) (turn f cap throws w) ∧ ahead (turn f cap throws w) = []) →
      fetchRank cap (turn f cap throws w).phase < fetchRank cap w.phase := by
    rintro w (hw | hw) hnot hnext
    · rcases fetching_turn f throws hw hs with ⟨-, hlt⟩ | ⟨entries, hentries, hload⟩
      · exact hlt
      · rw [hload] at hnext
        exact absurd (load_follow hw hs hpos hentries hb hc) hnext
    · exact absurd hw hnot
  obtain ⟨N, hN⟩ := eventually_of_descent (turn f cap throws) (fun w => fetchRank cap w.phase) hgoes
    (fun w _ hw => hstay w hw) hnearer (.inl fetching_holding)
  exact ⟨N, fun n hn => (hN n hn).2⟩

end Load

theorem ok_appended (h : Ok (lenient f) cap w) (hs : Sorted (w.log ++ more)) (hpos : ∀ e ∈ more, zeroId < e.id) :
    Ok (lenient f) cap (appended w more) := by
  induction more generalizing w with
  | nil => simpa [appended] using h
  | cons e more ih =>
      obtain ⟨he, hmore⟩ := List.forall_mem_cons.mp hpos
      have hnewer : ∀ x ∈ w.log, x.id < e.id := fun x hx => (List.pairwise_append.mp hs).2.2 x hx e List.mem_cons_self
      have hnext := ih (ok_append h ⟨hnewer, he, lenient_compacts⟩) (by simpa using hs) hmore
      simpa [appended] using hnext

/-- What the live hub is for: it comes to the end of its backfill and, when entries
follow, to the newest of them, and takes up all snapshots among them whose time goes
forward. -/
def KeepsUp (f : Format β σ τ φ) (cap : Capacity) (throws : Nat → Reader.Tick σ → Bool) (old more : List (Entry β)) : Prop :=
  ∃ N, ∀ n, N ≤ n →
    ((turn f cap throws)^[n] (holding old)).hub.lastId = some (newest old) ∧
    ∃ M, ∀ m, M ≤ m →
      let w := (turn f cap throws)^[m] (appended ((turn f cap throws)^[n] (holding old)) more)
      w.hub.lastId = some (newest (old ++ more)) ∧
        w.accepted.map Reader.Tick.snap = taken f none ((latest cap.val old ++ more).map Entry.message)

theorem keepsUp_of_clean (throws : Nat → Reader.Tick σ → Bool) (hs : Sorted (old ++ more))
    (hpos : ∀ e ∈ old ++ more, zeroId < e.id) (hb : ∀ e ∈ latest cap.val old, f.decode e.message ≠ .broken)
    (hc : Clean f ((latest cap.val old ++ more).map Entry.message)) : KeepsUp f cap throws old more := by
  have hold := (List.pairwise_append.mp hs).1
  have hdrop : (old ++ more).drop (old.length - cap.val) = latest cap.val old ++ more :=
    List.drop_append_of_le_length (Nat.sub_le _ _)
  have hcold : Clean f ((latest cap.val old).map Entry.message) := by
    rw [List.map_append] at hc
    exact hc.of_append
  obtain ⟨N, hN⟩ := backfill_reached throws hold (fun e he => hpos e (List.mem_append_left _ he)) hb hcold
  refine ⟨N, fun n hn => ?_⟩
  obtain ⟨hfollow, hahead⟩ := hN n hn
  refine ⟨hfollow.known_newest hahead, ?_⟩
  generalize (turn f cap throws)^[n] (holding old) = w at hfollow
  have happended : Follow f cap (old ++ more) (old.length - cap.val) (appended w more) := by
    refine ⟨ok_appended hfollow.ok (hfollow.still ▸ hs) fun e he => hpos e (List.mem_append_right _ he), ?_, hfollow.trimmed,
      hfollow.begun, hfollow.known⟩
    rw [appended, hfollow.still]
  obtain ⟨M, hM⟩ := follow_reaches throws happended (hdrop ▸ hc)
  refine ⟨M, fun m hm => ?_⟩
  obtain ⟨hend, hnil⟩ := hM m hm
  have hlast := hend.known_newest hnil
  obtain ⟨hpassed, haccepted⟩ := hend.accounts hlast
  have hnone : (old ++ more).filter (fun e => newest (old ++ more) < e.id) = [] := by
    rw [List.filter_eq_nil_iff]
    intro e he
    simpa using le_newest hs he
  rw [hdrop, hnone, List.append_nil] at hpassed
  refine ⟨hlast, ?_⟩
  rw [haccepted, hpassed]

section Plain

variable {h : State σ τ φ} {accepted : List (Reader.Tick σ)}

/-- Of the accepted ticks there are no two, or all have intervals that convert. -/
def Few (f : Format β σ τ φ) (accepted : List (Reader.Tick σ)) : Prop :=
  accepted.length ≤ 1 ∨ ∀ t ∈ accepted, f.converts t.snap = true

theorem Few.push (hfew : Few f accepted) (hlast : h.ring.getLast? = accepted.getLast?) (hcalm : h.pendingGap = false)
    {m : β} {t : Reader.Tick σ} (hj : h.judge f m = .accepted t) : Few f (accepted ++ [t]) := by
  rw [State.judge, hlast] at hj
  cases hd : f.decode m with
  | unparsable => simp [hd] at hj
  | broken => simp [hd] at hj
  | snap s =>
      rw [hd] at hj
      dsimp only at hj
      cases hp : accepted.getLast? with
      | none =>
          rw [List.getLast?_eq_none_iff.mp hp]
          exact .inl le_rfl
      | some p =>
          rw [hp] at hj
          dsimp only at hj
          split_ifs at hj with hle hgap hboth
          · rw [hcalm] at hgap
            cases hgap
          · cases hj
            rw [Bool.and_eq_true] at hboth
            right
            intro u hu
            rcases List.mem_append.mp hu with hu | hu
            · rcases hfew with hlen | hall
              · obtain ⟨init, rfl⟩ := List.getLast?_eq_some_iff.mp hp
                have hnil : init = [] := by
                  rw [List.length_append, List.length_singleton] at hlen
                  exact List.eq_nil_of_length_eq_zero (by omega)
                rw [hnil, List.nil_append, List.mem_singleton] at hu
                rw [hu]
                exact hboth.2
              · exact hall u hu
            · rw [List.mem_singleton.mp hu]
              exact hboth.1

omit [LinearOrder τ] in
theorem push_last (f : Format β σ τ φ) (cap : Capacity) (h : State σ τ φ) (t : Reader.Tick σ) : (h.push f cap t).ring.getLast? = (accepted ++ [t]).getLast? := by
  rw [State.push, getLast?_latest cap.pos, List.getLast?_concat, List.getLast?_concat]

theorem Few.ingestAll (cap : Capacity) (ms : List β) (hfew : Few f accepted) (hlast : h.ring.getLast? = accepted.getLast?)
    (hcalm : h.pendingGap = false) :
    Few f (accepted ++ (State.ingestAll f cap h ms).2.1) ∧
      (State.ingestAll f cap h ms).1.ring.getLast? = (accepted ++ (State.ingestAll f cap h ms).2.1).getLast? := by
  induction ms generalizing h accepted with
  | nil =>
      rw [State.ingestAll, List.append_nil]
      exact ⟨hfew, hlast⟩
  | cons m ms ih =>
      rw [State.ingestAll]
      cases hj : h.judge f m with
      | skipped => exact ih hfew hlast hcalm
      | threw =>
          dsimp only
          rw [List.append_nil]
          exact ⟨hfew, hlast⟩
      | accepted t =>
          have hnext := ih (hfew.push hlast hcalm hj) (push_last f cap h t) rfl
          rwa [List.append_assoc] at hnext

def Seen (w : World β σ τ φ) : Prop := ∀ i, w.hub.lastId = some i → ∃ e, w.log.head? = some e ∧ e.id ≤ i

def PlainPhase (w : World β σ τ φ) : Phase β → Prop
  | .top => True
  | .paging _ _ => w.hub.lastId = none
  | .checking _ => Seen w
  | .info reply => Seen w ∧ ∀ id, reply = some (some id) → ∃ e, w.log.head? = some e ∧ e.id = id
  | .reading reply => ∀ es n, reply = some (es, n) → ∀ e ∈ es, e ∈ w.log

structure Plain (f : Format β σ τ φ) (log : List (Entry β)) (w : World β σ τ φ) : Prop where
  still : w.log = log
  sorted : Sorted w.log
  trimmed : w.trimmed = 0
  calm : w.hub.pendingGap = false
  resync : w.hub.resync = true → Seen w
  phase : PlainPhase w w.phase
  last : w.hub.ring.getLast? = w.accepted.getLast?
  few : Few f w.accepted

omit [LinearOrder τ] in
theorem plain_move (h : Plain f log w) (hub : State σ τ φ) {ph : Phase β} (hring : hub.ring = w.hub.ring)
    (hcalm : hub.pendingGap = false) (hresync : hub.resync = true → Seen { w with hub := hub })
    (hphase : PlainPhase { w with hub := hub } ph) : Plain f log { w with hub := hub, phase := ph } where
  still := h.still
  sorted := h.sorted
  trimmed := h.trimmed
  calm := hcalm
  resync := hresync
  phase := by cases ph <;> exact hphase
  last := by
    rw [← h.last]
    exact congrArg List.getLast? hring
  few := h.few

omit [LinearOrder τ] in
theorem Plain.seen (h : Plain f log w) {e : Entry β} (he : e ∈ w.log) : ∃ x, w.log.head? = some x ∧ x.id ≤ e.id := by
  have hsorted := h.sorted
  cases hlog : w.log with
  | nil =>
      rw [hlog] at he
      cases he
  | cons x xs =>
      rw [hlog] at he hsorted
      refine ⟨x, rfl, ?_⟩
      rcases List.mem_cons.mp he with rfl | he
      · exact le_rfl
      · exact le_of_lt ((List.pairwise_cons.mp hsorted).1 e he)

theorem plain_load (h : Plain f log w) (hid : w.hub.lastId = none) (entries : List (Entry β)) :
    Plain f log (w.load f cap entries) := by
  have hempty : Few f ([] : List (Reader.Tick σ)) := .inl (Nat.zero_le _)
  have hall := hempty.ingestAll (h := { w.hub with ring := [], recent := [] }) cap (entries.reverse.map Entry.message) rfl h.calm
  have hframe := ingestAll_frame f cap { w.hub with ring := [], recent := [] } (entries.reverse.map Entry.message)
  rw [List.nil_append] at hall
  simp only [World.load]
  split
  · refine ⟨h.still, h.sorted, h.trimmed, hframe.2 h.calm, fun _ i hi => ?_, trivial, hall.2, hall.1⟩
    cases (hframe.1.trans hid).symm.trans hi
  · refine ⟨h.still, h.sorted, h.trimmed, hframe.2 h.calm, fun hresync => ?_, fun es n hnil => ?_, hall.2, hall.1⟩
    · cases hresync
    · cases hnil

theorem plain_readAll (throws : Nat → Reader.Tick σ → Bool) {es : List (Entry β)} (h : Plain f log w) (hes : ∀ e ∈ es, e ∈ w.log) :
    Plain f log (World.readAll f cap throws w es) := by
  induction es generalizing w with
  | nil => exact plain_move h w.hub rfl h.calm h.resync trivial
  | cons e es ih =>
      obtain ⟨he, hes⟩ := List.forall_mem_cons.mp hes
      have hseen : Seen { w with hub := { w.hub with lastId := some e.id } } := by
        intro i hi
        obtain rfl := Option.some.inj hi
        exact h.seen he
      have hread : Plain f log { w with
          hub := { w.hub with lastId := some e.id }, phase := .top, passed := w.passed ++ [(e, true)] } :=
        ⟨h.still, h.sorted, h.trimmed, h.calm, fun _ => hseen, trivial, h.last, h.few⟩
      rw [← readAll_phase .top, World.readAll]
      cases hj : State.judge f { w.hub with lastId := some e.id } e.message with
      | skipped => exact ih hread hes
      | threw => exact ⟨h.still, h.sorted, h.trimmed, h.calm, fun _ => hseen, trivial, h.last, h.few⟩
      | accepted t =>
          refine ih ?_ hes
          exact ⟨h.still, h.sorted, h.trimmed, rfl, fun _ => hseen, trivial, push_last f cap _ t, h.few.push h.last h.calm hj⟩

theorem plain_informed {first : Option StreamId} (h : Plain f log w) (hph : w.phase = .info (some first)) :
    Plain f log (turn f cap throws w) := by
  have hphase := h.phase
  rw [hph] at hphase
  rw [turn_informed hph]
  refine plain_move h _ rfl ?_ nofun nofun
  -- nothing was trimmed, so the first entry of the stream is not past the last id
  have hpast : (w.hub.lastId.any fun last => first.any fun id => last < id) = false := by
    cases hi : w.hub.lastId with
    | none => rfl
    | some last =>
        cases first with
        | none => rfl
        | some id =>
            obtain ⟨x, hx, hle⟩ := hphase.1 last hi
            obtain ⟨y, hy, rfl⟩ := hphase.2 id rfl
            obtain rfl := Option.some.inj (hx.symm.trans hy)
            simpa using hle
  simp only [h.calm, hpast, Bool.or_self]

theorem plain_reply {es : List (Entry β)} {n : Nat} (h : Plain f log w) (hph : w.phase = .reading (some (es, n))) :
    Plain f log (turn f cap throws w) := by
  have hphase := h.phase
  rw [hph] at hphase
  have hpass : Plain f log (w.passTrimmed es n) := by
    rw [World.passTrimmed]
    split
    · exact h
    · exact ⟨h.still, h.sorted, h.trimmed, h.calm, h.resync, by cases w; exact h.phase, h.last, h.few⟩
  have hlog : (w.passTrimmed es n).log = w.log := by
    rw [World.passTrimmed]
    split <;> rfl
  rw [turn_reply hph]
  exact plain_readAll throws hpass fun e he => hlog ▸ hphase es n rfl e he

theorem plain_turn (h : Plain f log w) : Plain f log (turn f cap throws w) := by
  have hphase := h.phase
  have hsame : ∀ {ph : Phase β}, PlainPhase w ph → Plain f log { w with phase := ph } := fun hph =>
    plain_move h w.hub rfl h.calm h.resync (by cases w; exact hph)
  have hread : Plain f log w.toRead := plain_move h _ rfl h.calm nofun nofun
  cases hph : w.phase with
  | top =>
      rw [turn_top hph]
      split_ifs with hnone hresync
      · exact hsame (Option.isNone_iff_eq_none.mp hnone)
      · exact hsame (h.resync hresync)
      · exact hread
  | paging entries reply =>
      rw [hph] at hphase
      cases reply with
      | none =>
          rw [turn_page hph]
          exact hsame hphase
      | some got =>
          rw [turn_paged hph]
          split_ifs
          · exact plain_load h hphase _
          · exact hsame hphase
  | checking reply =>
      rw [hph] at hphase
      cases reply with
      | none =>
          rw [turn_check hph]
          exact hsame hphase
      | some exist =>
          rw [turn_checked hph]
          split_ifs
          · exact hsame ⟨hphase, nofun⟩
          · exact hread
  | info reply =>
      cases reply with
      | none =>
          rw [hph] at hphase
          rw [turn_info hph]
          refine hsame ⟨hphase.1, fun id hid => ?_⟩
          rw [World.stream, h.trimmed, List.drop_zero] at hid
          obtain ⟨e, he, hid⟩ := Option.map_eq_some_iff.mp (Option.some.inj hid)
          exact ⟨e, he, hid⟩
      | some first => exact plain_informed h hph
  | reading reply =>
      cases reply with
      | none =>
          cases hi : w.hub.lastId with
          | none =>
              have hwaits : turn f cap throws w = w := by
                simp only [turn, move, hph, World.step, World.answer, hi, Option.map_none, Option.getD_none]
              rw [hwaits]
              exact h
          | some last =>
              rw [turn_read hph hi]
              refine hsame fun es n hes e he => ?_
              obtain ⟨rfl, -⟩ := Prod.mk.inj (Option.some.inj hes)
              exact List.mem_of_mem_drop (List.mem_of_mem_filter (List.mem_of_mem_take he))
      | some got => exact plain_reply h hph

theorem plain_turns (cap : Capacity) (throws : Nat → Reader.Tick σ → Bool) (h : Plain f log w) (n : Nat) : Plain f log ((turn f cap throws)^[n] w) := by
  induction n with
  | zero => exact h
  | succ n ih =>
      rw [Function.iterate_succ_apply']
      exact plain_turn ih

omit [LinearOrder τ] in
theorem plain_holding (f : Format β σ τ φ) (hs : Sorted log) : Plain f log (holding log) :=
  ⟨rfl, hs, rfl, rfl, nofun, trivial, rfl, .inl (Nat.zero_le _)⟩

omit [LinearOrder τ] in
theorem plain_appended (h : Plain f log w) (hs : Sorted (log ++ more)) : Plain f (log ++ more) (appended w more) := by
  have hhead : ∀ {e : Entry β}, w.log.head? = some e → (w.log ++ more).head? = some e := by
    intro e he
    rw [List.head?_append, he]
    rfl
  have hseen : Seen w → Seen (appended w more) := by
    intro hw i hi
    obtain ⟨e, he, hle⟩ := hw i hi
    exact ⟨e, hhead he, hle⟩
  refine ⟨congrArg (· ++ more) h.still, ?_, h.trimmed, h.calm, fun hr => hseen (h.resync hr), ?_, h.last, h.few⟩
  · change Sorted (w.log ++ more)
    rw [h.still]
    exact hs
  have hphase := h.phase
  change PlainPhase (appended w more) w.phase
  cases hph : w.phase with
  | top => trivial
  | paging entries reply =>
      rw [hph] at hphase
      exact hphase
  | checking reply =>
      rw [hph] at hphase
      exact hseen hphase
  | info reply =>
      rw [hph] at hphase
      refine ⟨hseen hphase.1, fun id hid => ?_⟩
      obtain ⟨e, he, hid⟩ := hphase.2 id hid
      exact ⟨e, hhead he, hid⟩
  | reading reply =>
      rw [hph] at hphase
      exact fun es n hes e he => List.mem_append_left _ (hphase es n hes e he)

end Plain

/-- The hub keeps up with a stream just when its backfill meets no entry that does
not compact, and no two snapshots are compared of which one has no interval. -/
theorem keepsUp_iff (throws : Nat → Reader.Tick σ → Bool) (hs : Sorted (old ++ more))
    (hpos : ∀ e ∈ old ++ more, zeroId < e.id) :
    KeepsUp f cap throws old more ↔
      (∀ e ∈ latest cap.val old, f.decode e.message ≠ .broken) ∧
        Clean f ((latest cap.val old ++ more).map Entry.message) := by
  have hold := (List.pairwise_append.mp hs).1
  constructor
  · rintro ⟨N, hN⟩
    obtain ⟨hlast, M, hM⟩ := hN N le_rfl
    obtain ⟨-, haccepted⟩ := hM M le_rfl
    constructor
    · intro e he hb
      have hstuck := (stuck throws hold he hb N).lastId
      exact absurd (hlast.symm.trans hstuck) nofun
    · have hplain := plain_turns cap throws (plain_appended (plain_turns cap throws (plain_holding f hold) N) hs) M
      rw [Clean, ← haccepted, List.length_map]
      rcases hplain.few with hfew | hfew
      · exact .inl hfew
      · right
        intro s hs
        obtain ⟨t, ht, rfl⟩ := List.mem_map.mp hs
        exact hfew t ht
  · rintro ⟨hb, hc⟩
    exact keepsUp_of_clean throws hs hpos hb hc

end NetWatch.Live.Recovery
