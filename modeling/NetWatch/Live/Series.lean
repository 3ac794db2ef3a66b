import NetWatch.Live.Invariant

namespace NetWatch.Live.Series

open Hub Store Link Invariant Lib.Timeline

variable {α : Type}

section Series

variable {cap : Capacity} {s : Session α}

theorem serve_sound (hs : Sound cap s) (hreq : s.request = some none) :
    Sound cap { s with request := some (some (s.hub.series capacity)) } := by
  obtain ⟨parked, hpending, hload⟩ := hs.loading none hreq
  have hnewest := series_newest hs.hub capacity_pos
  obtain ⟨z, hz⟩ : ∃ z, s.accepted.getLast? = some z := ⟨_, List.getLast?_eq_some_getLast hload.nonempty⟩
  have hcover : cover s (some (s.hub.series capacity)) = cover s none :=
    (newestTs_eq (hnewest.trans hz)).trans (newestTs_eq hz).symm
  refine ⟨hs.hub, hs.empty, hs.order, hs.behind, hs.delivered, ?_, nofun, ?_, ?_⟩
  · intro ms hms
    cases hs.wire ms hms with
    | greeted hsp hpast =>
        refine .greeted ⟨hsp.accepted, hsp.early⟩ fun c hc => hpast c ?_
        rcases hc with ⟨answer, hans, rfl⟩ | hc
        · obtain rfl := Option.some.inj hans
          exact .inl ⟨none, hreq, hcover⟩
        · exact .inr hc
    | fresh hsp hlatest =>
        rcases hlatest with hl | ⟨-, hnone⟩
        · exact .fresh ⟨hsp.accepted, hsp.early⟩ (.inl hl)
        · exact absurd (hreq.symm.trans hnone) nofun
  · intro answer hans
    obtain rfl := Option.some.inj hans
    refine ⟨parked, hpending, hload.nonempty, ?_, ?_, hload.increasing, hload.early, ?_⟩
    · intro series hseries
      obtain rfl := Option.some.inj hseries
      obtain ⟨before, hsuffix⟩ := series_suffix hs.hub capacity
      have hne : s.hub.series capacity ≠ [] := by
        intro hnil
        rw [hnil] at hnewest
        exact absurd (hnewest.trans hz) nofun
      obtain ⟨first, hfirst⟩ : ∃ first, (s.hub.series capacity).head? = some first :=
        ⟨_, List.head?_eq_some_head hne⟩
      refine ⟨first, z, hfirst, hnewest.trans hz, ?_⟩
      have hinc := hs.hub.increasing
      rw [← hsuffix] at hinc
      have hspan := span_suffix hinc hfirst (hnewest.trans hz)
      rw [hsuffix] at hspan
      exact hspan.symm
    · intro t ht
      exact le_of_le_of_eq (hload.behind t ht) hcover.symm
    · have htail := hload.tail
      rw [← hcover] at htail
      exact htail
  · intro first newest h
    exact absurd (hreq.symm.trans (hs.copied first newest h).1) nofun

theorem fail_sound (hs : Sound cap s) {answer : Option (List (CompactTick α))} (hreq : s.request = some answer)
    (message : String) : Sound cap { s with store := s.store.seriesFailed message, request := none } := by
  obtain ⟨parked, hpending, hload⟩ := hs.loading answer hreq
  have hloaded : ∀ first newest, s.loaded ≠ some (first, newest) := by
    intro first newest h
    exact absurd (hreq.symm.trans (hs.copied first newest h).1) nofun
  have hticks : (s.store.seriesFailed message).ticks = (s.store.append parked).ticks := by
    simp only [LiveStore.seriesFailed, hpending, Option.getD_some]
    rfl
  have horder := append_inOrder hs.order.increasing parked
  refine ⟨hs.hub, hs.empty, ⟨hticks ▸ horder.increasing, hticks ▸ horder.short⟩, ?_, hs.delivered, ?_, fun _ => rfl,
    nofun, fun first newest h => absurd h (hloaded first newest)⟩
  · intro t ht
    rcases mem_append_ticks (hticks ▸ ht) with ht | ht
    · exact hs.behind t ht
    · obtain ⟨d, hd, hle⟩ := hload.early t ht
      obtain ⟨u, hu, hdu⟩ := hs.delivered d hd
      exact ⟨u, hu, le_trans hle hdu⟩
  · intro ms hms
    cases hs.wire ms hms with
    | greeted hsp _ =>
        refine .greeted ⟨hsp.accepted, hsp.early⟩ ?_
        rintro c (⟨answer', hans, -⟩ | ⟨first, hfirst⟩)
        · cases hans
        · exact absurd hfirst (hloaded first c)
    | fresh hsp hlatest =>
        refine .fresh ⟨hsp.accepted, hsp.early⟩ ?_
        rcases hlatest with hl | ⟨hl, -⟩
        · exact .inl hl
        · exact .inr ⟨hl, rfl⟩

theorem mergeHead_mark (kept : List (CompactTick α)) (first : CompactTick α) (rest : List (CompactTick α)) :
    ∃ mark, LiveStore.mergeHead kept first :: rest = markHead mark (first :: rest) := by
  rw [LiveStore.mergeHead]
  split_ifs
  · exact ⟨true, by simp [markHead]⟩
  · exact ⟨false, by simp [markHead]⟩

theorem loaded_ticks (hs : Sound cap s) {series parked : List (CompactTick α)} (hpending : s.store.pending = some parked)
    (h : Loading s (some series) parked) {first newest : CompactTick α} (hfirst : series.head? = some first)
    (hnewest : series.getLast? = some newest) : ∃ kept mark, (∀ t ∈ kept, t.ts < first.ts ∧ t ∈ s.store.ticks) ∧
      Increasing CompactTick.ts kept ∧ (s.store.seriesLoaded series).ticks = latest capacity (kept ++
        markHead mark (span CompactTick.ts first.ts (upTo newest.ts s.delivered) s.accepted)) := by
  obtain ⟨rest, rfl⟩ := List.head?_eq_some_iff.mp hfirst
  obtain ⟨first', newest', hfirst', hnewest', hspan⟩ := h.served _ rfl
  obtain rfl := Option.some.inj (hfirst.symm.trans hfirst')
  obtain rfl := Option.some.inj (hnewest.symm.trans hnewest')
  have hcover : cover s (some (first :: rest)) = newest.ts := newestTs_eq hnewest
  have hmem : first ∈ span CompactTick.ts first.ts newest.ts s.accepted := hspan ▸ List.mem_cons_self
  have hsplit := span_split hs.hub.increasing (a := first.ts) (b := newest.ts)
    (by have := (mem_span.mp hmem).2.2; omega) (le_upTo newest.ts s.delivered)
  obtain ⟨mark, hmark⟩ := mergeHead_mark (s.store.ticks.filter fun t => t.ts < first.ts) first rest
  have hlast : ∃ z, ((s.store.ticks.filter fun t => t.ts < first.ts) ++
      markHead mark (first :: rest)).getLast? = some z ∧ z.ts = newest.ts := by
    have hmarked := markHead_newest mark (first :: rest)
    rw [hnewest] at hmarked
    obtain ⟨z, hz, hzn⟩ := Option.map_eq_some_iff.mp hmarked
    refine ⟨z, ?_, hzn⟩
    rw [List.getLast?_append, hz]
    rfl
  obtain ⟨z, hz, hzn⟩ := hlast
  refine ⟨s.store.ticks.filter fun t => t.ts < first.ts, mark, ?_, hs.order.increasing.filter _, ?_⟩
  · intro t ht
    obtain ⟨ht, hlt⟩ := List.mem_filter.mp ht
    exact ⟨of_decide_eq_true hlt, ht⟩
  · have hticks : (s.store.seriesLoaded (first :: rest)).ticks = latest capacity (extend CompactTick.ts
        ((s.store.ticks.filter fun t => t.ts < first.ts) ++ markHead mark (first :: rest)) parked) := by
      rw [← hmark]
      simp only [LiveStore.seriesLoaded, hpending, Option.getD_some]
      rfl
    have htail := h.tail
    rw [hcover] at htail
    rw [hticks, extend_eq hz h.increasing, hzn, htail, hsplit, ← hspan, List.append_assoc]
    rfl

theorem respond_sound (hs : Sound cap s) {series : List (CompactTick α)} (hreq : s.request = some (some series)) :
    Sound cap { s with
      store := s.store.seriesLoaded series, request := none, loaded := Session.answerSpan series } := by
  obtain ⟨parked, hpending, hload⟩ := hs.loading _ hreq
  obtain ⟨first, newest, hfirst, hnewest, hspan⟩ := hload.served series rfl
  have hanswer : Session.answerSpan series = some (first, newest.ts) := by
    simp [Session.answerSpan, hfirst, hnewest]
  have hcover : cover s (some series) = newest.ts := newestTs_eq hnewest
  obtain ⟨kept, mark, hkept, hinc, hticks⟩ := loaded_ticks hs hpending hload hfirst hnewest
  have hmem : newest ∈ span CompactTick.ts first.ts newest.ts s.accepted := hspan ▸ List.mem_of_getLast? hnewest
  have hspans : Increasing CompactTick.ts (span CompactTick.ts first.ts (upTo newest.ts s.delivered) s.accepted) :=
    hs.hub.increasing.filter _
  refine ⟨hs.hub, hs.empty, ⟨?_, ?_⟩, ?_, hs.delivered, ?_, fun _ => seriesLoaded_pending series, nofun, ?_⟩
  · rw [hticks]
    have hmarked := increasing_markHead mark hspans
    refine increasing_latest capacity (List.pairwise_append.mpr ⟨hinc, hmarked, fun x hx y hy => ?_⟩)
    obtain ⟨u, hu, hyu⟩ := mem_markHead hy
    rw [hyu]
    exact lt_of_lt_of_le (hkept x hx).1 (mem_span.mp hu).2.1
  · rw [hticks]
    exact length_latest_le capacity _
  · intro t ht
    rw [hticks] at ht
    rcases List.mem_append.mp ((latest_suffix _ _).mem ht) with ht | ht
    · exact hs.behind t (hkept t ht).2
    · obtain ⟨u, hu, htu⟩ := mem_markHead ht
      exact ⟨u, (mem_span.mp hu).1, le_of_eq htu⟩
  · intro ms hms
    cases hs.wire ms hms with
    | greeted hsp hpast =>
        refine .greeted ⟨hsp.accepted, hsp.early⟩ ?_
        rintro c (⟨answer', hans, -⟩ | ⟨first', hloaded⟩)
        · cases hans
        · obtain ⟨-, rfl⟩ := Prod.mk.inj (Option.some.inj (hanswer.symm.trans hloaded))
          exact hpast newest.ts (.inl ⟨some series, hreq, hcover.symm⟩)
    | fresh hsp hlatest =>
        rcases hlatest with hl | ⟨-, hnone⟩
        · exact .fresh ⟨hsp.accepted, hsp.early⟩ (.inl hl)
        · exact absurd (hreq.symm.trans hnone) nofun
  · intro first' newest' hloaded
    obtain ⟨rfl, rfl⟩ := Prod.mk.inj (Option.some.inj (hanswer.symm.trans hloaded))
    refine ⟨rfl, (mem_span.mp hmem).2.1, ⟨newest, (mem_span.mp hmem).1, rfl⟩, kept, mark, ?_, hticks⟩
    exact fun t ht => (hkept t ht).1

end Series

end NetWatch.Live.Series
