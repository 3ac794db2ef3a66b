import NetWatch.Collector.Ticks

namespace NetWatch.Collector.Destinations

open Kernel.Types Procfs Model Ingest Conservation Views Ticks Lib.Assoc Lib.SortDedup Lib.Runs

def viewOf (id : ProcId) (dk : DestKey) (u : UInt64 × UInt64) : DestView :=
  ⟨id.1, id.2, Classify.transport dk.proto, dk.app, dk.raddr, dk.rport, u.1, u.2⟩

def Has (procs : Dict ProcId Proc) (id : ProcId) (dk : DestKey) (u : UInt64 × UInt64) : Prop :=
  ∃ p, procs.get? id = some p ∧ p.dests.get? dk = some u

theorem Has.unique {procs : Dict ProcId Proc} {id : ProcId} {dk : DestKey} {u u' : UInt64 × UInt64}
    (h : Has procs id dk u) (h' : Has procs id dk u') : u = u' := by
  obtain ⟨p, hp, hd⟩ := h
  obtain ⟨p', hp', hd'⟩ := h'
  obtain rfl := Option.some.inj (hp.symm.trans hp')
  exact Option.some.inj (hd.symm.trans hd')

theorem feed_dests {c : Clock} {es : List Entry} {o : Option Proc} {q : Proc} (h : feed c o es = some q) {dk : DestKey}
    (hdk : dk ∉ es.map Entry.dest) : q.dests.get? dk = o.bind fun p => p.dests.get? dk := by
  induction es generalizing o with
  | nil =>
      obtain rfl : o = some q := h
      rfl
  | cons e es ih =>
      rw [List.map_cons, List.mem_cons, not_or] at hdk
      rw [ih h hdk.2, Option.bind_some]
      simp only [Entry.book, Proc.record, Dict.get?_insert, if_neg hdk.1]
      cases o with
      | none => rfl
      | some p => rfl

theorem settles_dests {elapsed : Duration} {p q : Proc} (h : Settles elapsed p q) : q.dests = p.dests := by
  obtain ⟨r, hc, rfl⟩ := h
  cases hc with
  | keep => rfl
  | close t ht => rfl

section Pass

variable {a a' : Aggregator} {x : Input} {es : List Entry} {mid : Dict ProcId Proc} {t : Tick}

theorem pass_has (h : Pass a x es mid a' t) {id : ProcId} {dk : DestKey} {u : UInt64 × UInt64}
    (hu : Has mid id dk u) : (∃ e ∈ es, e.touched = (id, dk)) ∨ Has a.procs id dk u := by
  obtain ⟨p, hp, hd⟩ := hu
  by_cases hdk : dk ∈ (entriesOf id es).map Entry.dest
  · obtain ⟨e, he, rfl⟩ := List.mem_map.mp hdk
    obtain ⟨he, hid⟩ := List.mem_filter.mp he
    exact .inl ⟨e, he, Prod.ext (of_decide_eq_true hid) rfl⟩
  · have hmoved := h.moved id
    rw [hp] at hmoved
    cases hfeed : feed x.clock ((a.procs.get? id).map Proc.startTick) (entriesOf id es) with
    | none => rw [hfeed] at hmoved; cases hmoved
    | some q =>
        rw [hfeed] at hmoved
        cases hmoved with
        | some hs =>
            rw [settles_dests hs, feed_dests hfeed hdk] at hd
            cases hold : a.procs.get? id with
            | none => rw [hold] at hd; cases hd
            | some p₀ =>
                rw [hold] at hd
                exact .inr ⟨p₀, hold, hd⟩

theorem pass_listed (h : Pass a x es mid a' t) {e : Entry} (he : e ∈ es) {u : UInt64 × UInt64}
    (hu : Has mid e.id e.dest u) : viewOf e.id e.dest u ∈ t.dests := by
  obtain ⟨p, hp, hd⟩ := hu
  rw [h.dests]
  refine List.mem_filterMap.mpr ⟨e.touched, (mem_sortDedup _ _).mpr (List.mem_map_of_mem he), ?_⟩
  simp only [destView, Entry.touched, hp, hd, Option.bind_eq_bind, Option.bind_some]
  rfl

theorem pass_dest (h : Pass a x es mid a' t) {d : DestView} (hd : d ∈ t.dests) :
    ∃ id dk u, Has mid id dk u ∧ d = viewOf id dk u := by
  rw [h.dests] at hd
  obtain ⟨⟨id, dk⟩, -, hview⟩ := List.mem_filterMap.mp hd
  obtain ⟨p, hp, hrest⟩ := Option.bind_eq_some_iff.mp hview
  obtain ⟨u, hu, hout⟩ := Option.bind_eq_some_iff.mp hrest
  exact ⟨id, dk, u, ⟨p, hp, hu⟩, (Option.some.inj hout).symm⟩

end Pass

/-- Two successive published states: a destination that the second tick does not
list has the totals it had in the first one. -/
structure DestsSucceed (pub : Option Published) (pub' : Published) : Prop where
  listed : ∀ d ∈ pub'.tick.dests, ∃ id dk u, Has pub'.procs id dk u ∧ d = viewOf id dk u
  quiet : ∀ id dk u, Has pub'.procs id dk u →
    viewOf id dk u ∈ pub'.tick.dests ∨ ∃ p, pub = some p ∧ Has p.procs id dk u

def Plain (dk : DestKey) : Prop := (dk.proto = ipprotoTcp ∨ dk.proto = ipprotoUdp) ∧ dk.app ∈ Classify.labels

def AllPlain (procs : Dict ProcId Proc) : Prop := ∀ id dk u, Has procs id dk u → Plain dk

def TcpUdp (_ : Source) (x : Input) : Prop := ∀ f ∈ x.flows, f.key.proto = ipprotoTcp ∨ f.key.proto = ipprotoUdp

structure Follows (s : Source) : Prop where
  plain : AllPlain s.agg.procs
  held : ∀ id p, s.agg.procs.get? id = some p → ∃ pub, s.log.getLast? = some pub ∧ pub.procs.get? id = some p
  each : ∀ past pub rest, s.log = past ++ pub :: rest → DestsSucceed past.getLast? pub ∧ AllPlain pub.procs

theorem start_follows (clkTck : ClkTck) : Follows (.start clkTck) where
  plain := by
    rintro id dk u ⟨p, hp, -⟩
    exact absurd ((Dict.get?_empty id).symm.trans hp) nofun
  held id _ hp := absurd ((Dict.get?_empty id).symm.trans hp) nofun
  each past pub rest h := absurd h.symm (List.append_ne_nil_of_right_ne_nil _ (List.cons_ne_nil _ _))

theorem step_follows {s s' : Source} {x : Input} (hs : Follows s) (hg : TcpUdp s x) (h : s.step x = some s') :
    Follows s' := by
  obtain ⟨⟨a', pub⟩, hpub, rfl⟩ := Option.map_eq_some_iff.mp h
  obtain ⟨es, hpass⟩ := publish_pass hpub
  have hplain : AllPlain pub.procs := by
    intro id dk u hu
    rcases pass_has hpass hu with ⟨e, he, htouched⟩ | hold
    · obtain ⟨rfl, rfl⟩ := Prod.mk.inj htouched
      have hflow : e.sample ∈ x.flows := hpass.samples ▸ List.mem_map_of_mem he
      exact ⟨hg e.sample hflow, hpass.labels e he⟩
    · exact hs.plain id dk u hold
  have hsucc : DestsSucceed s.log.getLast? pub := by
    refine ⟨fun d hd => pass_dest hpass hd, fun id dk u hu => ?_⟩
    rcases pass_has hpass hu with ⟨e, he, htouched⟩ | ⟨p, hp, hd⟩
    · obtain ⟨rfl, rfl⟩ := Prod.mk.inj htouched
      exact .inl (pass_listed hpass he hu)
    · obtain ⟨pub₀, hlast, hp₀⟩ := hs.held id p hp
      exact .inr ⟨pub₀, hlast, p, hp₀, hd⟩
  refine ⟨?_, ?_, ?_⟩
  · rintro id dk u ⟨p, hp, hd⟩
    exact hplain id dk u ⟨p, pass_left hpass hp, hd⟩
  · intro id p hp
    exact ⟨pub, List.getLast?_concat, pass_left hpass hp⟩
  · intro past pub' rest hlog
    rcases List.eq_nil_or_concat' rest with rfl | ⟨rest', last, rfl⟩
    · obtain ⟨rfl, hlast⟩ := List.append_inj' hlog rfl
      obtain rfl := (List.cons.inj hlast).1
      exact ⟨hsucc, hplain⟩
    · have hinit : s.log = past ++ pub' :: rest' := by
        rw [← List.cons_append, ← List.append_assoc] at hlog
        exact (List.append_inj' hlog rfl).1
      exact hs.each past pub' rest' hinit

theorem run_follows {clkTck : ClkTck} {xs : List Input} {s : Source}
    (h : Run Source.step TcpUdp (.start clkTck) xs s) : Follows s :=
  h.invariant (start_follows clkTck) fun _ _ _ hs hg hx => step_follows hs hg hx

end NetWatch.Collector.Destinations
