import NetWatch.Collector.Model

namespace NetWatch.Collector.Ingest

open Kernel.Types Procfs Model Lib.Assoc Lib.SortDedup Lib.Runs

/-- A drained record with what `ingest` found out about it: its label, the
command line its process gets if this record creates it, and the name the
process has afterwards. -/
structure Entry where
  sample : Sample
  app : String
  cmdline : String
  name : String

namespace Entry

def id (e : Entry) : ProcId := e.sample.id

def dest (e : Entry) : DestKey := destKey e.sample.key e.app

def touched (e : Entry) : ProcId × DestKey := (e.id, e.dest)

def flowRec (elapsed : Duration) (e : Entry) : FlowRec := Model.flowRec elapsed e.sample e.name e.app

def book (c : Clock) (o : Option Proc) (e : Entry) : Proc :=
  (o.getD (Proc.fresh c e.sample.key e.sample.stats e.cmdline)).record c.wallMs e.sample.stats e.dest

end Entry

def feed (c : Clock) (o : Option Proc) (es : List Entry) : Option Proc :=
  es.foldl (fun o e => some (e.book c o)) o

def entriesOf (id : ProcId) (es : List Entry) : List Entry := es.filter fun e => e.id = id

theorem entriesOf_cons_self {id : ProcId} {e : Entry} (h : e.id = id) (es : List Entry) :
    entriesOf id (e :: es) = e :: entriesOf id es :=
  List.filter_cons_of_pos (by simpa using h)

theorem entriesOf_cons_other {id : ProcId} {e : Entry} (h : e.id ≠ id) (es : List Entry) :
    entriesOf id (e :: es) = entriesOf id es :=
  List.filter_cons_of_neg (by simpa using h)

theorem ingestFlow_entry {clkTck : ClkTck} {c : Clock} {elapsed : Duration} {st st' : Loop} {x : Sample}
    (h : ingestFlow clkTck c elapsed st x = some st') :
    ∃ e : Entry, e.sample = x ∧ e.app ∈ Classify.labels ∧
      st'.procs = st.procs.insert e.id (e.book c (st.procs.get? e.id)) ∧
      st'.destChanged = st.destChanged ++ [e.touched] ∧ st'.recs = st.recs ++ [e.flowRec elapsed] := by
  obtain ⟨p, hp, hst⟩ := Option.map_eq_some_iff.mp h
  obtain rfl := hst
  rw [procEntry] at hp
  cases hid : st.procs.get? x.id with
  | some q =>
      rw [hid] at hp
      obtain rfl := Option.some.inj hp
      refine ⟨⟨x, Classify.app x.key.proto x.key.rport x.key.lport (sniffed st.appCache x), "", _⟩, rfl,
        Classify.app_mem _ _ _ _, ?_, rfl, rfl⟩
      simp only [Entry.id, Entry.book, Entry.dest, hid, Option.getD_some]
  | none =>
      rw [hid] at hp
      obtain ⟨cmdline, -, rfl⟩ := Option.map_eq_some_iff.mp hp
      refine ⟨⟨x, Classify.app x.key.proto x.key.rport x.key.lport (sniffed st.appCache x), cmdline, _⟩, rfl,
        Classify.app_mem _ _ _ _, ?_, rfl, rfl⟩
      simp only [Entry.id, Entry.book, Entry.dest, hid, Option.getD_none]

theorem loop_entries {clkTck : ClkTck} {c : Clock} {elapsed : Duration} {flows : List Sample} {st l : Loop}
    (h : exec (ingestFlow clkTck c elapsed) st flows = some l) :
    ∃ es : List Entry, es.map Entry.sample = flows ∧ (∀ e ∈ es, e.app ∈ Classify.labels) ∧
      (∀ id, l.procs.get? id = feed c (st.procs.get? id) (entriesOf id es)) ∧
      l.destChanged = st.destChanged ++ es.map Entry.touched ∧
      l.recs = st.recs ++ es.map (Entry.flowRec elapsed) := by
  induction flows generalizing st with
  | nil =>
      obtain rfl := Option.some.inj h
      exact ⟨[], rfl, nofun, fun _ => rfl, (List.append_nil _).symm, (List.append_nil _).symm⟩
  | cons x flows ih =>
      obtain ⟨st', hst, hl⟩ := Option.bind_eq_some_iff.mp h
      obtain ⟨e, rfl, hlab, hprocs, htouched, hrecs⟩ := ingestFlow_entry hst
      obtain ⟨es, rfl, hlabs, hprocs', htouched', hrecs'⟩ := ih hl
      refine ⟨e :: es, rfl, ?_, ?_, ?_, ?_⟩
      · intro e' he'
        rcases List.mem_cons.mp he' with rfl | he'
        · exact hlab
        · exact hlabs e' he'
      · intro id
        rw [hprocs' id, hprocs, Dict.get?_insert]
        by_cases hid : id = e.id
        · subst hid
          rw [if_pos rfl, entriesOf_cons_self rfl]
          rfl
        · rw [if_neg hid, entriesOf_cons_other (Ne.symm hid)]
      · rw [htouched', htouched, List.append_assoc]
        rfl
      · rw [hrecs', hrecs, List.append_assoc]
        rfl

/-- A process that is left alone by the exit events and the liveness sweep, or
is marked as ended by one of them. -/
inductive Closes : Proc → Proc → Prop
  | keep (p) : Closes p p
  | close {p : Proc} (t : Int) : p.view.endedMs = none → Closes p (p.ended t)

theorem Closes.trans (p q r : Proc) (h : Closes p q) (h' : Closes q r) : Closes p r := by
  cases h with
  | keep => exact h'
  | close t ht =>
      cases h' with
      | keep => exact .close t ht
      | close t' ht' => exact absurd ht' nofun

theorem markExit_closes (c : Clock) (n : Nat) (st : Dict ProcId Proc × List ExitEvent) (e : ExitEvent × Nat) :
    st.1.Rel Closes (markExit c n st e).1 := by
  have hrefl : st.1.Rel Closes st.1 := Dict.rel_refl .keep st.1
  rw [markExit]
  split
  · rename_i p hp
    split_ifs with hended
    · exact Dict.rel_insert .keep hp (.close _ hended)
    · exact hrefl
  · split_ifs
    · exact hrefl
    · exact hrefl

theorem markExits_closes (c : Clock) (retry exits : List ExitEvent) (procs : Dict ProcId Proc) :
    procs.Rel Closes (markExits c retry exits procs).1 := by
  rw [markExits]
  generalize (retry ++ exits).zipIdx = es
  have hfold : ∀ st : Dict ProcId Proc × List ExitEvent,
      st.1.Rel Closes (es.foldl (markExit c retry.length) st).1 := by
    induction es with
    | nil => exact fun st => Dict.rel_refl .keep st.1
    | cons e es ih => exact fun st => (markExit_closes c _ st e).trans Closes.trans (ih _)
  exact hfold (procs, [])

theorem sweepOne_closes (clkTck : ClkTck) (now : Int) (fs : ProcId → ProcFs) (id : ProcId) (p : Proc) :
    Closes p (sweepOne clkTck now fs id p) := by
  rw [sweepOne]
  split_ifs with hskip hdead
  · exact .keep p
  · rw [not_or, Bool.not_eq_true, Option.isSome_eq_false_iff, Option.isNone_iff_eq_none] at hskip
    exact .close now hskip.1
  · exact .keep p

def Settles (elapsed : Duration) (p q : Proc) : Prop := ∃ r, Closes p r ∧ q = r.setRates elapsed

theorem settle_settles (a : Aggregator) (x : Input) (l : Loop) :
    l.procs.Rel (Settles x.elapsed) (settle a x l).procs := by
  have hswept : l.procs.Rel Closes (if livenessDue a x.clock.wallMs
      then sweepDead a.clkTck x.clock.wallMs x.sweepFs (markExits x.clock a.pendingExits x.exits l.procs).1
      else (markExits x.clock a.pendingExits x.exits l.procs).1) := by
    split_ifs
    · exact (markExits_closes x.clock a.pendingExits x.exits l.procs).trans Closes.trans
        (Dict.rel_mapVals (sweepOne_closes a.clkTck x.clock.wallMs x.sweepFs) _)
    · exact markExits_closes x.clock a.pendingExits x.exits l.procs
  intro id
  simp only [settle, Dict.get?_mapVals]
  cases hid : l.procs.get? id with
  | none => rw [hswept.none_iff.mp hid]; exact .none
  | some p =>
      obtain ⟨r, hr, hc⟩ := hswept.of_some hid
      rw [hr]
      exact .some ⟨r, hc, rfl⟩

/-- What a call of `ingest` does: `es` are its records, `mid` is the state it
publishes and `a'` the state it leaves, which differs from `mid` by the processes
that are forgotten. -/
structure Pass (a : Aggregator) (x : Input) (es : List Entry) (mid : Dict ProcId Proc) (a' : Aggregator)
    (t : Tick) : Prop where
  samples : es.map Entry.sample = x.flows
  labels : ∀ e ∈ es, e.app ∈ Classify.labels
  moved : ∀ id, Option.Rel (Settles x.elapsed)
    (feed x.clock ((a.procs.get? id).map Proc.startTick) (entriesOf id es)) (mid.get? id)
  kept : ∀ id, a'.procs.get? id = mid.get? id ∨
    a'.procs.get? id = none ∧ ∃ p, mid.get? id = some p ∧ retained x.clock.wallMs p = false
  tsMs : t.tsMs = x.clock.wallMs
  flows : t.flows = es.map (Entry.flowRec x.elapsed)
  procs : t.procs = mid.values.map Proc.view
  dests : t.dests = (sortDedup touchedOrder (es.map Entry.touched)).filterMap (destView mid)

theorem prune_kept (m : Aggregator) (now : Int) (id : ProcId) :
    (m.prune now).procs.get? id = m.procs.get? id ∨
      (m.prune now).procs.get? id = none ∧ ∃ p, m.procs.get? id = some p ∧ retained now p = false := by
  rw [Aggregator.prune]
  split_ifs
  · simp only [Dict.get?_filter]
    cases m.procs.get? id with
    | none => exact .inl rfl
    | some p =>
        cases hp : retained now p with
        | true => exact .inl (by simp [hp])
        | false => exact .inr ⟨by simp [hp], p, rfl, hp⟩
  · exact .inl rfl

theorem gather_pass {a : Aggregator} {x : Input} {l : Loop} (h : gather a x = some l) :
    ∃ es, Pass a x es (settle a x l).procs ((settle a x l).prune x.clock.wallMs)
      (buildTick x l (settle a x l).procs) := by
  obtain ⟨es, hsamples, hlabels, hprocs, htouched, hrecs⟩ := loop_entries h
  refine ⟨es, hsamples, hlabels, ?_, prune_kept _ _, rfl, ?_, rfl, ?_⟩
  · intro id
    have hset := settle_settles a x l id
    rwa [hprocs id, Dict.get?_mapVals] at hset
  · exact hrecs
  · simp only [buildTick, htouched, List.nil_append]

theorem ingest_pass {a a' : Aggregator} {x : Input} {t : Tick} (h : ingest a x = some (a', t)) :
    ∃ es mid, Pass a x es mid a' t := by
  obtain ⟨l, hl, hout⟩ := Option.map_eq_some_iff.mp h
  obtain ⟨rfl, rfl⟩ := Prod.mk.inj hout
  obtain ⟨es, hpass⟩ := gather_pass hl
  exact ⟨es, _, hpass⟩

end NetWatch.Collector.Ingest
