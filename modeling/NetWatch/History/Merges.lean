import NetWatch.History.Processes

namespace NetWatch.History.Merges

open Collector.Model Collector.SinkClickhouse Collector.ProcessTable Lib.Aggregate Processes

variable {table table' : List ProcRow} {r t : ProcRow} {named : Prop}

abbrev latestRow (table : List ProcRow) (id : ProcId) : Option ProcRow := current rowId version table id

abbrev MergedInto (table table' : List ProcRow) : Prop := Merged rowId version table table'

def toLifetime (r : ProcRow) : Lifetime :=
  { id := rowId r
    name := r.name
    cmd := leftUTF8 r.cmdline cmdlineChars
    uid := r.uid
    startMs := r.startMs
    firstSeen := r.firstSeen
    lastSeen := r.lastSeen
    ended := r.ended
    tx := r.txTotal
    rx := r.rxTotal }

def toLifecycleProc (r : ProcRow) : LifecycleProc :=
  { id := rowId r
    name := r.name
    cmd := leftUTF8 r.cmdline cmdlineChars
    firstSeen := r.firstSeen
    ended := r.ended
    bytes := r.txTotal + r.rxTotal }

/-- What the collector never changes about a process instance. -/
def Constant (table : List ProcRow) : Prop :=
  ∀ r ∈ table, ∀ s ∈ table, rowId r = rowId s → r.startMs = s.startMs ∧ r.firstSeen = s.firstSeen ∧ r.uid = s.uid

/-- An end that a version of an instance has recorded is not taken back by the
latest one, and, if the name matters, the instance has one name throughout. -/
def Settled (named : Prop) (table : List ProcRow) : Prop :=
  ∀ r ∈ table, ∀ t, latestRow table (rowId r) = some t →
    (named → r.name = t.name) ∧ (t.ended = none → r.ended = none)

theorem Constant.merged (h : Constant table) (hm : MergedInto table table') : Constant table' :=
  fun r hr s hs => h r (hm.sublist.subset hr) s (hm.sublist.subset hs)

theorem Settled.merged (h : Settled named table) (hm : MergedInto table table') : Settled named table' := by
  intro r hr t ht
  exact h r (hm.sublist.subset hr) t ((current_merged hm _).symm.trans ht)

theorem Settled.name_eq (h : Settled named table) {s : ProcRow} (hr : r ∈ table) (hs : s ∈ table)
    (hid : rowId r = rowId s) (hn : named) : r.name = s.name := by
  obtain ⟨t, ht⟩ := exists_current rowId version hr
  rw [(h r hr t ht).1 hn, (h s hs t (hid ▸ ht)).1 hn]

theorem Settled.ended_eq (h : Settled named table) {id : ProcId} (ht : latestRow table id = some t) :
    argMaxNullable version ProcRow.ended (table.filter fun r => rowId r = id) = t.ended := by
  refine argMaxNullable_eq ht fun hnull r hr => ?_
  obtain ⟨hmem, hid⟩ := List.mem_filter.mp hr
  exact (h r hmem t (of_decide_eq_true hid ▸ ht)).2 hnull

theorem lifetimes_faithful (o : LifetimesOpts) (hc : Constant table) (hs : Settled (o.name ≠ none) table) :
    Faithful rowId version (lifetimesQuery o) toLifetime table := by
  constructor
  · intro r hr s hs' hid
    obtain ⟨hstart, -, huid⟩ := hc r hr s hs' hid
    have hname : matches? o.name r.name = matches? o.name s.name := by
      cases hn : o.name with
      | none => rfl
      | some n => rw [hs.name_eq hr hs' hid (by rw [hn]; nofun)]
    simp only [lifetimesQuery, hstart, huid, hname]
  · intro id t ht
    obtain ⟨-, rfl⟩ := current_mem ht
    simp only [lifetimesQuery, toLifetime, argMax_eq ht, hs.ended_eq ht]

theorem lifecycle_faithful (o : LifecycleOpts) (hc : Constant table) (hs : Settled (o.names ≠ none) table) :
    Faithful rowId version (lifecycleQuery o) toLifecycleProc table := by
  constructor
  · intro r hr s hs' hid
    obtain ⟨-, hfirst, huid⟩ := hc r hr s hs' hid
    have hname : (o.names.all fun ns => decide (r.name ∈ ns)) = o.names.all fun ns => decide (s.name ∈ ns) := by
      cases hn : o.names with
      | none => rfl
      | some ns => rw [hs.name_eq hr hs' hid (by rw [hn]; nofun)]
    simp only [lifecycleQuery, hfirst, huid, hname]
  · intro id t ht
    obtain ⟨-, rfl⟩ := current_mem ht
    simp only [lifecycleQuery, toLifecycleProc, argMax_eq ht, hs.ended_eq ht]

/-- An answer is the same whatever has been merged, and its rows have the values
of the latest versions. -/
def Unseen {O : Type} (answer : List ProcRow → List O) (out : ProcRow → O) (table : List ProcRow) : Prop :=
  (∀ table', MergedInto table table' → answer table' = answer table) ∧
    ∀ o ∈ answer table, ∃ r, latestRow table (rowId r) = some r ∧ o = out r

/-- Asking for the name of a row of an instance returns the instance under that
name, with an end if the row has one. -/
theorem settled_of_lifetimes (h : ∀ o, Unseen (lifetimes o) toLifetime table) : Settled True table := by
  intro r hr t ht
  let named : LifetimesOpts := ⟨0, r.startMs + 1, table.length, some r.name, none⟩
  let group := (table.filter (lifetimesQuery named).passes).filter fun s => rowId s = rowId r
  let o : LifetimesOpts := { named with start := (argMaxNullable version ProcRow.ended group).getD 0 }
  have hpass : (lifetimesQuery o).passes r = true := by
    simp [lifetimesQuery, o, named, matches?]
  have hgroup : r ∈ group := List.mem_filter.mpr ⟨List.mem_filter.mpr ⟨hr, hpass⟩, by simp⟩
  have hmem : (lifetimesQuery o).group (rowId r) group ∈ lifetimes o table := by
    refine mem_select_of_mem_groups (mem_groups hr hpass) ?_ le_rfl
    change (_ || holds _ (argMaxNullable version ProcRow.ended group)) = true
    cases hend : argMaxNullable version ProcRow.ended group with
    | none => simp [lifetimesQuery, hend]
    | some e => simp [holds, o, hend]
  obtain ⟨s, hs, heq⟩ := (h o).2 _ hmem
  have hst : s = t := by
    have hid : rowId r = rowId s := congrArg Lifetime.id heq
    rw [← hid] at hs
    exact Option.some.inj (hs.symm.trans ht)
  subst hst
  constructor
  · intro _
    obtain ⟨u, hu⟩ := exists_argmax version hgroup
    have hname : u.name = s.name := (argMax_eq hu).symm.trans (congrArg Lifetime.name heq)
    have hpassed := (List.mem_filter.mp (List.mem_filter.mp (List.argmax_mem hu)).1).2
    rw [← hname]
    simp only [lifetimesQuery, named, matches?, Option.all_some, Bool.and_eq_true, decide_eq_true_eq] at hpassed
    exact hpassed.1.2
  · intro hnull
    by_contra hne
    exact argMaxNullable_ne_none hgroup hne ((congrArg Lifetime.ended heq).trans hnull)

theorem lifetimes_unseen (o : LifetimesOpts) (hc : Constant table) (hs : Settled (o.name ≠ none) table) :
    Unseen (lifetimes o) toLifetime table := by
  have hfaithful := lifetimes_faithful o hc hs
  refine ⟨fun table' hm => ?_, fun l hl => hfaithful.select_current hl⟩
  exact hfaithful.select_merged (lifetimes_faithful o (hc.merged hm) (hs.merged hm)) (fun r s h => rank_id h) hm

theorem lifecycle_unseen (o : LifecycleOpts) (hc : Constant table) (hs : Settled (o.names ≠ none) table) :
    Unseen (lifecycle o) toLifecycleProc table := by
  have hfaithful := lifecycle_faithful o hc hs
  refine ⟨fun table' hm => ?_, fun p hp => hfaithful.select_current hp⟩
  exact hfaithful.select_merged (lifecycle_faithful o (hc.merged hm) (hs.merged hm)) (fun r s h => rank_id h) hm

/-- Merges of the table cannot be seen in an answer if the ends and, where it asks
for names, the names of the instances are settled, and all answers together show
whether they are. -/
theorem merges_unseen_iff (hc : Constant table) :
    (∀ o, Settled (o.name ≠ none) table → Unseen (lifetimes o) toLifetime table) ∧
    (∀ o, Settled (o.names ≠ none) table → Unseen (lifecycle o) toLifecycleProc table) ∧
    (((∀ o, Unseen (lifetimes o) toLifetime table) ∧ ∀ o, Unseen (lifecycle o) toLifecycleProc table) ↔
      Settled True table) := by
  refine ⟨fun o => lifetimes_unseen o hc, fun o => lifecycle_unseen o hc, fun h => settled_of_lifetimes h.1, ?_⟩
  intro hs
  have hweak : ∀ named : Prop, Settled named table := fun _ r hr t ht => ⟨fun _ => (hs r hr t ht).1 trivial, (hs r hr t ht).2⟩
  exact ⟨fun o => lifetimes_unseen o hc (hweak _), fun o => lifecycle_unseen o hc (hweak _)⟩

def sampleRow (name : String) (ended : Option Int) (version : UInt64) : ProcRow :=
  ⟨42, 1000, 5000, name, name, 1000, 6000, 7000, ended, 10, 20, version⟩

def settledTable : List ProcRow := [sampleRow "curl" none 7000, sampleRow "curl" (some 8000) 8000]

/-- A shell that becomes another program. -/
def renamedTable : List ProcRow := [sampleRow "sh" none 7000, sampleRow "curl" none 8000]

theorem merges_unseen_sample : Settled True settledTable ∧ ∀ o, Unseen (lifetimes o) toLifetime settledTable := by
  have hsettled : Settled True settledTable := by
    intro r hr t ht
    have hlatest : ∀ r ∈ settledTable, latestRow settledTable (rowId r) = some (sampleRow "curl" (some 8000) 8000) := by
      decide
    cases (hlatest r hr).symm.trans ht
    have hname : ∀ r ∈ settledTable, r.name = "curl" := by decide
    exact ⟨fun _ => hname r hr, nofun⟩
  have hconst : Constant settledTable := by unfold Constant; decide
  exact ⟨hsettled, ((merges_unseen_iff hconst).2.2.mpr hsettled).1⟩

/-- The shell is found under its old name until its old row is merged away. -/
theorem merge_seen : ¬ ∀ table, Constant table → ∀ o, Unseen (lifetimes o) toLifetime table := by
  intro h
  have hmerged : MergedInto renamedTable [sampleRow "curl" none 8000] :=
    .drop ⟨sampleRow "curl" none 8000, by decide, rfl, by decide⟩ (.keep .nil)
  have hsame := (h renamedTable (by unfold Constant; decide) ⟨0, 10000, 500, some "sh", none⟩).1 _ hmerged
  exact absurd hsame (by decide +kernel)

end NetWatch.History.Merges
