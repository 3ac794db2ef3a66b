import Mathlib.Logic.Relation
import NetWatch.Collector.SinkClickhouse
import NetWatch.History.OnGrid
import NetWatch.Lib.Summing
import NetWatch.Lib.WordSum

namespace NetWatch.History.Rollup

open Kernel.Types Collector.SinkClickhouse Lib Lib.Buckets Lib.Summing Lib.JsValue Ranges Throughput OnGrid
open Lib.GroupFold (ofKey)
open Lib.WordSum (toNat_sum)

def toStartOfMinute (ts : ℤ) : ℤ := ts / 60000 * 60

structure RollupKey where
  minute : ℤ
  pid : UInt32
  procStart : UInt64
  proto : String
  app : String
  raddr : Vector UInt8 16
  rport : UInt16
  deriving DecidableEq

/-- A row of `flows_1m`, with the columns that order the table as its key. -/
structure RollupRow where
  key : RollupKey
  name : String
  txBytes : UInt64
  rxBytes : UInt64
  txCalls : UInt64
  rxCalls : UInt64

def RollupRow.counter (r : RollupRow) : Counter → ℕ
  | .txBytes => r.txBytes.toNat
  | .txCalls => r.txCalls.toNat
  | .rxBytes => r.rxBytes.toNat
  | .rxCalls => r.rxCalls.toNat

def groupKey (f : FlowRow) : RollupKey :=
  ⟨toStartOfMinute f.ts, f.pid, f.procStart, f.proto, f.app, f.raddr, f.rport⟩

def viewRow (any : List String → String) (k : RollupKey) (group : List FlowRow) : RollupRow where
  key := k
  name := any (group.map FlowRow.name)
  txBytes := (group.map FlowRow.txBytes).sum
  rxBytes := (group.map FlowRow.rxBytes).sum
  txCalls := (group.map fun f => f.txCalls.toUInt64).sum
  rxCalls := (group.map fun f => f.rxCalls.toUInt64).sum

/-- What the materialized view adds for an inserted block. The name that `any`
picks is left open. -/
def flows1mMv (any : List String → String) (block : List FlowRow) : List RollupRow :=
  (block.map groupKey).dedup.map fun k => viewRow any k (block.filter fun f => groupKey f = k)

def Joins (a b c : RollupRow) : Prop :=
  a.key = b.key ∧ (c.name = a.name ∨ c.name = b.name) ∧
    c = ⟨a.key, c.name, a.txBytes + b.txBytes, a.rxBytes + b.rxBytes, a.txCalls + b.txCalls, a.rxCalls + b.rxCalls⟩

def Void (a : RollupRow) : Prop := a.txBytes = 0 ∧ a.rxBytes = 0 ∧ a.txCalls = 0 ∧ a.rxCalls = 0

structure Store where
  flows : List FlowRow
  rollup : List RollupRow

/-- What happens to the two tables. Rows of a minute that is still live are
neither dropped with a partition nor expired, and the sums of a key fit into
their columns. -/
inductive Steps (live : ℤ → Prop) : Store → Store → Prop
  | insert (s : Store) (block : List FlowRow) (any : List String → String) (hany : ∀ names, names ≠ [] → any names ∈ names)
      (hfits : ∀ k c, total (fun r => r.counter c) (ofKey RollupRow.key k s.rollup) +
        total (fun f => f.counter c) (block.filter fun f => groupKey f = k) < 2 ^ 64) :
      Steps live s ⟨s.flows ++ block, s.rollup ++ flows1mMv any block⟩
  | merge (s : Store) {rows : List RollupRow} (h : Merge Joins Void s.rollup rows) : Steps live s { s with rollup := rows }
  | forgetFlows (s : Store) (keep : ℤ → Bool) (h : ∀ ts, live (toStartOfMinute ts) → keep ts = true) :
      Steps live s { s with flows := s.flows.filter fun f => keep f.ts }
  | forgetRollup (s : Store) (keep : ℤ → Bool) (h : ∀ m, live m → keep m = true) :
      Steps live s { s with rollup := s.rollup.filter fun r => keep r.key.minute }

section View

variable {any : List String → String} {block : List FlowRow} {c : Counter}

theorem viewRow_counter (k : RollupKey) {group : List FlowRow} (h : total (fun f => f.counter c) group < 2 ^ 64) :
    (viewRow any k group).counter c = total (fun f => f.counter c) group := by
  have hsum : ∀ f : FlowRow → UInt64, (group.map f).sum.toNat = total (fun x => (f x).toNat) group % 2 ^ 64 := by
    intro f
    refine (toNat_sum (group.map f)).trans ?_
    rw [List.map_map]
    rfl
  cases c with
  | txBytes => exact (hsum _).trans (Nat.mod_eq_of_lt h)
  | rxBytes => exact (hsum _).trans (Nat.mod_eq_of_lt h)
  | txCalls =>
      refine (hsum fun f => f.txCalls.toUInt64).trans ?_
      simp only [UInt32.toNat_toUInt64]
      exact Nat.mod_eq_of_lt h
  | rxCalls =>
      refine (hsum fun f => f.rxCalls.toUInt64).trans ?_
      simp only [UInt32.toNat_toUInt64]
      exact Nat.mod_eq_of_lt h

theorem view_total (h : ∀ k, total (fun f => f.counter c) (block.filter fun f => groupKey f = k) < 2 ^ 64)
    (p : RollupKey → Bool) :
    total (fun r => r.counter c) ((flows1mMv any block).filter fun r => p r.key) =
      total (fun f => f.counter c) (block.filter fun f => p (groupKey f)) := by
  have hpairs : (flows1mMv any block).map (fun r => (r.key, r.counter c)) =
      groupSums groupKey (fun f => f.counter c) block := by
    rw [flows1mMv, groupSums, List.map_map]
    exact List.map_congr_left fun k _ => Prod.ext rfl (viewRow_counter k (h k))
  rw [← total_groups groupKey, ← hpairs, List.filter_map, total_map]
  rfl

theorem view_name (hany : ∀ names, names ≠ [] → any names ∈ names) {r : RollupRow} (hr : r ∈ flows1mMv any block) :
    ∃ f ∈ block, groupKey f = r.key ∧ f.name = r.name := by
  obtain ⟨k, hk, rfl⟩ := List.mem_map.mp hr
  obtain ⟨g, hg, hkey⟩ := List.mem_map.mp (List.mem_dedup.mp hk)
  have hmem : g ∈ block.filter fun f => groupKey f = k := List.mem_filter.mpr ⟨hg, decide_eq_true hkey⟩
  have hne : (block.filter fun f => groupKey f = k).map FlowRow.name ≠ [] := by
    intro hnil
    rw [List.map_eq_nil_iff.mp hnil] at hmem
    cases hmem
  obtain ⟨f, hf, hname⟩ := List.mem_map.mp (hany _ hne)
  obtain ⟨hblock, hfk⟩ := List.mem_filter.mp hf
  exact ⟨f, hblock, of_decide_eq_true hfk, hname⟩

end View

/-- The rollup has the sums of the flows of all live minutes, under names that
flows of the same key have. -/
structure Exact (live : ℤ → Prop) (s : Store) : Prop where
  sums : ∀ p : RollupKey → Bool, (∀ k, p k = true → live k.minute) → ∀ c,
    total (fun r => r.counter c) (s.rollup.filter fun r => p r.key) =
      total (fun f => f.counter c) (s.flows.filter fun f => p (groupKey f))
  fits : ∀ k c, total (fun r => r.counter c) (ofKey RollupRow.key k s.rollup) < 2 ^ 64
  names : ∀ r ∈ s.rollup, live r.key.minute → ∃ f ∈ s.flows, groupKey f = r.key ∧ f.name = r.name

section Steps

variable {live : ℤ → Prop} {s s' : Store}

theorem joins_counter {l m r : List RollupRow} {a b c : RollupRow} (h : Joins a b c) (d : Counter)
    (hfits : total (fun r => r.counter d) (ofKey RollupRow.key a.key (l ++ a :: m ++ b :: r)) < 2 ^ 64) :
    c.counter d = a.counter d + b.counter d := by
  obtain ⟨hkey, -, hc⟩ := h
  have hle : a.counter d + b.counter d < 2 ^ 64 := by
    simp only [ofKey, List.filter_append, List.filter_cons, ← hkey, decide_true, if_true, total_append, total_cons] at hfits
    omega
  have hadd : ∀ x y : UInt64, x.toNat + y.toNat < 2 ^ 64 → (x + y).toNat = x.toNat + y.toNat := by
    intro x y hxy
    rw [UInt64.toNat_add, Nat.mod_eq_of_lt hxy]
  rw [hc]
  cases d with
  | txBytes | rxBytes | txCalls | rxCalls => exact hadd _ _ hle

theorem void_counter {a : RollupRow} (h : Void a) (d : Counter) : a.counter d = 0 := by
  obtain ⟨htx, hrx, htxc, hrxc⟩ := h
  cases d with
  | txBytes => rw [RollupRow.counter, htx]; rfl
  | rxBytes => rw [RollupRow.counter, hrx]; rfl
  | txCalls => rw [RollupRow.counter, htxc]; rfl
  | rxCalls => rw [RollupRow.counter, hrxc]; rfl

theorem merge_total {rows rows' : List RollupRow} (hfits : ∀ k c, total (fun r => r.counter c) (ofKey RollupRow.key k rows) < 2 ^ 64)
    (h : Merge Joins Void rows rows') (p : RollupKey → Bool) (c : Counter) :
    total (fun r => r.counter c) (rows'.filter fun r => p r.key) =
      total (fun r => r.counter c) (rows.filter fun r => p r.key) := by
  refine h.total_filter p ?_ fun a ha => void_counter ha c
  intro l m r a b d hrows hj
  refine ⟨hj.1.symm, by rw [hj.2.2], joins_counter (l := l) (m := m) (r := r) hj c ?_⟩
  rw [← hrows]
  exact hfits a.key c

theorem merge_name {rows rows' : List RollupRow} (h : Merge Joins Void rows rows') {r : RollupRow} (hr : r ∈ rows') :
    ∃ q ∈ rows, q.key = r.key ∧ q.name = r.name := by
  cases h with
  | @join l m t a b c hj =>
      obtain ⟨hkey, hname, hc⟩ := hj
      have hckey : c.key = a.key := by rw [hc]
      rcases List.mem_append.mp hr with hr | hr
      · rcases List.mem_append.mp hr with hr | hr
        · exact ⟨r, by simp [hr], rfl, rfl⟩
        · rcases List.mem_cons.mp hr with rfl | hr
          · rcases hname with hname | hname
            · exact ⟨a, by simp, hckey.symm, hname.symm⟩
            · exact ⟨b, by simp, hkey.symm.trans hckey.symm, hname.symm⟩
          · exact ⟨r, by simp [hr], rfl, rfl⟩
      · exact ⟨r, by simp [hr], rfl, rfl⟩
  | @drop l t a hv =>
      refine ⟨r, ?_, rfl, rfl⟩
      rcases List.mem_append.mp hr with hr | hr
      · exact List.mem_append_left _ hr
      · exact List.mem_append_right _ (List.mem_cons_of_mem a hr)
  | reorder hp => exact ⟨r, hp.mem_iff.mpr hr, rfl, rfl⟩

theorem filter_kept {α : Type} {rows : List α} {q keep : α → Bool} (h : ∀ x, q x = true → keep x = true) :
    (rows.filter keep).filter q = rows.filter q := by
  rw [List.filter_filter]
  apply List.filter_congr
  intro x _
  cases hq : q x with
  | false => rfl
  | true => simp [h x hq]

theorem total_filter_le {α : Type} (value : α → ℕ) (q : α → Bool) (rows : List α) :
    total value (rows.filter q) ≤ total value rows := by
  induction rows with
  | nil => exact le_rfl
  | cons x rows ih =>
      rw [List.filter_cons, total_cons]
      split_ifs
      · rw [total_cons]
        omega
      · omega

theorem step_exact (h : Exact live s) (hs : Steps live s s') : Exact live s' := by
  cases hs with
  | insert block any hany hfits =>
      have hblock : ∀ c k, total (fun f => f.counter c) (block.filter fun f => groupKey f = k) < 2 ^ 64 :=
        fun c k => Nat.lt_of_le_of_lt (Nat.le_add_left _ _) (hfits k c)
      refine ⟨fun p hp c => ?_, fun k c => ?_, fun r hr hlive => ?_⟩
      · dsimp only
        rw [List.filter_append, List.filter_append, total_append, total_append, h.sums p hp c, view_total (hblock c)]
      · rw [ofKey, List.filter_append, total_append, view_total (hblock c) fun k' => k' = k]
        exact hfits k c
      · rcases List.mem_append.mp hr with hr | hr
        · obtain ⟨f, hf, hkey, hname⟩ := h.names r hr hlive
          exact ⟨f, List.mem_append_left _ hf, hkey, hname⟩
        · obtain ⟨f, hf, hkey, hname⟩ := view_name hany hr
          exact ⟨f, List.mem_append_right _ hf, hkey, hname⟩
  | merge hm =>
      refine ⟨fun p hp c => ?_, fun k c => ?_, fun r hr hlive => ?_⟩
      · exact (merge_total h.fits hm p c).trans (h.sums p hp c)
      · rw [ofKey, merge_total h.fits hm (fun k' => k' = k) c]
        exact h.fits k c
      · obtain ⟨q, hq, hkey, hname⟩ := merge_name hm hr
        obtain ⟨f, hf, hfkey, hfname⟩ := h.names q hq (hkey ▸ hlive)
        exact ⟨f, hf, hfkey.trans hkey, hfname.trans hname⟩
  | forgetFlows keep hk =>
      refine ⟨fun p hp c => ?_, h.fits, fun r hr hlive => ?_⟩
      · dsimp only
        rw [h.sums p hp c, filter_kept fun f hf => hk f.ts (hp _ hf)]
      · obtain ⟨f, hf, hkey, hname⟩ := h.names r hr hlive
        have hminute : live (toStartOfMinute f.ts) := by
          have hm : toStartOfMinute f.ts = r.key.minute := congrArg RollupKey.minute hkey
          rwa [hm]
        exact ⟨f, List.mem_filter.mpr ⟨hf, hk f.ts hminute⟩, hkey, hname⟩
  | forgetRollup keep hk =>
      refine ⟨fun p hp c => ?_, fun k c => ?_, fun r hr => h.names r (List.mem_filter.mp hr).1⟩
      · dsimp only
        rw [filter_kept fun r hr => hk r.key.minute (hp _ hr)]
        exact h.sums p hp c
      · refine Nat.lt_of_le_of_lt ?_ (h.fits k c)
        rw [ofKey, List.filter_comm]
        exact total_filter_le _ _ _

end Steps

/-- No process changes its name within a minute. -/
def OneName (live : ℤ → Prop) (s : Store) : Prop :=
  ∀ f ∈ s.flows, ∀ g ∈ s.flows, live (toStartOfMinute f.ts) → groupKey f = groupKey g → f.name = g.name

section Sums

variable {live : ℤ → Prop} {s : Store}

theorem run_exact (h : Relation.ReflTransGen (Steps live) ⟨[], []⟩ s) : Exact live s := by
  induction h with
  | refl => exact ⟨fun _ _ _ => rfl, fun _ _ => by simp [ofKey], by simp⟩
  | tail _ hs ih => exact step_exact ih hs

theorem named_sums (h : Exact live s) (hname : OneName live s) (p : RollupKey → String → Bool)
    (hp : ∀ k n, p k n = true → live k.minute) (c : Counter) :
    total (fun r => r.counter c) (s.rollup.filter fun r => p r.key r.name) =
      total (fun f => f.counter c) (s.flows.filter fun f => p (groupKey f) f.name) := by
  set nameOf : RollupKey → String := fun k => ((s.flows.find? fun f => groupKey f = k).map FlowRow.name).getD "" with hnameOf
  have hflow : ∀ f ∈ s.flows, live (toStartOfMinute f.ts) → nameOf (groupKey f) = f.name := by
    intro f hf hlive
    rw [hnameOf]
    dsimp only
    cases hfind : s.flows.find? fun g => groupKey g = groupKey f with
    | none => simpa using List.find?_eq_none.mp hfind f hf
    | some g =>
        have hkey : groupKey g = groupKey f := by simpa using List.find?_some hfind
        exact (hname f hf g (List.mem_of_find?_eq_some hfind) hlive hkey.symm).symm
  have hagree : ∀ k n, (live k.minute → nameOf k = n) → p k n = p k (nameOf k) := by
    intro k n hn
    by_cases hlive : live k.minute
    · rw [hn hlive]
    · have hnone : ∀ n, p k n = false := fun n => Bool.eq_false_iff.mpr fun hpk => hlive (hp k n hpk)
      rw [hnone, hnone]
  have hrollup : (s.rollup.filter fun r => p r.key r.name) = s.rollup.filter fun r => p r.key (nameOf r.key) := by
    apply List.filter_congr
    intro r hr
    refine hagree r.key r.name fun hlive => ?_
    obtain ⟨f, hf, hkey, hn⟩ := h.names r hr hlive
    have hminute : toStartOfMinute f.ts = r.key.minute := congrArg RollupKey.minute hkey
    rw [← hkey, ← hn]
    exact hflow f hf (hminute ▸ hlive)
  have hflows : (s.flows.filter fun f => p (groupKey f) f.name) = s.flows.filter fun f => p (groupKey f) (nameOf (groupKey f)) :=
    List.filter_congr fun f hf => hagree _ _ (hflow f hf)
  rw [hrollup, hflows]
  exact h.sums (fun k => p k (nameOf k)) (fun k => hp k _) c

/-- Whatever blocks the rows were inserted in, whichever names the view picked,
whatever was merged since and whatever else was deleted or has expired: the
rollup and the flows of live minutes agree on every selection by the columns they
share. -/
theorem rollup_sums (h : Relation.ReflTransGen (Steps live) ⟨[], []⟩ s) (hname : OneName live s)
    (p : RollupKey → String → Bool) (hp : ∀ k n, p k n = true → live k.minute) (c : Counter) :
    total (fun r => r.counter c) (s.rollup.filter fun r => p r.key r.name) =
      total (fun f => f.counter c) (s.flows.filter fun f => p (groupKey f) f.name) :=
  named_sums (run_exact h) hname p hp c

end Sums

section Sample

def sampleFlow (ts : ℤ) (tx : UInt64) : FlowRow :=
  ⟨ts, 1000, 7, 5, "curl", 1000, "TCP", "HTTPS", Vector.replicate 16 0, 443, 50000, tx, 0, 1, 0⟩

def sampleAny (names : List String) : String := names.headD ""

def sampleBlock : List FlowRow := [sampleFlow 61000 100, sampleFlow 62000 20]

def sampleRow (tx txCalls : UInt64) : RollupRow := ⟨groupKey (sampleFlow 60000 0), "curl", tx, 0, txCalls, 0⟩

def sampleStore : Store := ⟨sampleBlock ++ [sampleFlow 63000 3], [sampleRow 123 3]⟩

theorem sampleAny_mem : ∀ names, names ≠ [] → sampleAny names ∈ names := by
  intro names h
  cases names with
  | nil => exact absurd rfl h
  | cons n names => exact List.mem_cons_self

theorem sampleStore_reached : Relation.ReflTransGen (Steps fun _ => True) ⟨[], []⟩ sampleStore := by
  have hfits : ∀ (rollup : List RollupRow) (block : List FlowRow),
      (∀ c, total (fun r => r.counter c) rollup + total (fun f => f.counter c) block < 2 ^ 64) → ∀ k c,
        total (fun r => r.counter c) (ofKey RollupRow.key k rollup) +
          total (fun f => f.counter c) (block.filter fun f => groupKey f = k) < 2 ^ 64 := by
    intro rollup block h k c
    refine Nat.lt_of_le_of_lt ?_ (h c)
    exact Nat.add_le_add (total_filter_le _ _ _) (total_filter_le _ _ _)
  have hview : flows1mMv sampleAny sampleBlock = [sampleRow 120 2] := by rfl
  have hfirst : Steps (fun _ => True) ⟨[], []⟩ ⟨sampleBlock, [sampleRow 120 2]⟩ :=
    hview ▸ Steps.insert ⟨[], []⟩ sampleBlock sampleAny sampleAny_mem (hfits [] sampleBlock fun c => by cases c <;> decide)
  have hsecond : Steps (fun _ => True) ⟨sampleBlock, [sampleRow 120 2]⟩
      ⟨sampleBlock ++ [sampleFlow 63000 3], [sampleRow 120 2, sampleRow 3 1]⟩ :=
    Steps.insert ⟨sampleBlock, [sampleRow 120 2]⟩ [sampleFlow 63000 3] sampleAny sampleAny_mem
      (hfits [sampleRow 120 2] [sampleFlow 63000 3] fun c => by cases c <;> decide)
  have hjoin : Merge Joins Void [sampleRow 120 2, sampleRow 3 1] [sampleRow 123 3] :=
    .join (l := []) (m := []) (r := []) ⟨rfl, .inl rfl, rfl⟩
  have hmerge : Steps (fun _ => True) ⟨sampleBlock ++ [sampleFlow 63000 3], [sampleRow 120 2, sampleRow 3 1]⟩ sampleStore :=
    Steps.merge _ hjoin
  exact ((Relation.ReflTransGen.single hfirst).tail hsecond).tail hmerge

theorem sampleStore_oneName : OneName (fun _ => True) sampleStore := by
  have hname : ∀ f ∈ sampleStore.flows, f.name = "curl" := by decide
  exact fun f hf g hg _ _ => (hname f hf).trans (hname g hg).symm

theorem rollup_sums_sample :
    total (fun r => r.counter .txBytes) (sampleStore.rollup.filter fun r => r.key.app = "HTTPS" && r.name = "curl") =
      total (fun f => f.counter .txBytes) (sampleStore.flows.filter fun f => (groupKey f).app = "HTTPS" && f.name = "curl") :=
  rollup_sums sampleStore_reached sampleStore_oneName (fun k n => k.app = "HTTPS" && n = "curl") (fun _ _ _ => trivial)
    .txBytes

end Sample

section Answers

variable (column : RollupKey → String → Units) (filterSql : RollupKey → String → Bool)

def wholeMinute (ms : ℤ) : ℤ := -(-(ms.tdiv 1000) / 60) * 60000

def rawRange (r : Range) : Range :=
  { r with fromMs := wholeMinute r.fromMs, toMs := wholeMinute r.toMs, table := .flows, col := .ts }

variable {column filterSql}
variable {live : ℤ → Prop} {s : Store}

def sampleRange : Range := ⟨60000, 120000, 60, .flows1m, .minute⟩

end Answers

end NetWatch.History.Rollup
