import NetWatch.History.Rollup
import NetWatch.Lib.GroupFold
import NetWatch.Lib.SortBy

namespace NetWatch.History.BytesPerCall

open Kernel.Types Collector.SinkClickhouse Lib Lib.Assoc Lib.Buckets Lib.GroupFold Lib.SortBy
open Ranges Throughput Rollup

inductive BytesPerCallDir
  | tx
  | rx

inductive BytesPerCallBy
  | app
  | name

def bpcBuckets : ℕ := 21

def bpcTop : ℕ := 10

def dirCols : BytesPerCallDir → Counter × Counter
  | .tx => (.txBytes, .txCalls)
  | .rx => (.rxBytes, .rxCalls)

/-- What a query is asked for. `filterSql` are the page's filters, over columns
that both tables have. -/
structure Query where
  r : Range
  dir : BytesPerCallDir
  grouping : BytesPerCallBy
  filterSql : RollupKey → String → Bool
  inst : Option (UInt32 × UInt64)

namespace Query

variable (o : Query)

def column (k : RollupKey) (name : String) : String :=
  match o.grouping with
  | .app => k.app
  | .name => name

def selects (time : ℤ) (k : RollupKey) (name : String) : Bool :=
  (o.inst.all fun i => k.pid = i.1 && k.procStart = i.2) && timeFilter o.r time && o.filterSql k name

end Query

structure Source where
  k : String
  b : ℕ
  c : ℕ

def flowsSource (o : Query) (flows : List FlowRow) : List Source :=
  (flows.filter fun f => o.selects f.ts (groupKey f) f.name).map fun f =>
    ⟨o.column (groupKey f) f.name, f.counter (dirCols o.dir).1, f.counter (dirCols o.dir).2⟩

def toSource {K : Type} (e : (String × K) × ℕ × ℕ) : Source := ⟨e.1.1, e.2.1, e.2.2⟩

/-- Rows of the rollup are first summed per flow and minute. -/
def rollupSource (o : Query) (rollup : List RollupRow) : List Source :=
  (groupSums (fun r => (o.column r.key r.name, r.key))
    (fun r => (r.counter (dirCols o.dir).1, r.counter (dirCols o.dir).2))
    (rollup.filter fun r => o.selects r.key.minute r.key r.name)).map toSource

def minuteSource (o : Query) (flows : List FlowRow) : List Source :=
  (groupSums (fun f => (o.column (groupKey f) f.name, groupKey f))
    (fun f => (f.counter (dirCols o.dir).1, f.counter (dirCols o.dir).2))
    (flows.filter fun f => o.selects (toStartOfMinute f.ts) (groupKey f) f.name)).map toSource

structure BytesPerCallQueryRow where
  k : String
  bucket : ℕ
  calls : ℕ
  bytes : ℕ

def rowOrder : BytesPerCallQueryRow → BytesPerCallQueryRow → Ordering :=
  compareLex (compareOn BytesPerCallQueryRow.k) (compareOn BytesPerCallQueryRow.bucket)

instance : Std.TransCmp rowOrder :=
  inferInstanceAs (Std.TransCmp (compareLex (compareOn BytesPerCallQueryRow.k) (compareOn BytesPerCallQueryRow.bucket)))

structure BytesPerCallRow where
  key : Option String
  calls : Vector ℕ bpcBuckets
  bytes : Vector ℕ bpcBuckets
  totalCalls : ℕ
  totalBytes : ℕ

def emptyRow (key : Option String) : BytesPerCallRow := ⟨key, .replicate _ 0, .replicate _ 0, 0, 0⟩

def addInto (h from_ : BytesPerCallRow) : BytesPerCallRow where
  key := h.key
  calls := Vector.zipWith (· + ·) h.calls from_.calls
  bytes := Vector.zipWith (· + ·) h.bytes from_.bytes
  totalCalls := h.totalCalls + from_.totalCalls
  totalBytes := h.totalBytes + from_.totalBytes

def addQueryRow (h : BytesPerCallRow) (row : BytesPerCallQueryRow) : BytesPerCallRow where
  key := h.key
  calls := h.calls.mapIdx fun i n => if i = row.bucket then n + row.calls else n
  bytes := h.bytes.mapIdx fun i n => if i = row.bucket then n + row.bytes else n
  totalCalls := h.totalCalls + row.calls
  totalBytes := h.totalBytes + row.bytes

structure BytesPerCallResponse where
  total : BytesPerCallRow
  rows : List BytesPerCallRow
  folded : ℕ

section Build

-- `floorLog2 b c` is what ClickHouse has for `floor(log2(greatest(b / c, 1)))`.
variable (floorLog2 : ℕ → ℕ → ℕ) (localeCompare : String → String → Ordering)

def bucketOf (b c : ℕ) : ℕ := min (floorLog2 b c) (bpcBuckets - 1)

def bytesPerCallQuery (src : List Source) : List BytesPerCallQueryRow :=
  sortBy rowOrder ((groupSums (fun s => (s.k, bucketOf floorLog2 s.b s.c)) (fun s => (s.c, s.b))
    (src.filter fun s => 0 < s.c)).map fun e => ⟨e.1.1, e.1.2, e.2.1, e.2.2⟩)

def byKey (rows : List BytesPerCallQueryRow) : Dict String BytesPerCallRow :=
  groupFold BytesPerCallQueryRow.k (fun row => emptyRow (some row.k)) addQueryRow
    (rows.filter fun row => row.bucket < bpcBuckets)

def rowsOrder : BytesPerCallRow → BytesPerCallRow → Ordering :=
  compareLex (fun a b => compareOn BytesPerCallRow.totalCalls b a)
    fun a b => localeCompare (a.key.getD "null") (b.key.getD "null")

def foldRest (top : ℕ) (all : List BytesPerCallRow) : List BytesPerCallRow :=
  let rest := all.drop top
  all.take top ++ if rest.isEmpty then [] else [rest.foldl addInto (emptyRow none)]

def buildBytesPerCall (rows : List BytesPerCallQueryRow) (top : ℕ := bpcTop) : BytesPerCallResponse :=
  let all := sortBy (rowsOrder localeCompare) (byKey rows).values
  ⟨all.foldl addInto (emptyRow (some "")), foldRest top all, (all.drop top).length⟩

end Build

section Rollup

variable {floorLog2 : ℕ → ℕ → ℕ} {live : ℤ → Prop} {s : Store}

theorem rowOrder_eq {src : List Source} {a b : BytesPerCallQueryRow}
    (ha : a ∈ (groupSums (fun s : Source => (s.k, bucketOf floorLog2 s.b s.c)) (fun s => (s.c, s.b)) src).map
      fun e => (⟨e.1.1, e.1.2, e.2.1, e.2.2⟩ : BytesPerCallQueryRow))
    (hb : b ∈ (groupSums (fun s : Source => (s.k, bucketOf floorLog2 s.b s.c)) (fun s => (s.c, s.b)) src).map
      fun e => (⟨e.1.1, e.1.2, e.2.1, e.2.2⟩ : BytesPerCallQueryRow))
    (h : rowOrder a b = .eq) : a = b := by
  obtain ⟨e, he, rfl⟩ := List.mem_map.mp ha
  obtain ⟨e', he', rfl⟩ := List.mem_map.mp hb
  obtain ⟨hk, hbucket⟩ := lex_eq.mp h
  have hkey : e.1 = e'.1 := Prod.ext (Std.LawfulEqOrd.eq_of_compare hk) (Std.LawfulEqOrd.eq_of_compare hbucket)
  rw [List.inj_on_of_nodup_map (nodup_keys_groupSums src) he he' hkey]

theorem query_perm {src src' : List Source} (h : (src.filter fun s => 0 < s.c).Perm (src'.filter fun s => 0 < s.c)) :
    bytesPerCallQuery floorLog2 src = bytesPerCallQuery floorLog2 src' :=
  sortBy_congr ((groupSums_perm h).map _) fun _ ha _ hb => rowOrder_eq ha hb

/-- The histogram of the rollup is the one of the flows of whole minutes, summed per
flow and minute: blocks, merges, the names that the view picked, and rows of other
minutes that are gone make no difference. -/
theorem rollup_histogram (h : Relation.ReflTransGen (Steps live) ⟨[], []⟩ s) (hname : OneName live s) (o : Query)
    (hcol : o.r.col = .minute) (hlive : ∀ m, o.r.fromMs.tdiv 1000 ≤ m → m < o.r.toMs.tdiv 1000 → live m) :
    bytesPerCallQuery floorLog2 (rollupSource o s.rollup) = bytesPerCallQuery floorLog2 (minuteSource o s.flows) := by
  have hselected : ∀ g : String × RollupKey, ∀ k n,
      (o.selects k.minute k n && (o.column k n, k) = g) = true → live k.minute := by
    intro g k n hk
    simp only [Query.selects, Bool.and_eq_true, timeFilter, hcol, decide_eq_true_iff] at hk
    exact hlive k.minute hk.1.1.2.1 hk.1.1.2.2
  have hsums : ∀ g : String × RollupKey,
      total (fun r => (r.counter (dirCols o.dir).1, r.counter (dirCols o.dir).2))
          ((s.rollup.filter fun r => o.selects r.key.minute r.key r.name).filter fun r => (o.column r.key r.name, r.key) = g) =
        total (fun f => (f.counter (dirCols o.dir).1, f.counter (dirCols o.dir).2))
          ((s.flows.filter fun f => o.selects (toStartOfMinute f.ts) (groupKey f) f.name).filter fun f =>
            (o.column (groupKey f) f.name, groupKey f) = g) := by
    intro g
    have hone := named_sums (run_exact h) hname (fun k n => o.selects k.minute k n && (o.column k n, k) = g) (hselected g)
    rw [List.filter_filter, List.filter_filter]
    simp only [Bool.and_comm (decide _)]
    refine Prod.ext ?_ ?_
    · rw [total_fst, total_fst]
      exact hone _
    · rw [total_snd, total_snd]
      exact hone _
  have hperm := groupSums_filter_perm (fun m : ℕ × ℕ => decide (0 < m.2)) hsums rfl
  apply query_perm
  rw [rollupSource, minuteSource, List.filter_map, List.filter_map]
  exact hperm.map _

end Rollup

inductive Cell
  | calls (i : Fin bpcBuckets)
  | bytes (i : Fin bpcBuckets)
  | totalCalls
  | totalBytes

namespace Cell

def get (m : Cell) (h : BytesPerCallRow) : ℕ :=
  match m with
  | .calls i => h.calls[i]
  | .bytes i => h.bytes[i]
  | .totalCalls => h.totalCalls
  | .totalBytes => h.totalBytes

def weigh (m : Cell) (bucket : ℕ) : ℕ × ℕ →+ ℕ :=
  match m with
  | .calls i => if i = bucket then .fst ℕ ℕ else 0
  | .bytes i => if i = bucket then .snd ℕ ℕ else 0
  | .totalCalls => .fst ℕ ℕ
  | .totalBytes => .snd ℕ ℕ

def ofRow (m : Cell) (row : BytesPerCallQueryRow) : ℕ := m.weigh row.bucket (row.calls, row.bytes)

def ofSource (floorLog2 : ℕ → ℕ → ℕ) (m : Cell) (s : Source) : ℕ :=
  if 0 < s.c then m.weigh (bucketOf floorLog2 s.b s.c) (s.c, s.b) else 0

end Cell

section Contents

variable {floorLog2 : ℕ → ℕ → ℕ} {localeCompare : String → String → Ordering} {src : List Source}
  {rows : List BytesPerCallQueryRow} {top : ℕ}

theorem cell_emptyRow (key : Option String) (m : Cell) : m.get (emptyRow key) = 0 := by
  cases m <;> simp [Cell.get, emptyRow]

theorem cell_addInto (h h' : BytesPerCallRow) (m : Cell) : m.get (addInto h h') = m.get h + m.get h' := by
  cases m <;> simp [Cell.get, addInto]

theorem cell_addQueryRow (h : BytesPerCallRow) (row : BytesPerCallQueryRow) (m : Cell) :
    m.get (addQueryRow h row) = m.get h + m.ofRow row := by
  cases m with
  | calls i | bytes i =>
      by_cases hi : i = row.bucket <;> simp [Cell.get, Cell.ofRow, Cell.weigh, addQueryRow, hi]
  | totalCalls | totalBytes => rfl

theorem cell_foldl (l : List BytesPerCallRow) (h : BytesPerCallRow) (m : Cell) :
    m.get (l.foldl addInto h) = m.get h + total m.get l := by
  induction l generalizing h with
  | nil => exact (Nat.add_zero _).symm
  | cons x l ih => rw [List.foldl_cons, ih, cell_addInto, total_cons, Nat.add_assoc]

theorem bucket_lt {row : BytesPerCallQueryRow} (h : row ∈ bytesPerCallQuery floorLog2 src) : row.bucket < bpcBuckets := by
  obtain ⟨e, he, rfl⟩ := List.mem_map.mp (mem_sortBy.mp h)
  obtain ⟨s, hs, hkey⟩ := List.mem_map.mp (mem_groupSums.mp he).1
  dsimp only
  rw [← hkey]
  exact Nat.lt_of_le_of_lt (Nat.min_le_right _ _) (Nat.sub_lt (Nat.succ_pos _) Nat.one_pos)

def keysOf (src : List Source) : List String := ((src.filter fun s => 0 < s.c).map Source.k).dedup

theorem mem_keys_query {k : String} : k ∈ (bytesPerCallQuery floorLog2 src).map BytesPerCallQueryRow.k ↔ k ∈ keysOf src := by
  rw [keysOf, List.mem_dedup, bytesPerCallQuery, ((sortBy_perm _).map _).mem_iff, List.map_map, List.mem_map, List.mem_map]
  constructor
  · rintro ⟨e, he, rfl⟩
    obtain ⟨s, hs, hkey⟩ := List.mem_map.mp (mem_groupSums.mp he).1
    exact ⟨s, hs, congrArg Prod.fst hkey⟩
  · rintro ⟨s, hs, rfl⟩
    have hmem : (s.k, bucketOf floorLog2 s.b s.c) ∈ (groupSums (fun s : Source => (s.k, bucketOf floorLog2 s.b s.c))
        (fun s => (s.c, s.b)) (src.filter fun s => 0 < s.c)).map Prod.fst := by
      rw [keys_groupSums, List.mem_dedup]
      exact List.mem_map.mpr ⟨s, hs, rfl⟩
    obtain ⟨e, he, hkey⟩ := List.mem_map.mp hmem
    exact ⟨e, he, congrArg Prod.fst hkey⟩

/-- The rows of the query add up to the source rows in each place, over any
selection of keys. -/
theorem query_cells (p : String → Bool) (m : Cell) :
    total m.ofRow ((bytesPerCallQuery floorLog2 src).filter fun row => p row.k) =
      total (m.ofSource floorLog2) (src.filter fun s => p s.k) := by
  have hgroups : total (fun e => m.weigh e.1.2 e.2)
      ((groupSums (fun s : Source => (s.k, bucketOf floorLog2 s.b s.c)) (fun s => (s.c, s.b))
        (src.filter fun s => 0 < s.c)).filter fun e => p e.1.1) =
      total (fun s => m.weigh (bucketOf floorLog2 s.b s.c) (s.c, s.b)) ((src.filter fun s => 0 < s.c).filter fun s => p s.k) :=
    total_groupSums (fun g : String × ℕ => m.weigh g.2) (fun g => p g.1) (src.filter fun s => 0 < s.c)
  have hsource : total (m.ofSource floorLog2) (src.filter fun s => p s.k) =
      total (fun s => m.weigh (bucketOf floorLog2 s.b s.c) (s.c, s.b)) ((src.filter fun s => 0 < s.c).filter fun s => p s.k) := by
    rw [List.filter_comm]
    exact total_ite _ _ _
  rw [hsource, ← hgroups, bytesPerCallQuery, total_perm ((sortBy_perm _).filter _), List.filter_map, total_map]
  rfl

theorem byKey_eq : byKey (bytesPerCallQuery floorLog2 src) =
    groupFold BytesPerCallQueryRow.k (fun row => emptyRow (some row.k)) addQueryRow (bytesPerCallQuery floorLog2 src) := by
  have hall : (bytesPerCallQuery floorLog2 src).filter (fun row => row.bucket < bpcBuckets) = bytesPerCallQuery floorLog2 src := by
    apply List.filter_eq_self.mpr
    intro row hrow
    exact decide_eq_true (bucket_lt hrow)
  rw [byKey, hall]

theorem byKey_query {k : String} (m : Cell) {h : BytesPerCallRow} (hget : (byKey (bytesPerCallQuery floorLog2 src)).get? k = some h) :
    h.key = some k ∧ m.get h = total (m.ofSource floorLog2) (src.filter fun s => s.k = k) := by
  rw [byKey_eq] at hget
  constructor
  · have hkeep : ∀ h row, (addQueryRow h row).key = h.key := fun _ _ => rfl
    have hfresh : ∃ row ∈ bytesPerCallQuery floorLog2 src, row.k = k ∧ h.key = (emptyRow (some row.k)).key :=
      get?_groupFold_fresh hkeep hget
    obtain ⟨row, -, rfl, hkey⟩ := hfresh
    exact hkey
  · have hcells : m.get h = total m.ofRow (GroupFold.ofKey BytesPerCallQueryRow.k k (bytesPerCallQuery floorLog2 src)) := by
      refine get?_groupFold_total ?_ ?_ hget
      · intro row _
        exact cell_emptyRow _ m
      · intro h row
        exact cell_addQueryRow h row m
    rw [hcells, ← query_cells fun k' => k' = k]
    rfl

theorem keys_byKey : ((byKey (bytesPerCallQuery floorLog2 src)).entries.map Prod.fst).Perm (keysOf src) := by
  apply (List.perm_ext_iff_of_nodup (byKey _).nodup (List.nodup_dedup _)).mpr
  intro k
  rw [byKey_eq, mem_keys_groupFold]
  exact mem_keys_query

theorem keys_values : (byKey (bytesPerCallQuery floorLog2 src)).values.map BytesPerCallRow.key =
    ((byKey (bytesPerCallQuery floorLog2 src)).entries.map Prod.fst).map some :=
  values_map _ _ some fun _ _ hget => (byKey_query .totalCalls hget).1

theorem values_total (m : Cell) : total m.get (byKey (bytesPerCallQuery floorLog2 src)).values = total (m.ofSource floorLog2) src := by
  have hvalues : (byKey (bytesPerCallQuery floorLog2 src)).values.map m.get =
      ((byKey (bytesPerCallQuery floorLog2 src)).entries.map Prod.fst).map fun k =>
        total m.ofRow (GroupFold.ofKey BytesPerCallQueryRow.k k (bytesPerCallQuery floorLog2 src)) := by
    refine values_map _ _ _ fun k h hget => ?_
    rw [(byKey_query m hget).2, ← query_cells fun k' => k' = k]
    rfl
  have hall : total m.ofRow (bytesPerCallQuery floorLog2 src) = total (m.ofSource floorLog2) src := by
    have hcells : total m.ofRow ((bytesPerCallQuery floorLog2 src).filter fun _ => true) = _ := query_cells (fun _ => true) m
    rwa [List.filter_true, List.filter_true] at hcells
  have hkeys : (((bytesPerCallQuery floorLog2 src).map BytesPerCallQueryRow.k).dedup.map fun k =>
      total m.ofRow (GroupFold.ofKey BytesPerCallQueryRow.k k (bytesPerCallQuery floorLog2 src))).sum = _ :=
    sum_keys (bytesPerCallQuery floorLog2 src)
  rw [← hall, ← hkeys, total, hvalues, byKey_eq]
  exact ((keys_groupFold_perm _).map _).sum_eq

/-- What a histogram says of its source rows. -/
structure Accounts (floorLog2 : ℕ → ℕ → ℕ) (src : List Source) (top : ℕ) (res : BytesPerCallResponse) : Prop where
  total : ∀ m : Cell, m.get res.total = Buckets.total (m.ofSource floorLog2) src
  rows : ∀ m : Cell, Buckets.total m.get res.rows = m.get res.total
  named : ∀ h ∈ res.rows, ∀ k, h.key = some k → ∀ m : Cell,
    m.get h = Buckets.total (m.ofSource floorLog2) (src.filter fun s => s.k = k)
  distinct : (res.rows.map BytesPerCallRow.key).Nodup
  count : (res.rows.filter fun h => h.key.isSome).length = min top (keysOf src).length
  folded : res.folded = (keysOf src).length - top
  largest : ∀ h ∈ res.rows, h.key.isSome → ∀ k ∈ keysOf src, some k ∉ res.rows.map BytesPerCallRow.key →
    Buckets.total Source.c (src.filter fun s => s.k = k) ≤ h.totalCalls
  descending : (res.rows.filter fun h => h.key.isSome).Pairwise fun a b => b.totalCalls ≤ a.totalCalls

theorem ofSource_totalCalls (s : Source) : Cell.totalCalls.ofSource floorLog2 s = s.c := by
  rw [Cell.ofSource]
  split
  · rfl
  · omega

theorem total_foldRest (m : Cell) (all : List BytesPerCallRow) : total m.get (foldRest top all) = total m.get all := by
  have hsplit : total m.get (all.take top) + total m.get (all.drop top) = total m.get all := by
    rw [← total_append, List.take_append_drop]
  rw [foldRest, total_append, ← hsplit]
  cases hrest : all.drop top with
  | nil => rfl
  | cons h rest => simp only [List.isEmpty_cons, Bool.false_eq_true, if_false, total_cons, total_nil, cell_foldl,
      cell_emptyRow, Nat.zero_add, Nat.add_zero]

theorem key_foldl (l : List BytesPerCallRow) (h : BytesPerCallRow) : (l.foldl addInto h).key = h.key := by
  induction l generalizing h with
  | nil => rfl
  | cons x l ih => exact ih _

theorem named_foldRest {all : List BytesPerCallRow} (hall : ∀ h ∈ all, h.key.isSome = true) :
    ((foldRest top all).filter fun h => h.key.isSome) = all.take top := by
  rw [foldRest, List.filter_append, List.filter_eq_self.mpr fun h hmem => hall h (List.mem_of_mem_take hmem)]
  cases hrest : all.drop top with
  | nil => exact List.append_nil _
  | cons h rest => simp [key_foldl, emptyRow, addInto]

variable [Std.TransCmp localeCompare]

instance : Std.TransCmp (rowsOrder localeCompare) :=
  have := transCmp_on localeCompare fun h : BytesPerCallRow => h.key.getD "null"
  inferInstanceAs (Std.TransCmp (compareLex (fun a b => compareOn BytesPerCallRow.totalCalls b a) fun _ _ => localeCompare _ _))

omit [Std.TransCmp localeCompare] in
theorem calls_le {a b : BytesPerCallRow} (h : Upto (rowsOrder localeCompare) a b) : b.totalCalls ≤ a.totalCalls := by
  have hfirst : compare b.totalCalls a.totalCalls ≠ .gt := by
    intro hgt
    rw [Upto, rowsOrder, compareLex, compareOn, hgt] at h
    cases h
  exact Nat.compare_ne_gt.mp hfirst

/-- The histogram has for every key it names the calls and bytes of its source rows,
bucket by bucket, the rest in one row, and names those with the most calls. -/
theorem buildBytesPerCall_accounts (src : List Source) (top : ℕ) :
    Accounts floorLog2 src top (buildBytesPerCall localeCompare (bytesPerCallQuery floorLog2 src) top) := by
  rw [buildBytesPerCall]
  have hperm : (sortBy (rowsOrder localeCompare) (byKey (bytesPerCallQuery floorLog2 src)).values).Perm
      (byKey (bytesPerCallQuery floorLog2 src)).values := sortBy_perm _
  have hsorted : (sortBy (rowsOrder localeCompare) (byKey (bytesPerCallQuery floorLog2 src)).values).Pairwise
      (Upto (rowsOrder localeCompare)) := sortBy_pairwise _
  generalize sortBy (rowsOrder localeCompare) (byKey (bytesPerCallQuery floorLog2 src)).values = all at hperm hsorted
  have hrow : ∀ h ∈ all, ∃ k, h.key = some k ∧ ∀ m : Cell, m.get h = total (m.ofSource floorLog2) (src.filter fun s => s.k = k) := by
    intro h hmem
    obtain ⟨k, hget⟩ := (Dict.mem_values _ h).mp (hperm.mem_iff.mp hmem)
    exact ⟨k, (byKey_query .totalCalls hget).1, fun m => (byKey_query m hget).2⟩
  have hsome : ∀ h ∈ all, h.key.isSome = true := by
    intro h hmem
    obtain ⟨k, hk, -⟩ := hrow h hmem
    rw [hk]
    rfl
  have hkeys : (all.map BytesPerCallRow.key).Perm ((keysOf src).map some) := by
    refine (hperm.map _).trans ?_
    rw [keys_values]
    exact keys_byKey.map some
  have hlength : all.length = (keysOf src).length := by
    simpa using hkeys.length_eq
  have hnamed : ((foldRest top all).filter fun h => h.key.isSome) = all.take top := named_foldRest hsome
  have hshown : ∀ h ∈ foldRest top all, h.key.isSome = true → h ∈ all.take top := by
    intro h hmem hkey
    rw [← hnamed]
    exact List.mem_filter.mpr ⟨hmem, hkey⟩
  have htotal : ∀ m : Cell, m.get (all.foldl addInto (emptyRow (some ""))) = total m.get all := by
    intro m
    rw [cell_foldl, cell_emptyRow, Nat.zero_add]
  constructor
  · intro m
    rw [htotal, total_perm hperm, values_total]
  · intro m
    rw [htotal, total_foldRest]
  · intro h hmem k hk m
    obtain ⟨k', hk', hcells⟩ := hrow h (List.mem_of_mem_take (hshown h hmem (by rw [hk]; rfl)))
    cases hk.symm.trans hk'
    exact hcells m
  · have htake : ((all.take top).map BytesPerCallRow.key).Nodup := by
      have hnodup : (all.map BytesPerCallRow.key).Nodup :=
        hkeys.nodup_iff.mpr ((List.nodup_dedup _).map (Option.some_injective _))
      exact hnodup.sublist ((List.take_sublist _ _).map _)
    rw [foldRest, List.map_append]
    cases hrest : all.drop top with
    | nil => simpa using htake
    | cons h rest =>
        rw [List.isEmpty_cons, if_neg Bool.false_ne_true, List.map_singleton, key_foldl]
        refine List.nodup_append.mpr ⟨htake, List.nodup_singleton _, fun a ha b hb => ?_⟩
        obtain ⟨x, hx, rfl⟩ := List.mem_map.mp ha
        rw [List.mem_singleton.mp hb]
        intro heq
        have hkey := hsome x (List.mem_of_mem_take hx)
        rw [heq] at hkey
        cases hkey
  · rw [hnamed, List.length_take, hlength]
  · rw [List.length_drop, hlength]
  · intro h hmem hkey k hk hhidden
    have htaken := hshown h hmem hkey
    obtain ⟨x, hx, hxk⟩ := List.mem_map.mp (hkeys.mem_iff.mpr (List.mem_map_of_mem (f := some) hk))
    have hdropped : x ∈ all.drop top := by
      rw [← List.take_append_drop top all] at hx
      refine (List.mem_append.mp hx).resolve_left fun htake => hhidden ?_
      rw [← hxk]
      exact List.mem_map_of_mem (List.mem_append_left _ htake)
    have hle : x.totalCalls ≤ h.totalCalls := by
      rw [← List.take_append_drop top all, List.pairwise_append] at hsorted
      exact calls_le (hsorted.2.2 h htaken x hdropped)
    obtain ⟨k', hk', hcells⟩ := hrow x hx
    cases hxk.symm.trans hk'
    have hcalls : x.totalCalls = total (Cell.totalCalls.ofSource floorLog2) _ := hcells .totalCalls
    rw [funext ofSource_totalCalls] at hcalls
    exact hcalls ▸ hle
  · rw [hnamed]
    exact (hsorted.sublist (List.take_sublist _ _)).imp calls_le

end Contents

section Sample

def sampleLog2 (b c : ℕ) : ℕ := Nat.log2 (b / c)

def sampleQuery : Query := ⟨sampleRange, .tx, .app, fun _ _ => true, none⟩

theorem rollup_histogram_sample :
    bytesPerCallQuery sampleLog2 (rollupSource sampleQuery sampleStore.rollup) =
        bytesPerCallQuery sampleLog2 (minuteSource sampleQuery sampleStore.flows) ∧
      (bytesPerCallQuery sampleLog2 (rollupSource sampleQuery sampleStore.rollup)).map
        (fun row => (row.k, row.bucket, row.calls, row.bytes)) = [("HTTPS", 5, 3, 123)] :=
  ⟨rollup_histogram sampleStore_reached sampleStore_oneName sampleQuery rfl fun _ _ _ => trivial, by decide +kernel⟩

def sampleCalls (app : String) (bytes : UInt64) (calls : UInt32) : FlowRow :=
  { sampleFlow 61000 bytes with app := app, txCalls := calls }

def sampleSources : List Source :=
  flowsSource { sampleQuery with r := rawRange sampleRange }
    [sampleCalls "DNS" 100 2, sampleCalls "HTTPS" 5000 3, sampleCalls "SSH" 64 1, sampleCalls "DNS" 10 0]

theorem buildBytesPerCall_accounts_sample :
    Accounts sampleLog2 sampleSources 1 (buildBytesPerCall compare (bytesPerCallQuery sampleLog2 sampleSources) 1) ∧
      (buildBytesPerCall compare (bytesPerCallQuery sampleLog2 sampleSources) 1).rows.map
        (fun h => (h.key, h.totalCalls, h.totalBytes)) = [(some "HTTPS", 3, 5000), (none, 3, 164)] :=
  ⟨buildBytesPerCall_accounts sampleSources 1, by decide +kernel⟩

end Sample

end NetWatch.History.BytesPerCall
