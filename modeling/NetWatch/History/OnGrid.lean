import NetWatch.History.Grid
import NetWatch.Lib.GroupFold

namespace NetWatch.History.OnGrid

open Lib Lib.Assoc Lib.Buckets Lib.JsNumber Lib.JsValue Ranges Throughput Grid
open Lib.GroupFold (ofKey)

/-- The bucket that a row of time `t` is put into. -/
def place (r : Range) (t : ℤ) : Option ℕ := bucketIndex r.fromMs (fl (r.step * 1000)) (bucketCount r) t

def timeMs (r : Range) (time : ℤ) : ℤ :=
  match r.col with
  | .ts => time
  | .minute => time * 1000

section Place

variable {r : Range} (h : Aligned r) {time : ℤ}
include h

theorem selected_bounds (hs : timeFilter r time = true) : r.fromMs ≤ timeMs r time ∧ timeMs r time < r.toMs := by
  rcases h.source with ⟨-, hcol⟩ | ⟨-, hcol, -⟩
  · simpa [timeFilter, timeMs, hcol] using hs
  · obtain ⟨d, hd⟩ := h.whole
    have hnonneg := h.nonneg
    have horder := h.order
    rw [timeFilter, hcol, Int.tdiv_eq_ediv_of_nonneg hnonneg, Int.tdiv_eq_ediv_of_nonneg (by omega)] at hs
    simp only [Bool.and_eq_true, decide_eq_true_iff] at hs
    simp only [timeMs, hcol]
    have hwhole : r.fromMs = 1000 * (r.step * d) := by rw [hd]; ring
    omega

theorem bucketSeconds_ms : bucketSeconds r time * 1000 = timeMs r time / (r.step * 1000) * (r.step * 1000) := by
  have hpos := h.offered.pos
  rcases h.source with ⟨-, hcol⟩ | ⟨-, hcol, -⟩
  · simp only [bucketSeconds, timeMs, hcol]
    rw [Int.ediv_ediv_of_nonneg (by norm_num), mul_comm 1000 r.step]
    ring
  · simp only [bucketSeconds, timeMs, hcol]
    rw [Int.mul_ediv_mul_of_pos_left _ _ (by norm_num)]
    ring

theorem place_selected (hs : timeFilter r time = true) :
    ∃ i : ℕ, (i : ℤ) < bucketCount r ∧ place r (bucketSeconds r time) = some i := by
  obtain ⟨hlow, hhigh⟩ := selected_bounds h hs
  obtain ⟨i, hi, hplace, -⟩ := h.window.index hlow hhigh (bucketSeconds_ms h)
  rw [place, h.bucketCount_eq, h.offered.fl_stepMs]
  exact ⟨i, hi, hplace⟩

theorem place_iff (hs : timeFilter r time = true) (i : ℕ) : place r (bucketSeconds r time) = some i ↔
    r.fromMs + i * (r.step * 1000) ≤ timeMs r time ∧ timeMs r time < r.fromMs + (i + 1) * (r.step * 1000) := by
  obtain ⟨hlow, hhigh⟩ := selected_bounds h hs
  rw [place, h.bucketCount_eq, h.offered.fl_stepMs]
  exact h.window.index_iff hlow hhigh (bucketSeconds_ms h) i

end Place

section Query

variable {r : Range} {stored : List Stored} {rows : List ThroughputRow}

/-- The rows of the answer add up to the stored ones, also those of some buckets and
keys only. -/
theorem query_total (hrows : rows.Perm (throughputQuery r stored)) (p : ℤ → Units → Bool) :
    total (fun row => (row.tx, row.rx)) (rows.filter fun row => p row.t row.key) =
      total (fun s => (s.tx, s.rx)) ((selected r stored).filter fun s => p (bucketSeconds r s.time) s.key) := by
  have hgroups := total_groups (fun s : Stored => (bucketSeconds r s.time, s.key)) (fun s => (s.tx, s.rx))
    (fun g => p g.1 g.2) (selected r stored)
  rw [total_perm (hrows.filter _), throughputQuery, List.filter_map, total_map]
  exact hgroups

theorem mem_query (hrows : rows.Perm (throughputQuery r stored)) {t : ℤ} {k : Units} :
    (∃ row ∈ rows, row.t = t ∧ row.key = k) ↔ ∃ s ∈ selected r stored, bucketSeconds r s.time = t ∧ s.key = k := by
  constructor
  · rintro ⟨row, hrow, rfl, rfl⟩
    obtain ⟨e, he, rfl⟩ := List.mem_map.mp (hrows.mem_iff.mp hrow)
    obtain ⟨g, hg, rfl⟩ := List.mem_map.mp he
    obtain ⟨s, hs, rfl⟩ := List.mem_map.mp (List.mem_dedup.mp hg)
    exact ⟨s, hs, rfl, rfl⟩
  · rintro ⟨s, hs, rfl, rfl⟩
    have hg := List.mem_dedup.mpr (List.mem_map_of_mem (f := fun s : Stored => (bucketSeconds r s.time, s.key)) hs)
    exact ⟨_, hrows.mem_iff.mpr (List.mem_map_of_mem (List.mem_map_of_mem hg)), rfl, rfl⟩

theorem rows_placed (h : Aligned r) (hrows : rows.Perm (throughputQuery r stored)) :
    ∀ row ∈ rows, ∃ i : ℕ, (i : ℤ) < bucketCount r ∧ place r row.t = some i := by
  intro row hrow
  obtain ⟨s, hs, ht, -⟩ := (mem_query hrows).mp ⟨row, hrow, rfl, rfl⟩
  rw [← ht]
  exact place_selected h (List.mem_filter.mp hs).2

end Query

section Keys

variable {r : Range} {dir : ThroughputDir} {rows : List ThroughputRow}

def seriesOf (r : Range) (dir : ThroughputDir) (rows : List ThroughputRow) : Series where
  tx := fill (fun row => place r row.t) ThroughputRow.tx (bucketCount r).toNat rows
  rx := fill (fun row => place r row.t) ThroughputRow.rx (bucketCount r).toNat rows
  total := total dir.pick rows

theorem seriesOf_snoc {row : ThroughputRow} {i : ℕ} (hi : place r row.t = some i) :
    seriesOf r dir (rows ++ [row]) = (seriesOf r dir rows).add dir i row := by
  simp only [seriesOf, Series.add, fill_snoc, hi, Option.elim_some, total_append, total_cons, total_nil, add_zero]

theorem byKey_snoc {row : ThroughputRow} {i : ℕ} (hi : place r row.t = some i) : byKey (rows ++ [row]) r dir =
    (byKey rows r dir).insert row.key ((((byKey rows r dir).get? row.key).getD (seriesOf r dir [])).add dir i row) := by
  have hstep : byKey (rows ++ [row]) r dir = (place r row.t).elim (byKey rows r dir) fun i =>
      (byKey rows r dir).insert row.key ((((byKey rows r dir).get? row.key).getD (seriesOf r dir [])).add dir i row) := by
    rw [byKey, List.foldl_append]
    rfl
  rw [hstep, hi, Option.elim_some]

theorem byKey_get? (hplaced : ∀ row ∈ rows, ∃ i : ℕ, (i : ℤ) < bucketCount r ∧ place r row.t = some i) (k : Units) :
    (byKey rows r dir).get? k = if ofKey ThroughputRow.key k rows = [] then none else some (seriesOf r dir (ofKey ThroughputRow.key k rows)) := by
  induction rows using List.reverseRecOn with
  | nil => rfl
  | append_singleton rows row ih =>
      have hrest := ih fun row' hrow' => hplaced row' (List.mem_append_left _ hrow')
      obtain ⟨i, -, hi⟩ := hplaced row (by simp)
      rw [byKey_snoc hi, Dict.get?_insert]
      by_cases hk : k = row.key
      · subst hk
        have hsnoc : ofKey ThroughputRow.key row.key (rows ++ [row]) = ofKey ThroughputRow.key row.key rows ++ [row] := by simp [ofKey]
        have hseries : ((byKey rows r dir).get? row.key).getD (seriesOf r dir []) = seriesOf r dir (ofKey ThroughputRow.key row.key rows) := by
          rw [hrest]
          split_ifs with hnil
          · rw [hnil, Option.getD_none]
          · rw [Option.getD_some]
        rw [if_pos rfl, hseries, hsnoc, ← seriesOf_snoc hi, if_neg (by simp)]
      · have hsame : ofKey ThroughputRow.key k (rows ++ [row]) = ofKey ThroughputRow.key k rows := by simp [ofKey, Ne.symm hk]
        rw [if_neg hk, hsame, hrest]

theorem mem_byKey (hplaced : ∀ row ∈ rows, ∃ i : ℕ, (i : ℤ) < bucketCount r ∧ place r row.t = some i) (k : Units) :
    k ∈ (byKey rows r dir).entries.map Prod.fst ↔ ∃ row ∈ rows, row.key = k := by
  rw [Dict.mem_keys, byKey_get? hplaced]
  split_ifs with hnil
  · rw [ofKey, List.filter_eq_nil_iff] at hnil
    refine iff_of_false (by simp) ?_
    rintro ⟨row, hrow, hk⟩
    exact hnil row hrow (decide_eq_true hk)
  · obtain ⟨row, hrow⟩ := List.exists_mem_of_ne_nil _ hnil
    obtain ⟨hmem, hk⟩ := List.mem_filter.mp hrow
    exact iff_of_true ⟨_, rfl⟩ ⟨row, hmem, of_decide_eq_true hk⟩

theorem values_sum (column : Series → List ℕ) {value : ThroughputRow → ℕ}
    (hcolumn : ∀ rows, column (seriesOf r dir rows) = fill (fun row => place r row.t) value (bucketCount r).toNat rows)
    (hplaced : ∀ row ∈ rows, ∃ i : ℕ, (i : ℤ) < bucketCount r ∧ place r row.t = some i) :
    ((byKey rows r dir).values.map fun s => (column s).sum).sum = total value rows := by
  have hentry : ∀ e ∈ (byKey rows r dir).entries, (column e.2).sum = total value (ofKey ThroughputRow.key e.1 rows) := by
    intro e he
    have hget := (Dict.mem_iff_get? _ e.1 e.2).mp he
    rw [byKey_get? hplaced] at hget
    split_ifs at hget
    rw [← Option.some.inj hget, hcolumn, sum_fill]
    intro row hrow
    obtain ⟨i, hi, hplace⟩ := hplaced row (List.mem_filter.mp hrow).1
    exact ⟨i, by omega, hplace⟩
  have hkeys := (byKey rows r dir).nodup
  calc ((byKey rows r dir).values.map fun s => (column s).sum).sum
      = (((byKey rows r dir).entries.map Prod.fst).map fun k => total value (ofKey ThroughputRow.key k rows)).sum := by
        rw [Dict.values, List.map_map, List.map_map]
        exact congrArg List.sum (List.map_congr_left hentry)
    _ = ∑ k ∈ ((byKey rows r dir).entries.map Prod.fst).toFinset, total value (ofKey ThroughputRow.key k rows) :=
        (List.sum_toFinset _ hkeys).symm
    _ = total value rows := by
        apply sum_fibers ThroughputRow.key
        intro row hrow
        exact List.mem_toFinset.mpr ((mem_byKey hplaced row.key).mpr ⟨row, hrow, rfl⟩)

end Keys

section Order

/-- The order of the keys: by total, then by key, and the other keys last. -/
def Before (totals : Units → ℕ) (a b : Units) : Prop :=
  a ≠ throughputOther ∧ (b = throughputOther ∨ totals b < totals a ∨ totals a = totals b ∧ a < b)

variable {totals : Units → ℕ} {a b c : Units}

theorem Before.trans (hab : Before totals a b) (hbc : Before totals b c) : Before totals a c := by
  obtain ⟨ha, hab⟩ := hab
  obtain ⟨hb, hbc⟩ := hbc
  refine ⟨ha, ?_⟩
  rcases hbc with rfl | hlt | ⟨heq, hlt⟩
  · exact .inl rfl
  · rcases hab with rfl | hlt' | ⟨heq', -⟩
    · exact absurd rfl hb
    · exact .inr (.inl (hlt.trans hlt'))
    · exact .inr (.inl (heq' ▸ hlt))
  · rcases hab with rfl | hlt' | ⟨heq', hlt'⟩
    · exact absurd rfl hb
    · exact .inr (.inl (heq ▸ hlt'))
    · exact .inr (.inr ⟨heq'.trans heq, List.lt_trans hlt' hlt⟩)

theorem before_or_after (hne : a ≠ b) : Before totals a b ∨ Before totals b a := by
  by_cases ha : a = throughputOther
  · exact .inr ⟨fun hb => hne (ha.trans hb.symm), .inl ha⟩
  by_cases hb : b = throughputOther
  · exact .inl ⟨ha, .inl hb⟩
  rcases lt_trichotomy (totals a) (totals b) with hlt | heq | hlt
  · exact .inr ⟨hb, .inr (.inl hlt)⟩
  · by_cases hab : a < b
    · exact .inl ⟨ha, .inr (.inr ⟨heq, hab⟩)⟩
    · by_cases hba : b < a
      · exact .inr ⟨hb, .inr (.inr ⟨heq.symm, hba⟩)⟩
      · exact absurd (List.le_antisymm hba hab) hne
  · exact .inl ⟨ha, .inr (.inl hlt)⟩

theorem keyCompare_iff (hne : a ≠ b) : keyCompare totals a b ≤ 0 ↔ Before totals a b := by
  rw [keyCompare, Before]
  split_ifs with hother ha heq hab hba
  · exact iff_of_false (by norm_num) fun h => h.1 ha
  · exact iff_of_true (by norm_num) ⟨ha, .inl (hother.resolve_left ha)⟩
  · rw [not_or] at hother
    constructor
    · exact fun hle => ⟨hother.1, .inr (.inl (by omega))⟩
    · rintro ⟨-, hb | hlt | ⟨hsame, -⟩⟩
      · exact absurd hb hother.2
      · omega
      · exact absurd hsame.symm heq
  · rw [not_or] at hother
    exact iff_of_true (by norm_num) ⟨hother.1, .inr (.inr ⟨(not_not.mp heq).symm, hab⟩)⟩
  · rw [not_or] at hother
    refine iff_of_false (by norm_num) ?_
    rintro ⟨-, hb | hlt | ⟨-, hlt⟩⟩
    · exact hother.2 hb
    · exact absurd (not_not.mp heq) hlt.ne
    · exact hab hlt
  · exact absurd (List.le_antisymm hba hab) hne

theorem sortKeys_perm (keys : List Units) : (sortKeys totals keys).Perm keys := List.mergeSort_perm _ _

theorem sortKeys_pairwise {keys : List Units} (hnodup : keys.Nodup) : (sortKeys totals keys).Pairwise (Before totals) := by
  have hle : ∀ a b, (decide (a = b) || decide (keyCompare totals a b ≤ 0)) = true ↔ a = b ∨ Before totals a b := by
    intro a b
    rw [Bool.or_eq_true, decide_eq_true_iff, decide_eq_true_iff]
    by_cases heq : a = b
    · exact iff_of_true (.inl heq) (.inl heq)
    · rw [keyCompare_iff heq]
  have hsorted : (sortKeys totals keys).Pairwise fun a b => (decide (a = b) || decide (keyCompare totals a b ≤ 0)) = true := by
    apply List.pairwise_mergeSort
    · intro a b c hab hbc
      rw [hle] at hab hbc ⊢
      rcases hab with rfl | hab
      · exact hbc
      · rcases hbc with rfl | hbc
        · exact .inr hab
        · exact .inr (hab.trans hbc)
    · intro a b
      rw [Bool.or_eq_true, hle, hle]
      by_cases heq : a = b
      · exact .inl (.inl heq)
      · exact (before_or_after heq).imp .inr .inr
  have hdistinct : (sortKeys totals keys).Nodup := (sortKeys_perm keys).nodup_iff.mpr hnodup
  refine (hsorted.and hdistinct).imp ?_
  rintro a b ⟨hab, hne⟩
  exact ((hle a b).mp hab).resolve_left hne

end Order

section Response

theorem get?_assign {V : Type} (o : Dict Units V) (name k : Units) (v : V) :
    (assign o name v).get? k = if k = name ∧ name ≠ units "__proto__" then some v else o.get? k := by
  rw [assign]
  by_cases hproto : name = units "__proto__"
  · rw [if_pos hproto, if_neg fun h => h.2 hproto]
  · rw [if_neg hproto, Dict.get?_insert]
    by_cases hk : k = name
    · rw [if_pos hk, if_pos ⟨hk, hproto⟩]
    · rw [if_neg hk, if_neg fun h => hk h.1]

/-- The properties that an object has after it was assigned to under some names. -/
theorem get?_assigned {V : Type} (f : Units → V) (keys : List Units) (k : Units) :
    (keys.foldl (fun o k => assign o k (f k)) .empty).get? k =
      if k ∈ keys ∧ k ≠ units "__proto__" then some (f k) else none := by
  induction keys using List.reverseRecOn with
  | nil => rfl
  | append_singleton keys name ih =>
      rw [List.foldl_append, List.foldl_cons, List.foldl_nil, get?_assign, ih]
      by_cases hk : k = name
      · subst hk
        by_cases hproto : k = units "__proto__" <;> simp [hproto]
      · simp [hk]

end Response

section Tracks

variable {R A : Type} {r : Range} {t : R → ℤ} {rows : List R}

/-- An array with one entry for each bucket of the range, from the rows that are put into
the bucket. -/
structure Gathers (r : Range) (t : R → ℤ) (value : ℕ → List R → A) (rows : List R) (out : List A) : Prop where
  length : out.length = (bucketCount r).toNat
  entry : ∀ i : ℕ, (i : ℤ) < bucketCount r →
    out[i]? = some (value i (inBucket (fun row => place r (t row)) i rows))

theorem gathers_fill (column : R → ℕ) : Gathers r t (fun _ => total column) rows
    (fill (fun row => place r (t row)) column (bucketCount r).toNat rows) :=
  ⟨length_fill, fun i hi => getElem?_fill (by omega)⟩

theorem Gathers.zipWith {B C : Type} {value : ℕ → List R → A} {out : List A} (h : Gathers r t value rows out)
    (f : A → B → C) {value' : ℕ → List R → B} {out' : List B} (h' : Gathers r t value' rows out') :
    Gathers r t (fun i rs => f (value i rs) (value' i rs)) rows (List.zipWith f out out') := by
  refine ⟨by rw [List.length_zipWith, h.length, h'.length, min_self], ?_⟩
  intro i hi
  rw [List.getElem?_zipWith, h.entry i hi, h'.entry i hi]

def secondsOf (r : Range) (i : ℕ) : ℚ := (coveredSeconds r (grid r)).getD i 0

theorem length_seconds (r' : Range) : (coveredSeconds r' (grid r)).length = (bucketCount r).toNat := by
  rw [coveredSeconds, List.length_map, grid, bucketStarts, List.length_map, List.length_range]

theorem gathers_seconds : Gathers r t (fun i _ => secondsOf r i) rows (coveredSeconds r (grid r)) := by
  refine ⟨length_seconds r, ?_⟩
  intro i hi
  have hlt : i < (coveredSeconds r (grid r)).length := by
    rw [length_seconds]
    omega
  rw [secondsOf, List.getD_eq_getElem?_getD, List.getElem?_eq_getElem hlt, Option.getD_some]

theorem gathers_overwrite (value : ℕ → R → A) (zero : A) : Gathers r t (fun i rs => rs.getLast?.elim zero (value i)) rows
    (overwrite (fun row => place r (t row)) value zero (bucketCount r).toNat rows) :=
  ⟨length_overwrite, fun i hi => getElem?_overwrite (by omega)⟩

/-- The other builders use the buckets of the throughput. -/
structure SameBuckets (r : Range) : Prop where
  unknown : ∀ rows, Gathers r UnknownRow.t (fun _ => total UnknownRow.unk) rows (buildUnknown rows r).bytes ∧
    Gathers r UnknownRow.t (fun _ => total UnknownRow.total) rows (buildUnknown rows r).total ∧
    Gathers r UnknownRow.t (fun _ rs => unknownShare (total UnknownRow.total rs) (total UnknownRow.unk rs)) rows
      (buildUnknown rows r).share
  calls : ∀ rows, Gathers r CallsRow.t (fun i rs => perSecond (total CallsRow.tx rs) (secondsOf r i)) rows
      (buildCalls rows r).tx ∧
    Gathers r CallsRow.t (fun i rs => perSecond (total CallsRow.rx rs) (secondsOf r i)) rows (buildCalls rows r).rx
  processCalls : ∀ rows,
    Gathers r ProcessCallsRow.t (fun i rs => kbps (total ProcessCallsRow.tx rs) (secondsOf r i)) rows
      (buildProcessCalls rows r).tx ∧
    Gathers r ProcessCallsRow.t (fun i rs => kbps (total ProcessCallsRow.rx rs) (secondsOf r i)) rows
      (buildProcessCalls rows r).rx ∧
    Gathers r ProcessCallsRow.t (fun i rs => perSecond (total ProcessCallsRow.txc rs) (secondsOf r i)) rows
      (buildProcessCalls rows r).calls.tx ∧
    Gathers r ProcessCallsRow.t (fun i rs => perSecond (total ProcessCallsRow.rxc rs) (secondsOf r i)) rows
      (buildProcessCalls rows r).calls.rx
  burst : ∀ rows dir, ∀ side ∈ sidesOf dir, ∃ stats, (buildBurst rows r dir).stats side = some stats ∧
    Gathers r BurstRow.t (fun i rs => rs.getLast?.elim 0 fun row =>
      kbps ((row.bytes side).getD 0) ((coveredSeconds { r with table := .flows } (grid r)).getD i 0)) rows stats.mean ∧
    Gathers r BurstRow.t (fun i rs => rs.getLast?.elim 0 fun row =>
      (row.padded side ((coveredSeconds { r with table := .flows } (grid r)).getD i 0)).p95) rows stats.p95 ∧
    Gathers r BurstRow.t (fun i rs => rs.getLast?.elim 0 fun row =>
      (row.padded side ((coveredSeconds { r with table := .flows } (grid r)).getD i 0)).max) rows stats.max

theorem sameBuckets (r : Range) : SameBuckets r where
  unknown := fun _ =>
    ⟨gathers_fill _, gathers_fill _, (gathers_fill UnknownRow.total).zipWith unknownShare (gathers_fill UnknownRow.unk)⟩
  calls := fun _ =>
    ⟨(gathers_fill CallsRow.tx).zipWith perSecond gathers_seconds, (gathers_fill CallsRow.rx).zipWith perSecond gathers_seconds⟩
  processCalls := fun _ =>
    ⟨(gathers_fill ProcessCallsRow.tx).zipWith kbps gathers_seconds, (gathers_fill ProcessCallsRow.rx).zipWith kbps gathers_seconds,
      (gathers_fill ProcessCallsRow.txc).zipWith perSecond gathers_seconds,
      (gathers_fill ProcessCallsRow.rxc).zipWith perSecond gathers_seconds⟩
  burst := by
    intro rows dir side hside
    refine ⟨_, if_pos hside, gathers_overwrite _ _, gathers_overwrite _ _, gathers_overwrite _ _⟩

end Tracks

section Main

variable {r : Range} {dir : ThroughputDir} {stored : List Stored} {rows : List ThroughputRow}

def inCell (r : Range) (k : Units) (i : ℕ) (stored : List Stored) : List Stored :=
  (selected r stored).filter fun s => s.key = k && (r.fromMs + i * (r.step * 1000) ≤ timeMs r s.time &&
    timeMs r s.time < r.fromMs + (i + 1) * (r.step * 1000))

def dirBytes (dir : ThroughputDir) (bytes : ℕ × ℕ) : ℕ :=
  match dir with
  | .tx => bytes.1
  | .rx => bytes.2
  | .both | .total => bytes.1 + bytes.2

theorem total_dirBytes {R : Type} (f : R → ℕ × ℕ) (rows : List R) :
    total (fun x => dirBytes dir (f x)) rows = dirBytes dir (total f rows) := by
  induction rows with
  | nil => cases dir <;> rfl
  | cons x rows ih =>
      rw [total_cons, total_cons, ih]
      cases dir <;> simp only [dirBytes, Prod.fst_add, Prod.snd_add] <;> omega

def keyTotal (r : Range) (dir : ThroughputDir) (stored : List Stored) (k : Units) : ℕ :=
  total (fun s => dirBytes dir (s.tx, s.rx)) ((selected r stored).filter fun s => s.key = k)

/-- What a throughput answer is to be: no selected byte is lost, the keys are distinct and
in order, and each has its arrays; the other builders use its buckets. -/
structure Complete {L : Type} (r : Range) (dir : ThroughputDir) (stored : List Stored) (rows : List ThroughputRow)
    (out : ThroughputResponse L) : Prop where
  placed : ∀ row ∈ rows, ∃ i : ℕ, (i : ℤ) < bucketCount r ∧ place r row.t = some i
  bytes : ∀ k s, (byKey rows r dir).get? k = some s → ∀ i : ℕ, (i : ℤ) < bucketCount r →
    s.tx[i]? = some (total Stored.tx (inCell r k i stored)) ∧ s.rx[i]? = some (total Stored.rx (inCell r k i stored))
  whole : ((byKey rows r dir).values.map fun s => s.tx.sum).sum = total Stored.tx (selected r stored) ∧
    ((byKey rows r dir).values.map fun s => s.rx.sum).sum = total Stored.rx (selected r stored)
  keys : ∀ k, k ∈ out.keys ↔ ∃ s ∈ selected r stored, s.key = k
  distinct : out.keys.Nodup
  ordered : out.keys.Pairwise (Before (keyTotal r dir stored))
  arrays : ∀ k ∈ out.keys, ∃ s tx rx, (byKey rows r dir).get? k = some s ∧
    out.tx.get? k = some tx ∧ tx = List.zipWith kbps s.tx (coveredSeconds r (grid r)) ∧ tx.length = (bucketCount r).toNat ∧
    out.rx.get? k = some rx ∧ rx = List.zipWith kbps s.rx (coveredSeconds r (grid r)) ∧ rx.length = (bucketCount r).toNat
  tracks : SameBuckets r

theorem cell_total (h : Aligned r) (hrows : rows.Perm (throughputQuery r stored)) (k : Units) (i : ℕ) :
    total (fun row => (row.tx, row.rx)) (inBucket (fun row => place r row.t) i (ofKey ThroughputRow.key k rows)) =
      total (fun s => (s.tx, s.rx)) (inCell r k i stored) := by
  have hquery := query_total hrows fun t key => place r t = some i && key = k
  rw [inBucket, ofKey, List.filter_filter, hquery, inCell]
  congr 1
  apply List.filter_congr
  intro s hs
  have hiff := place_iff h (List.mem_filter.mp hs).2 i
  rw [Bool.and_comm, decide_eq_decide.mpr hiff, Bool.decide_and]

theorem key_total (hrows : rows.Perm (throughputQuery r stored)) (k : Units) :
    total dir.pick (ofKey ThroughputRow.key k rows) = keyTotal r dir stored k := by
  have hpick : dir.pick = fun row => dirBytes dir (row.tx, row.rx) := by
    funext row
    cases dir <;> rfl
  rw [hpick, total_dirBytes, keyTotal, total_dirBytes, ofKey, query_total hrows fun _ key => key = k]

theorem rows_total (hrows : rows.Perm (throughputQuery r stored)) :
    total (fun row => (row.tx, row.rx)) rows = total (fun s => (s.tx, s.rx)) (selected r stored) := by
  have hquery := query_total hrows fun _ _ => true
  rwa [List.filter_true, List.filter_true] at hquery

section Parts

variable (h : Aligned r) (hrows : rows.Perm (throughputQuery r stored))
include h hrows

theorem series_bytes {k : Units} {s : Series} (hs : (byKey rows r dir).get? k = some s) {i : ℕ} (hi : (i : ℤ) < bucketCount r) :
    s.tx[i]? = some (total Stored.tx (inCell r k i stored)) ∧ s.rx[i]? = some (total Stored.rx (inCell r k i stored)) := by
  rw [byKey_get? (rows_placed h hrows)] at hs
  split_ifs at hs
  obtain rfl := Option.some.inj hs
  have hcell := cell_total h hrows k i
  have htx := congrArg Prod.fst hcell
  have hrx := congrArg Prod.snd hcell
  rw [total_fst, total_fst] at htx
  rw [total_snd, total_snd] at hrx
  constructor
  · rw [seriesOf, getElem?_fill (by omega), htx]
  · rw [seriesOf, getElem?_fill (by omega), hrx]

theorem all_bytes : ((byKey rows r dir).values.map fun s => s.tx.sum).sum = total Stored.tx (selected r stored) ∧
    ((byKey rows r dir).values.map fun s => s.rx.sum).sum = total Stored.rx (selected r stored) := by
  have hall := rows_total hrows
  have htx := congrArg Prod.fst hall
  have hrx := congrArg Prod.snd hall
  rw [total_fst, total_fst] at htx
  rw [total_snd, total_snd] at hrx
  constructor
  · rw [values_sum Series.tx (fun _ => rfl) (rows_placed h hrows), htx]
  · rw [values_sum Series.rx (fun _ => rfl) (rows_placed h hrows), hrx]

theorem totals_eq (k : Units) : (((byKey rows r dir).get? k).map Series.total).getD 0 = keyTotal r dir stored k := by
  rw [byKey_get? (rows_placed h hrows), ← key_total hrows]
  split_ifs with hnil
  · rw [hnil]
    rfl
  · rfl

theorem mem_keys (dir : ThroughputDir) {L : Type} (labels : Units → Option L) (k : Units) :
    k ∈ (buildThroughput rows r dir labels).keys ↔ ∃ s ∈ selected r stored, s.key = k := by
  have hmem : k ∈ (buildThroughput rows r dir labels).keys ↔ ∃ row ∈ rows, row.key = k :=
    (sortKeys_perm _).mem_iff.trans (mem_byKey (rows_placed h hrows) k)
  rw [hmem]
  constructor
  · rintro ⟨row, hrow, hk⟩
    obtain ⟨s, hs, -, hkey⟩ := (mem_query hrows).mp ⟨row, hrow, rfl, hk⟩
    exact ⟨s, hs, hkey⟩
  · rintro ⟨s, hs, hkey⟩
    obtain ⟨row, hrow, -, hk⟩ := (mem_query hrows).mpr ⟨s, hs, rfl, hkey⟩
    exact ⟨row, hrow, hk⟩

theorem series_lengths {k : Units} {s : Series} (hs : (byKey rows r dir).get? k = some s) :
    s.tx.length = (bucketCount r).toNat ∧ s.rx.length = (bucketCount r).toNat := by
  rw [byKey_get? (rows_placed h hrows)] at hs
  split_ifs at hs
  obtain rfl := Option.some.inj hs
  exact ⟨length_fill, length_fill⟩

theorem arrays_iff {L : Type} (labels : Units → Option L) {k : Units} (hk : k ∈ (buildThroughput rows r dir labels).keys) :
    (∃ s tx rx, (byKey rows r dir).get? k = some s ∧
      (buildThroughput rows r dir labels).tx.get? k = some tx ∧
      tx = List.zipWith kbps s.tx (coveredSeconds r (grid r)) ∧ tx.length = (bucketCount r).toNat ∧
      (buildThroughput rows r dir labels).rx.get? k = some rx ∧
      rx = List.zipWith kbps s.rx (coveredSeconds r (grid r)) ∧ rx.length = (bucketCount r).toNat) ↔
    k ≠ units "__proto__" := by
  have htx : (buildThroughput rows r dir labels).tx.get? k = if k ∈ (buildThroughput rows r dir labels).keys ∧ k ≠ units "__proto__"
      then some (List.zipWith kbps ((((byKey rows r dir).get? k).map Series.tx).getD []) (coveredSeconds r (grid r))) else none :=
    get?_assigned _ _ k
  have hrx : (buildThroughput rows r dir labels).rx.get? k = if k ∈ (buildThroughput rows r dir labels).keys ∧ k ≠ units "__proto__"
      then some (List.zipWith kbps ((((byKey rows r dir).get? k).map Series.rx).getD []) (coveredSeconds r (grid r))) else none :=
    get?_assigned _ _ k
  constructor
  · rintro ⟨s, tx, rx, -, hget, -⟩ hproto
    rw [htx, if_neg fun hboth => hboth.2 hproto] at hget
    cases hget
  · intro hproto
    obtain ⟨s, hs⟩ := (Dict.mem_keys _ k).mp ((sortKeys_perm _).mem_iff.mp hk)
    obtain ⟨htxlen, hrxlen⟩ := series_lengths h hrows hs
    rw [if_pos ⟨hk, hproto⟩, hs, Option.map_some, Option.getD_some] at htx hrx
    refine ⟨s, _, _, hs, htx, rfl, ?_, hrx, rfl, ?_⟩
    · rw [List.length_zipWith, htxlen, length_seconds, min_self]
    · rw [List.length_zipWith, hrxlen, length_seconds, min_self]

end Parts

end Main

/-- An answer is complete unless a selected row has the key that sets the prototype. -/
theorem complete_iff {q : Query} {now : Now} {r₀ : Range} (hparse : parseRange q now = .ok r₀)
    (hnonneg : 0 ≤ (alignRange r₀).fromMs) {dir : ThroughputDir} {stored : List Stored} {rows : List ThroughputRow}
    (hrows : rows.Perm (throughputQuery (alignRange r₀) stored)) {L : Type} (labels : Units → Option L) :
    Complete (alignRange r₀) dir stored rows (buildThroughput rows (alignRange r₀) dir labels) ↔
      ∀ s ∈ selected (alignRange r₀) stored, s.key ≠ units "__proto__" := by
  have h := parse_aligned hparse hnonneg
  have hmem := mem_keys h hrows dir labels
  constructor
  · intro hcomplete s hs
    have hk := (hmem s.key).mpr ⟨s, hs, rfl⟩
    exact (arrays_iff h hrows labels hk).mp (hcomplete.arrays s.key hk)
  · intro hproto
    have hnodup : ((byKey rows (alignRange r₀) dir).entries.map Prod.fst).Nodup := (byKey rows (alignRange r₀) dir).nodup
    have htotals : (fun k => (((byKey rows (alignRange r₀) dir).get? k).map Series.total).getD 0) =
        keyTotal (alignRange r₀) dir stored := by
      funext k
      exact totals_eq h hrows k
    refine ⟨rows_placed h hrows, fun k s hs i hi => series_bytes h hrows hs hi, all_bytes h hrows, hmem, ?_, ?_, ?_,
      sameBuckets _⟩
    · exact (sortKeys_perm _).nodup_iff.mpr hnodup
    · rw [← htotals]
      exact sortKeys_pairwise hnodup
    · intro k hk
      obtain ⟨s, hs, rfl⟩ := (hmem k).mp hk
      exact (arrays_iff h hrows labels hk).mpr (hproto s hs)

def sampleRows (key : String) : List Stored := [⟨1699999990000, units key, 500, 700⟩]

theorem sampleRows_selected {r₀ : Range} (hparse : parseRange emptyQuery sampleNow = .ok r₀) (key : String) :
    selected (alignRange r₀) (sampleRows key) = sampleRows key := by
  obtain ⟨hsound, hto, hfrom, -⟩ := parseRange_sound hparse
  have hend : r₀.toMs = 1700000000000 := hto
  have hstart : r₀.fromMs = max (1700000000000 - defaultSpan) (1700000000000 - maxSpan) := by
    rw [hfrom, hend]
    rfl
  have hspan : defaultSpan = 3600000 ∧ maxSpan = 63244800000 := by decide
  obtain ⟨hlow, -⟩ := align_bounds hsound
  obtain ⟨-, hcol, -⟩ | ⟨-, -, hlong, -⟩ := hsound.source
  · apply List.filter_eq_self.mpr
    intro s hs
    obtain rfl := List.mem_singleton.mp hs
    have hcol' : (alignRange r₀).col = .ts := hcol
    have hto' : (alignRange r₀).toMs = 1700000000000 := hend
    simp only [timeFilter, hcol', hto', Bool.and_eq_true, decide_eq_true_iff]
    omega
  · rw [hour] at hlong
    omega

/-- Two processes and the rest, in two minutes, and a flow before the range. -/
def storedRows : List Stored :=
  [⟨1699999990000, throughputOther, 9000, 0⟩, ⟨1699999990000, units "curl", 500, 700⟩, ⟨1699999930000, units "curl", 10, 0⟩,
    ⟨1699999930000, units "firefox", 2000, 1⟩, ⟨1699999991000, units "firefox", 1, 0⟩, ⟨1600000000000, units "sshd", 5, 5⟩]

def storedAnswer : List ThroughputRow := (throughputQuery (alignRange minuteRange) storedRows).reverse

/-- The rows come in another order than in the query, and their keys not in that of the answer. -/
theorem complete_iff_sample :
    storedAnswer.map (fun row => (row.key, row.tx)) =
      [(units "firefox", 1), (units "firefox", 2000), (units "curl", 10), (units "curl", 500), (throughputOther, 9000)] ∧
    Complete (alignRange minuteRange) .both storedRows storedAnswer
      (buildThroughput storedAnswer (alignRange minuteRange) .both (fun _ => (none : Option Units))) :=
  ⟨by decide +kernel, (complete_iff minuteQuery_range (by decide +kernel) (List.reverse_perm _) _).mpr (by decide +kernel)⟩

/-- A process of that name is listed without its arrays. -/
theorem proto_lost : ∃ r₀, parseRange emptyQuery sampleNow = .ok r₀ ∧ 0 ≤ (alignRange r₀).fromMs ∧
    let rows := throughputQuery (alignRange r₀) (sampleRows "__proto__")
    let out := buildThroughput rows (alignRange r₀) .both (fun _ => (none : Option Units))
    units "__proto__" ∈ out.keys ∧ out.tx.get? (units "__proto__") = none ∧ out.rx.get? (units "__proto__") = none ∧
      ¬ Complete (alignRange r₀) .both (sampleRows "__proto__") rows out := by
  obtain ⟨r₀, hparse, hconsistent⟩ := emptyQuery_range
  have hto : r₀.toMs = 1700000000000 := hconsistent.toMs
  have hnonneg := parse_nonneg hparse (by omega)
  have h := parse_aligned hparse hnonneg
  refine ⟨r₀, hparse, hnonneg, ?_⟩
  intro rows out
  have hkey : units "__proto__" ∈ out.keys := by
    refine (mem_keys h (.refl _) _ _ _).mpr ?_
    rw [sampleRows_selected hparse]
    exact ⟨_, List.mem_singleton_self _, rfl⟩
  refine ⟨hkey, ?_, ?_, ?_⟩
  · exact (get?_assigned _ _ _).trans (if_neg fun hboth => hboth.2 rfl)
  · exact (get?_assigned _ _ _).trans (if_neg fun hboth => hboth.2 rfl)
  · intro hcomplete
    exact (arrays_iff h (.refl _) _ hkey).mp (hcomplete.arrays _ hkey) rfl

end NetWatch.History.OnGrid
