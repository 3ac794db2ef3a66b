import NetWatch.Lib.GroupFold
import NetWatch.Lib.SortBy
import NetWatch.Storage.EndedDays

namespace NetWatch.Storage.RedisScan

open EndedDays Collector.SinkRedis Lib.Assoc Lib.Buckets Lib.GroupFold Lib.Redis Lib.Runs Lib.SortBy

structure StorageRow where
  key : String
  label : String
  bytes : ℕ
  count : ℕ
  deletable : Bool

structure DayRow extends StorageRow where
  children : List StorageRow

structure RedisStorage where
  usedMemory : ℕ
  fixed : List StorageRow
  days : List DayRow

/-- The three rounds of MEMORY USAGE of a scan. The database may change between them. -/
inductive Round
  | ended
  | alive
  | fixed

def fixedKeys : List String := [Key.snapshot.text, Key.stream.text, Key.metaInfo.text, Key.alive.text, Key.ended.text]

def sizes (usage : String → ℕ) (keys : List String) : List ℕ :=
  if keys = [] then [] else (keys.take chunk).map usage ++ sizes usage (keys.drop chunk)
termination_by keys.length
decreasing_by
  rename_i hne
  have hpos := List.length_pos_iff.mpr hne
  rw [List.length_drop, chunk]
  omega

def weighed (ended : List (String × Int)) (sizes : List ℕ) : List (Int × ℕ) :=
  ended.zipIdx.map fun e => (e.1.2, (sizes[2 * e.2]?).getD 0 + (sizes[2 * e.2 + 1]?).getD 0)

structure Hour where
  bytes : ℕ
  count : ℕ

def Hour.add (h : Hour) (e : Int × ℕ) : Hour := ⟨h.bytes + e.2, h.count + 1⟩

structure Day where
  bytes : ℕ
  count : ℕ
  hours : Dict String Hour

def newestFirst {α : Type} (a b : String × α) : Ordering := compareOn Prod.fst b a

instance {α : Type} : Std.TransCmp (@newestFirst α) :=
  inferInstanceAs (Std.TransCmp fun a b : String × α => compareOn Prod.fst b a)

section Scan

variable (dayOf hourOf : Int → String)

def Day.add (d : Day) (e : Int × ℕ) : Day :=
  ⟨d.bytes + e.2, d.count + 1, into (fun e => hourOf e.1) (fun _ => ⟨0, 0⟩) Hour.add d.hours e⟩

def byDay (es : List (Int × ℕ)) : Dict String Day :=
  groupFold (fun e => dayOf e.1) (fun _ => ⟨0, 0, .empty⟩) (Day.add hourOf) es

def hourRow (day : String) (e : String × Hour) : StorageRow := ⟨day ++ " " ++ e.1, e.1 ++ ":00", e.2.bytes, e.2.count, false⟩

def dayRow (e : String × Day) : DayRow where
  key := e.1
  label := e.1
  bytes := e.2.bytes
  count := e.2.count
  deletable := true
  children := (sortBy newestFirst e.2.hours.entries).map (hourRow e.1)

def dayRows (es : List (Int × ℕ)) : List DayRow := (sortBy newestFirst (byDay dayOf hourOf es).entries).map dayRow

def redisStorage (usedMemory : ℕ) (usage : Round → String → ℕ) (ended : List (String × Int)) (alive : List String) : RedisStorage :=
  let endedSizes := sizes (usage .ended) (ended.flatMap fun e => procKeys e.1)
  let aliveSizes := sizes (usage .alive) (alive.flatMap procKeys)
  let fixedSizes := sizes (usage .fixed) fixedKeys
  let days := dayRows dayOf hourOf (weighed ended endedSizes)
  let size := fun i => (fixedSizes[i]?).getD 0
  let liveBytes := aliveSizes.sum + size 3
  let known := total (fun r : DayRow => r.bytes) days + size 0 + size 1 + size 2 + liveBytes + size 4
  { usedMemory := usedMemory
    fixed :=
      [⟨"snapshot", "Latest snapshot", size 0 + size 2, 1, false⟩,
        ⟨"stream", "Tick stream (live charts)", size 1, 0, false⟩,
        ⟨"live", "Live processes", liveBytes, alive.length, false⟩,
        ⟨"index", "Ended-process index", size 4, ended.length, false⟩,
        ⟨"other", "Redis overhead and other", usedMemory - known, 0, false⟩]
    days := days }

end Scan

section Rows

variable {dayOf hourOf : Int → String} {es : List (Int × ℕ)}

theorem sizes_eq (usage : String → ℕ) (keys : List String) : sizes usage keys = keys.map usage := by
  induction keys using sizes.induct with
  | case1 => rw [sizes, if_pos rfl, List.map_nil]
  | case2 keys hne ih => rw [sizes, if_neg hne, ih, ← List.map_append, List.take_append_drop]

def procBytes (usage : String → ℕ) (id : String) : ℕ := ((procKeys id).map usage).sum

theorem sizes_sum (usage : String → ℕ) (ids : List String) :
    (sizes usage (ids.flatMap procKeys)).sum = total (procBytes usage) ids := by
  rw [sizes_eq]
  induction ids with
  | nil => rfl
  | cons id ids ih => rw [List.flatMap_cons, List.map_append, List.sum_append, ih, total_cons, procBytes]

theorem weighed_eq (usage : String → ℕ) (ended : List (String × Int)) :
    weighed ended (sizes usage (ended.flatMap fun e => procKeys e.1)) = ended.map fun e => (e.2, procBytes usage e.1) := by
  have hat : ∀ (pre post : List (String × Int)) (e : String × Int),
      (((pre ++ e :: post).flatMap fun e => procKeys e.1).map usage)[2 * pre.length]? = some (usage ("netwatch:proc:" ++ e.1)) ∧
      (((pre ++ e :: post).flatMap fun e => procKeys e.1).map usage)[2 * pre.length + 1]? =
        some (usage ("netwatch:proc:" ++ e.1 ++ ":dests")) := by
    intro pre post e
    have hlength : ((pre.flatMap fun e => procKeys e.1).map usage).length = 2 * pre.length := by
      induction pre with
      | nil => rfl
      | cons d pre ih => simp_all [procKeys]; omega
    rw [List.flatMap_append, List.map_append, List.flatMap_cons, List.map_append]
    refine ⟨?_, ?_⟩
    · rw [List.getElem?_append_right (by omega), hlength, Nat.sub_self]
      rfl
    · rw [List.getElem?_append_right (by omega), hlength, Nat.add_sub_cancel_left]
      rfl
  rw [sizes_eq, weighed]
  apply List.ext_getElem?
  intro i
  rw [List.getElem?_map, List.getElem?_map, List.getElem?_zipIdx]
  cases he : ended[i]? with
  | none => rfl
  | some e =>
      obtain ⟨pre, post, rfl, rfl⟩ : ∃ pre post, ended = pre ++ e :: post ∧ pre.length = i := by
        obtain ⟨hi, hget⟩ := List.getElem?_eq_some_iff.mp he
        refine ⟨ended.take i, ended.drop (i + 1), ?_, List.length_take_of_le (le_of_lt hi)⟩
        rw [← hget, List.cons_getElem_drop_succ, List.take_append_drop]
      obtain ⟨hfirst, hsecond⟩ := hat pre post e
      simp only [Option.map_some, Nat.zero_add, hfirst, hsecond, Option.getD_some]
      simp [procBytes, procKeys]

def descending (ks : List String) : List String := sortBy (fun a b => compare b a) ks

theorem descending_perm (ks : List String) : (descending ks).Perm ks := sortBy_perm ks

theorem sortBy_newestFirst {α : Type} (f : String → α) (ks : List String) :
    sortBy newestFirst (ks.map fun k => (k, f k)) = (descending ks).map fun k => (k, f k) :=
  (List.map_insertionSort (Upto fun a b => compare b a) (Upto newestFirst) (fun k => (k, f k)) ks fun _ _ _ _ => Iff.rfl).symm

theorem sorted_entries {α : Type} {d : Dict String α} {ks : List String} {f : String → α}
    (h : d.entries.Perm (ks.map fun k => (k, f k))) :
    sortBy newestFirst d.entries = (descending ks).map fun k => (k, f k) := by
  rw [← sortBy_newestFirst]
  apply sortBy_congr h
  intro a ha b hb heq
  have hkey : compare b.1 a.1 = .eq := heq
  exact Dict.entry_inj ha hb (Std.LawfulEqCmp.eq_of_compare hkey).symm

theorem descending_congr {ks ks' : List String} (h : ks.Perm ks') : descending ks = descending ks' :=
  sortBy_congr h fun _ _ _ _ heq => (Std.LawfulEqCmp.eq_of_compare heq).symm

theorem descending_pairwise {ks : List String} (h : ks.Nodup) : (descending ks).Pairwise fun a b => b < a := by
  have hnodup : (descending ks).Nodup := (descending_perm ks).nodup_iff.mpr h
  refine ((sortBy_pairwise ks).and hnodup).imp fun {a b} hab => ?_
  obtain ⟨hle, hne⟩ := hab
  exact lt_of_le_of_ne (compare_le_iff_le.mp (Ordering.isLE_iff_ne_gt.mp hle)) (Ne.symm hne)

def rowOf (hourOf : Int → String) (day : String) (es : List (Int × ℕ)) : DayRow where
  key := day
  label := day
  bytes := total Prod.snd es
  count := es.length
  deletable := true
  children := (descending (es.map fun e => hourOf e.1).dedup).map fun h =>
    hourRow day (h, ⟨total Prod.snd (ofKey (fun e => hourOf e.1) h es), (ofKey (fun e => hourOf e.1) h es).length⟩)

theorem hour_fold (l : List (Int × ℕ)) (h : Hour) : l.foldl Hour.add h = ⟨h.bytes + total Prod.snd l, h.count + l.length⟩ := by
  induction l generalizing h with
  | nil => rfl
  | cons e l ih =>
      rw [List.foldl_cons, ih, Hour.add, total_cons, List.length_cons, add_assoc, add_assoc, Nat.add_comm 1]

theorem hours_eq (hourOf : Int → String) (day : String) (es : List (Int × ℕ)) :
    (sortBy newestFirst (groupFold (fun e => hourOf e.1) (fun _ => ⟨0, 0⟩) Hour.add es).entries).map (hourRow day) =
      (rowOf hourOf day es).children := by
  have hget : ∀ h, (groupFold (fun e : Int × ℕ => hourOf e.1) (fun _ => ⟨0, 0⟩) Hour.add es).get? h =
      if ofKey (fun e => hourOf e.1) h es = [] then none
      else some ⟨total Prod.snd (ofKey (fun e => hourOf e.1) h es), (ofKey (fun e => hourOf e.1) h es).length⟩ := by
    intro h
    rw [get?_groupFold, collect_const, hour_fold, Nat.zero_add, Nat.zero_add]
  rw [sorted_entries (entries_perm hget), List.map_map]
  rfl

theorem day_fold (hourOf : Int → String) (l : List (Int × ℕ)) (d : Day) : l.foldl (Day.add hourOf) d =
    ⟨d.bytes + total Prod.snd l, d.count + l.length, l.foldl (into (fun e => hourOf e.1) (fun _ => ⟨0, 0⟩) Hour.add) d.hours⟩ := by
  induction l generalizing d with
  | nil => rfl
  | cons e l ih =>
      rw [List.foldl_cons, ih, Day.add, total_cons, List.length_cons, add_assoc, add_assoc, Nat.add_comm 1]
      rfl

theorem dayRows_eq (dayOf hourOf : Int → String) (es : List (Int × ℕ)) : dayRows dayOf hourOf es =
    (descending (es.map fun e => dayOf e.1).dedup).map fun d => rowOf hourOf d (ofKey (fun e => dayOf e.1) d es) := by
  have hget : ∀ d, (byDay dayOf hourOf es).get? d =
      if ofKey (fun e => dayOf e.1) d es = [] then none
      else some ⟨total Prod.snd (ofKey (fun e => dayOf e.1) d es), (ofKey (fun e => dayOf e.1) d es).length,
        groupFold (fun e => hourOf e.1) (fun _ => ⟨0, 0⟩) Hour.add (ofKey (fun e => dayOf e.1) d es)⟩ := by
    intro d
    rw [byDay, get?_groupFold, collect_const, day_fold, Nat.zero_add, Nat.zero_add]
    rfl
  rw [dayRows, sorted_entries (entries_perm hget), List.map_map]
  apply List.map_congr_left
  intro d _
  rw [Function.comp_apply, dayRow, hours_eq]
  rfl

theorem length_eq_total {α : Type} (l : List α) : l.length = total (fun _ => 1) l := by
  simp [total]

theorem rowOf_children (hourOf : Int → String) (day : String) (es : List (Int × ℕ)) :
    total StorageRow.bytes (rowOf hourOf day es).children = (rowOf hourOf day es).bytes ∧
      total StorageRow.count (rowOf hourOf day es).children = (rowOf hourOf day es).count := by
  have hperm := descending_perm (es.map fun e => hourOf e.1).dedup
  constructor
  · have hsum : (((es.map fun e => hourOf e.1).dedup).map fun h => total Prod.snd (ofKey (fun e => hourOf e.1) h es)).sum = _ :=
      sum_keys es
    rw [rowOf, total_map, total_perm hperm]
    exact hsum
  · have hsum : (((es.map fun e => hourOf e.1).dedup).map fun h => total (fun _ => 1) (ofKey (fun e => hourOf e.1) h es)).sum = _ :=
      sum_keys es
    simp only [← length_eq_total] at hsum
    rw [rowOf, total_map, total_perm hperm]
    exact hsum

theorem total_dayRows (dayOf hourOf : Int → String) (es : List (Int × ℕ)) :
    total (fun r : DayRow => r.bytes) (dayRows dayOf hourOf es) = total Prod.snd es := by
  have hsum : (((es.map fun e => dayOf e.1).dedup).map fun d => total Prod.snd (ofKey (fun e => dayOf e.1) d es)).sum = _ :=
    sum_keys es
  rw [dayRows_eq, total_map, total_perm (descending_perm _)]
  exact hsum

theorem ofDay_eq (dayOf : Int → String) (usage : String → ℕ) (ended : List (String × Int)) (d : String) :
    ofKey (fun e => dayOf e.1) d (ended.map fun e => (e.2, procBytes usage e.1)) =
      (ended.filter fun e => dayOf e.2 ∈ [d]).map fun e => (e.2, procBytes usage e.1) := by
  rw [ofKey, List.filter_map]
  congr 1
  apply List.filter_congr
  intro e _
  simp

/-- The rows of a scan, against what was asked of Redis. A day's row counts what a
deletion of the day would delete. -/
structure Accounts (dayOf : Int → String) (usedMemory : ℕ) (usage : Round → String → ℕ) (ended : List (String × Int))
    (alive : List String) (st : RedisStorage) : Prop where
  newest : (st.days.map fun r => r.key).Pairwise fun a b => b < a
  days : ∀ d, d ∈ st.days.map (fun r => r.key) ↔ ∃ e ∈ ended, dayOf e.2 = d
  counts : ∀ r ∈ st.days, r.count = (doomed ended dayOf [r.key]).length
  bytes : ∀ r ∈ st.days, r.bytes = total (procBytes (usage .ended)) (doomed ended dayOf [r.key])
  hours : ∀ r ∈ st.days, total StorageRow.bytes r.children = r.bytes ∧ total StorageRow.count r.children = r.count
  whole : total StorageRow.bytes st.fixed + total (fun r : DayRow => r.bytes) st.days =
    max usedMemory (total (fun e => procBytes (usage .ended) e.1) ended + total (procBytes (usage .alive)) alive +
      total (usage .fixed) fixedKeys)

theorem row_cases {dayOf hourOf : Int → String} {usedMemory : ℕ} {usage : Round → String → ℕ} {ended : List (String × Int)}
    {alive : List String} {r : DayRow} (hr : r ∈ (redisStorage dayOf hourOf usedMemory usage ended alive).days) :
    ∃ d, r = rowOf hourOf d ((ended.filter fun e => dayOf e.2 ∈ [d]).map fun e => (e.2, procBytes (usage .ended) e.1)) := by
  have hr' : r ∈ dayRows dayOf hourOf (weighed ended (sizes (usage .ended) (ended.flatMap fun e => procKeys e.1))) := hr
  rw [weighed_eq, dayRows_eq] at hr'
  obtain ⟨d, -, rfl⟩ := List.mem_map.mp hr'
  exact ⟨d, by rw [ofDay_eq]⟩

theorem keys_eq (dayOf hourOf : Int → String) (usedMemory : ℕ) (usage : Round → String → ℕ) (ended : List (String × Int))
    (alive : List String) : (redisStorage dayOf hourOf usedMemory usage ended alive).days.map (fun r => r.key) =
      descending (ended.map fun e => dayOf e.2).dedup := by
  have hdays : (redisStorage dayOf hourOf usedMemory usage ended alive).days =
      dayRows dayOf hourOf (weighed ended (sizes (usage .ended) (ended.flatMap fun e => procKeys e.1))) := rfl
  rw [hdays, weighed_eq, dayRows_eq, List.map_map, List.map_map]
  exact List.map_id _

/-- A scan accounts for all of the memory, and for each process that ended in the row
of its day. -/
theorem scan_accounts (dayOf hourOf : Int → String) (usedMemory : ℕ) (usage : Round → String → ℕ) (ended : List (String × Int))
    (alive : List String) :
    Accounts dayOf usedMemory usage ended alive (redisStorage dayOf hourOf usedMemory usage ended alive) where
  newest := by
    rw [keys_eq]
    exact descending_pairwise (List.nodup_dedup _)
  days d := by
    rw [keys_eq, (descending_perm _).mem_iff, List.mem_dedup, List.mem_map]
  counts r hr := by
    obtain ⟨d, rfl⟩ := row_cases hr
    rw [doomed, List.length_map]
    exact List.length_map _
  bytes r hr := by
    obtain ⟨d, rfl⟩ := row_cases hr
    rw [doomed, total_map]
    exact total_map _ _ _
  hours r hr := by
    obtain ⟨d, rfl⟩ := row_cases hr
    exact rowOf_children _ _ _
  whole := by
    have hdays : total (fun r : DayRow => r.bytes) (redisStorage dayOf hourOf usedMemory usage ended alive).days =
        total (fun e => procBytes (usage .ended) e.1) ended := by
      have hrows : (redisStorage dayOf hourOf usedMemory usage ended alive).days =
          dayRows dayOf hourOf (weighed ended (sizes (usage .ended) (ended.flatMap fun e => procKeys e.1))) := rfl
      rw [hrows, total_dayRows, weighed_eq, total_map]
    have halive := sizes_sum (usage .alive) alive
    have hrest : total StorageRow.bytes (redisStorage dayOf hourOf usedMemory usage ended alive).fixed =
        usage .fixed Key.snapshot.text + usage .fixed Key.metaInfo.text + (usage .fixed Key.stream.text +
          ((sizes (usage .alive) (alive.flatMap procKeys)).sum + usage .fixed Key.alive.text + (usage .fixed Key.ended.text +
            (usedMemory - (total (fun r : DayRow => r.bytes) (redisStorage dayOf hourOf usedMemory usage ended alive).days +
              usage .fixed Key.snapshot.text + usage .fixed Key.stream.text + usage .fixed Key.metaInfo.text +
              ((sizes (usage .alive) (alive.flatMap procKeys)).sum + usage .fixed Key.alive.text) +
              usage .fixed Key.ended.text) + 0)))) := by
      simp only [redisStorage, sizes_eq (usage .fixed)]
      rfl
    have hfixed : total (usage .fixed) fixedKeys = usage .fixed Key.snapshot.text + (usage .fixed Key.stream.text +
        (usage .fixed Key.metaInfo.text + (usage .fixed Key.alive.text + (usage .fixed Key.ended.text + 0)))) := rfl
    rw [hrest, hdays, halive, hfixed]
    omega

theorem rowOf_perm (hourOf : Int → String) (d : String) {es es' : List (Int × ℕ)} (h : es.Perm es') :
    rowOf hourOf d es = rowOf hourOf d es' := by
  rw [rowOf, rowOf, total_perm h, h.length_eq, descending_congr (h.map _).dedup]
  congr 1
  apply List.map_congr_left
  intro k _
  have hkey : (ofKey (fun e => hourOf e.1) k es).Perm (ofKey (fun e => hourOf e.1) k es') := ofKey_perm h
  rw [total_perm hkey, hkey.length_eq]

theorem descending_filter {ks : List String} (h : ks.Nodup) (p : String → Bool) : descending (ks.filter p) = (descending ks).filter p := by
  apply List.Perm.eq_of_pairwise _ (descending_pairwise (h.filter p)) ((descending_pairwise h).filter p)
  · exact (descending_perm _).trans ((descending_perm ks).filter p).symm
  · intro a b _ _ hab hba
    exact absurd (hab.trans hba) (lt_irrefl _)

theorem dayRows_filter (dayOf hourOf : Int → String) (days : List String) {es es' : List (Int × ℕ)}
    (h : es'.Perm (es.filter fun e => dayOf e.1 ∉ days)) :
    dayRows dayOf hourOf es' = (dayRows dayOf hourOf es).filter fun r => r.key ∉ days := by
  have hdays : (es'.map fun e => dayOf e.1).dedup.Perm ((es.map fun e => dayOf e.1).dedup.filter fun d => d ∉ days) := by
    apply (List.perm_ext_iff_of_nodup (List.nodup_dedup _) ((List.nodup_dedup _).filter _)).mpr
    intro d
    rw [List.mem_dedup, (h.map _).mem_iff, List.mem_filter, List.mem_dedup, List.mem_map, List.mem_map]
    constructor
    · rintro ⟨e, he, rfl⟩
      obtain ⟨he, hday⟩ := List.mem_filter.mp he
      exact ⟨⟨e, he, rfl⟩, hday⟩
    · rintro ⟨⟨e, he, rfl⟩, hday⟩
      exact ⟨e, List.mem_filter.mpr ⟨he, hday⟩, rfl⟩
  rw [dayRows_eq, dayRows_eq, descending_congr hdays, descending_filter (List.nodup_dedup _), List.filter_map]
  apply List.map_congr_left
  intro d hd
  have hday : d ∉ days := by simpa using (List.mem_filter.mp hd).2
  refine rowOf_perm hourOf d ((ofKey_perm h).trans (.of_eq ?_))
  rw [ofKey, ofKey, List.filter_filter]
  apply List.filter_congr
  intro e _
  by_cases he : dayOf e.1 = d
  · simp [he, hday]
  · simp [he]

theorem count_dayRows (dayOf hourOf : Int → String) (days : List String) (es : List (Int × ℕ)) :
    total (fun r : DayRow => r.count) ((dayRows dayOf hourOf es).filter fun r => r.key ∈ days) =
      (es.filter fun e => dayOf e.1 ∈ days).length := by
  have hnodup : ((es.map fun e => dayOf e.1).dedup.filter fun d => d ∈ days).Nodup := (List.nodup_dedup _).filter _
  have hsum : (((es.map fun e => dayOf e.1).dedup.filter fun d => d ∈ days).map fun d =>
      total (fun _ => 1) (ofKey (fun e => dayOf e.1) d es)).sum = _ := sum_some_keys hnodup es
  have hkeys : ofKeys (fun e : Int × ℕ => dayOf e.1) ((es.map fun e => dayOf e.1).dedup.filter fun d => d ∈ days) es =
      es.filter fun e => dayOf e.1 ∈ days := by
    rw [ofKeys]
    apply List.filter_congr
    intro e he
    have hday : dayOf e.1 ∈ (es.map fun e => dayOf e.1).dedup := List.mem_dedup.mpr (List.mem_map_of_mem he)
    simp only [List.mem_filter, hday, true_and, decide_eq_true_eq]
  rw [hkeys, ← length_eq_total] at hsum
  simp only [← length_eq_total] at hsum
  rw [dayRows_eq, List.filter_map, total_map, total_perm ((descending_perm _).filter _)]
  exact hsum

end Rows

section Deletion

variable {dayOf hourOf : Int → String} {cfg : Config} {now : Int} {days : List String}

def usageIn (memory : String → Value → ℕ) (now : Int) (db : Db) (k : String) : ℕ :=
  match (db k).purge now with
  | .live value _ => memory k value
  | _ => 0

/-- A scan while nothing else changes the database. -/
def scanDb (dayOf hourOf : Int → String) (memory : String → Value → ℕ) (usedMemory : ℕ) (now : Int) (db : Db) : Option RedisStorage :=
  ((db Key.ended.text).purge now).zrange.map fun ended =>
    redisStorage dayOf hourOf usedMemory (fun _ => usageIn memory now db) ended ((db Key.alive.text).purge now).members

theorem zrange_zrem {gone : List String} {c c' : Cell} {es : List (String × Int)} (hc : (c.purge now).zrange = some es)
    (h : c.zrem gone = some c') : ∃ es', (c'.purge now).zrange = some es' ∧ es'.Perm (es.filter fun e => e.1 ∉ gone) := by
  cases c with
  | absent | expired =>
      cases h
      cases hc
      exact ⟨[], rfl, .refl _⟩
  | live value deadline =>
      cases value with
      | zset z =>
          cases h
          by_cases hlate : deadline.any (· ≤ now) = true
          · simp only [Cell.purge, hlate, if_true] at hc
            cases hc
            refine ⟨[], ?_, .refl _⟩
            split
            · rfl
            · simp only [Cell.purge, hlate, if_true]
              rfl
          · simp only [Cell.purge, if_neg hlate] at hc
            cases hc
            have hleft : ((z.filter fun m _ => m ∉ gone).entries).Perm
                ((z.entries.insertionSort fun a b => a.2 < b.2 ∨ a.2 = b.2 ∧ a.1 ≤ b.1).filter fun e => e.1 ∉ gone) :=
              ((List.perm_insertionSort _ z.entries).filter _).symm
            split
            · rename_i hnil
              refine ⟨[], rfl, ?_⟩
              rwa [hnil] at hleft
            · simp only [Cell.purge, if_neg hlate]
              exact ⟨_, rfl, (List.perm_insertionSort _ _).trans hleft⟩
      | _ => cases h

/-- Later, a sorted set is as it was, or it is expired. -/
theorem zrange_later {c : Cell} {t : Int} {es : List (String × Int)} (ht : now ≤ t) (h : (c.purge now).zrange = some es) :
    ∃ es', (c.purge t).zrange = some es' ∧ (es' = es ∨ es' = []) := by
  cases c with
  | absent | expired => exact ⟨[], rfl, .inr rfl⟩
  | live value deadline =>
      rw [Cell.purge] at h ⊢
      by_cases hlate : deadline.any (· ≤ t) = true
      · rw [if_pos hlate]
        exact ⟨[], rfl, .inr rfl⟩
      · have hnow : ¬ deadline.any (· ≤ now) = true := by
          cases deadline with
          | none => simp
          | some at' =>
              simp only [Option.any_some, decide_eq_true_eq] at hlate ⊢
              omega
        rw [if_neg hnow] at h
        rw [if_neg hlate]
        exact ⟨es, h, .inl rfl⟩

theorem zrange_keys {c : Cell} {es : List (String × Int)} (h : c.zrange = some es) : (es.map Prod.fst).Nodup := by
  cases c with
  | absent | expired =>
      cases h
      exact List.nodup_nil
  | live value deadline =>
      cases value with
      | zset z =>
          cases h
          exact ((List.perm_insertionSort _ z.entries).map Prod.fst).nodup_iff.mpr z.nodup
      | _ => cases h

/-- How far a deletion has come, from the database that it found: `done` are the ids
that it has taken off the index. -/
structure Progress (db : Db) (todo done : List String) (d : Deletion) (db' : Db) : Prop where
  order : done ++ d.left = todo
  hashes : ∀ k, k ≠ Key.ended.text →
    db' k = if k ∈ (done ++ if d.unlinked then d.left.take chunk else []).flatMap procKeys then .absent else db k
  index : ∀ t ended, ((db Key.ended.text).purge t).zrange = some ended →
    ∃ es, ((db' Key.ended.text).purge t).zrange = some es ∧ es.Perm (ended.filter fun e => e.1 ∉ done)

variable {s s' : System} {db : Db} {ended : List (String × Int)} {todo done : List String} {d : Deletion} {i : ℕ}

theorem ended_notMem {ids : List String} (h : ∀ m ∈ ids, ∃ id, idText id = m) : Key.ended.text ∉ ids.flatMap procKeys := by
  intro hmem
  obtain ⟨m, hm, hkey⟩ := List.mem_flatMap.mp hmem
  obtain ⟨id, rfl⟩ := h m hm
  obtain hkey | hkey := List.mem_cons.mp hkey
  · have htext : Key.ended.text = (Key.proc id).text := hkey
    exact absurd (text_injective htext) nofun
  · have htext : Key.ended.text = (Key.dests id).text := List.mem_singleton.mp hkey
    exact absurd (text_injective htext) nofun

theorem progress_unlink (h : Progress db todo done d s.sink.db) (hids : ∀ m ∈ todo, ∃ id, idText id = m)
    (hd : s.deletions[i]? = some d) (hs : s.step cfg (.unlink i) = some s') :
    ∃ d', s'.deletions[i]? = some d' ∧ Progress db todo done d' s'.sink.db := by
  rw [System.step, hd, Option.bind_some] at hs
  split at hs
  · cases hs
  · rename_i hready
    cases hs
    obtain ⟨hunlinked, -⟩ : d.unlinked = false ∧ d.left.isEmpty = false := by simpa using hready
    have hi : i < s.deletions.length := (List.getElem?_eq_some_iff.mp hd).1
    have hindex : Key.ended.text ∉ (d.left.take chunk).flatMap procKeys := by
      apply ended_notMem
      intro m hm
      exact hids m (h.order ▸ List.mem_append_right done (List.mem_of_mem_take hm))
    refine ⟨{ d with unlinked := true }, List.getElem?_set_self hi, h.order, fun k hk => ?_, ?_⟩
    · have hkey := h.hashes k hk
      rw [hunlinked, if_neg Bool.false_ne_true, List.append_nil] at hkey
      simp only [System.withDb, unlink, if_true, List.flatMap_append, List.mem_append, hkey]
      by_cases hdone : k ∈ done.flatMap procKeys <;> by_cases htaken : k ∈ (d.left.take chunk).flatMap procKeys <;>
        simp [hdone, htaken]
    · simpa only [System.withDb, unlink, if_neg hindex] using h.index

theorem progress_zrem (h : Progress db todo done d s.sink.db) (hd : s.deletions[i]? = some d)
    (hs : s.step cfg (.zrem i) = some s') :
    ∃ d' done', s'.deletions[i]? = some d' ∧ Progress db todo done' d' s'.sink.db := by
  rw [System.step, hd, Option.bind_some] at hs
  split at hs
  · rename_i hunlinked
    obtain ⟨cell, hcell, rfl⟩ := Option.map_eq_some_iff.mp hs
    have hi : i < s.deletions.length := (List.getElem?_eq_some_iff.mp hd).1
    refine ⟨⟨d.left.drop chunk, false⟩, done ++ d.left.take chunk, List.getElem?_set_self hi, ?_, fun k hk => ?_, ?_⟩
    · rw [List.append_assoc, List.take_append_drop]
      exact h.order
    · have hkey := h.hashes k hk
      rw [hunlinked, if_pos rfl] at hkey
      rw [if_neg Bool.false_ne_true, List.append_nil]
      exact (Function.update_of_ne hk _ _).trans hkey
    · intro t ended hended
      obtain ⟨es, hes, hperm⟩ := h.index t ended hended
      obtain ⟨es', hes', hperm'⟩ := zrange_zrem hes hcell
      refine ⟨es', ?_, hperm'.trans ((hperm.filter _).trans (.of_eq ?_))⟩
      · change ((Function.update s.sink.db Key.ended.text cell Key.ended.text).purge t).zrange = some es'
        rwa [Function.update_self]
      · rw [List.filter_filter]
        apply List.filter_congr
        intro e _
        simp [Bool.and_comm]
  · cases hs

def OnlyDeletes (i : ℕ) (_ : System) (e : Event) : Prop := e = .unlink i ∨ e = .zrem i

theorem progress_run {es : List Event} (h : ∃ done d, s.deletions[i]? = some d ∧ Progress db todo done d s.sink.db)
    (hids : ∀ m ∈ todo, ∃ id, idText id = m) (hrun : Run (System.step cfg) (OnlyDeletes i) s es s') :
    ∃ done d, s'.deletions[i]? = some d ∧ Progress db todo done d s'.sink.db := by
  refine hrun.invariant (I := fun s => ∃ done d, s.deletions[i]? = some d ∧ Progress db todo done d s.sink.db) h
    fun s e s' h hg hs => ?_
  obtain ⟨done, d, hd, hprogress⟩ := h
  obtain rfl | rfl := hg
  · obtain ⟨d', hd', hnext⟩ := progress_unlink hprogress hids hd hs
    exact ⟨done, d', hd', hnext⟩
  · obtain ⟨d', done', hd', hnext⟩ := progress_zrem hprogress hd hs
    exact ⟨done', d', hd', hnext⟩

theorem progress_read (hended : ((s.sink.db Key.ended.text).purge now).zrange = some ended)
    (hs : s.step cfg (.read now dayOf days) = some s') :
    ∃ done d, s'.deletions[s.deletions.length]? = some d ∧
      Progress s.sink.db (doomed ended dayOf days) done d s'.sink.db := by
  rw [System.step, hended] at hs
  cases hs
  refine ⟨[], ⟨doomed ended dayOf days, false⟩, by simp, rfl, fun k _ => by simp, fun t es hes => ⟨es, hes, .of_eq ?_⟩⟩
  exact (List.filter_eq_self.mpr fun e _ => by simp).symm

theorem procKeys_apart {ids : List String} (h : ∀ m ∈ ids, ∃ id, idText id = m) {m : String} (hm : ∃ id, idText id = m)
    (hnot : m ∉ ids) {k : String} (hk : k ∈ procKeys m) : k ∉ ids.flatMap procKeys := by
  intro hmem
  obtain ⟨m', hm', hk'⟩ := List.mem_flatMap.mp hmem
  obtain ⟨id, rfl⟩ := hm
  obtain ⟨id', rfl⟩ := h m' hm'
  have hkeys : ∀ {id : Collector.Model.ProcId}, k ∈ procKeys (idText id) → k = (Key.proc id).text ∨ k = (Key.dests id).text := by
    intro id hk
    obtain hk | hk := List.mem_cons.mp hk
    · exact .inl hk
    · exact .inr (List.mem_singleton.mp hk)
  have hsame : id = id' := by
    obtain hk | hk := hkeys hk <;> obtain hk' | hk' := hkeys hk' <;> have hkey := text_injective (hk.symm.trans hk') <;> cases hkey
    · rfl
    · rfl
  exact hnot (hsame ▸ hm')

theorem mem_doomed (hnodup : (ended.map Prod.fst).Nodup) {e : String × Int} (he : e ∈ ended) :
    e.1 ∈ doomed ended dayOf days ↔ dayOf e.2 ∈ days := by
  rw [doomed, List.mem_map]
  constructor
  · rintro ⟨e', he', hid⟩
    obtain ⟨he', hday⟩ := List.mem_filter.mp he'
    rw [← List.inj_on_of_nodup_map hnodup he' he hid]
    exact of_decide_eq_true hday
  · intro hday
    exact ⟨e, List.mem_filter.mpr ⟨he, decide_eq_true hday⟩, rfl⟩

theorem days_eq (dayOf hourOf : Int → String) (usedMemory : ℕ) (usage : Round → String → ℕ) (ended : List (String × Int))
    (alive : List String) : (redisStorage dayOf hourOf usedMemory usage ended alive).days =
      dayRows dayOf hourOf (ended.map fun e => (e.2, procBytes (usage .ended) e.1)) := by
  rw [← weighed_eq]
  rfl

theorem procBytes_kept {memory : String → Value → ℕ} {db' : Db} {m : String} (t : Int) (h : Progress db todo todo ⟨[], false⟩ db')
    (hids : ∀ m ∈ todo, ∃ id, idText id = m) (hm : ∃ id, idText id = m) (hnot : m ∉ todo) :
    procBytes (usageIn memory t db') m = procBytes (usageIn memory t db) m := by
  rw [procBytes, procBytes]
  congr 1
  apply List.map_congr_left
  intro k hk
  have hself : k ∈ [m].flatMap procKeys := by simpa using hk
  have hindex : k ≠ Key.ended.text := by
    rintro rfl
    exact ended_notMem (fun x hx => List.mem_singleton.mp hx ▸ hm) hself
  rw [usageIn, usageIn, h.hashes k hindex, if_neg Bool.false_ne_true, List.append_nil, if_neg (procKeys_apart hids hm hnot hk)]

/-- A scan after a deletion has the rows of the other days, as they would be without it. -/
theorem scan_deleted {memory : String → Value → ℕ} {usedMemory : ℕ} {db' : Db} {t : Int} (ht : now ≤ t)
    (hended : ((db Key.ended.text).purge now).zrange = some ended) (hids : ∀ e ∈ ended, ∃ id, idText id = e.1)
    (h : Progress db (doomed ended dayOf days) (doomed ended dayOf days) ⟨[], false⟩ db') :
    ∃ was after, scanDb dayOf hourOf memory usedMemory t db = some was ∧ scanDb dayOf hourOf memory usedMemory t db' = some after ∧
      after.days = was.days.filter fun r => r.key ∉ days := by
  obtain ⟨later, hlater, hcases⟩ := zrange_later ht hended
  obtain ⟨left, hleft, hperm⟩ := h.index t later hlater
  have hsub : ∀ e ∈ later, e ∈ ended := by
    obtain rfl | rfl := hcases
    · exact fun e he => he
    · exact List.forall_mem_nil _
  have htodo : ∀ m ∈ doomed ended dayOf days, ∃ id, idText id = m := by
    intro m hm
    obtain ⟨e, he, rfl⟩ := List.mem_map.mp hm
    exact hids e (List.mem_filter.mp he).1
  have hnodup := zrange_keys hended
  have hstays : later.filter (fun e => e.1 ∉ doomed ended dayOf days) = later.filter fun e => dayOf e.2 ∉ days := by
    apply List.filter_congr
    intro e he
    exact decide_eq_decide.mpr (not_congr (mem_doomed hnodup (hsub e he)))
  rw [hstays] at hperm
  have hsizes : ∀ e ∈ left, procBytes (usageIn memory t db') e.1 = procBytes (usageIn memory t db) e.1 := by
    intro e he
    obtain ⟨hmem, hday⟩ := List.mem_filter.mp (hperm.mem_iff.mp he)
    have hnot : e.1 ∉ doomed ended dayOf days := fun hd => absurd ((mem_doomed hnodup (hsub e hmem)).mp hd) (of_decide_eq_true hday)
    exact procBytes_kept t h htodo (hids e (hsub e hmem)) hnot
  refine ⟨_, _, by rw [scanDb, hlater, Option.map_some], by rw [scanDb, hleft, Option.map_some], ?_⟩
  rw [days_eq, days_eq]
  apply dayRows_filter
  rw [List.map_congr_left fun e he => by rw [hsizes e he]]
  refine (hperm.map _).trans (.of_eq ?_)
  rw [List.filter_map]
  rfl

/-- A deletion that is done, and beside which nothing else has written, has deleted
what the rows of its days had counted. From then on a scan has the other rows, as they
would be without it. -/
theorem deletion_clears_rows {memory : String → Value → ℕ} {usedMemory : ℕ} {scan : RedisStorage} {s₁ s₂ : System} {es : List Event}
    (hids : ∀ m ∈ s.ended, ∃ id, idText id = m) (hscan : scanDb dayOf hourOf memory usedMemory now s.sink.db = some scan)
    (hread : s.step cfg (.read now dayOf days) = some s₁)
    (hrun : Run (System.step cfg) (OnlyDeletes s.deletions.length) s₁ es s₂)
    (hdone : s₂.deletions[s.deletions.length]? = some ⟨[], false⟩) :
    (∃ ended, ((s.sink.db Key.ended.text).purge now).zrange = some ended ∧
      total (fun r : DayRow => r.count) (scan.days.filter fun r => r.key ∈ days) = (doomed ended dayOf days).length) ∧
    ∀ t, now ≤ t → ∃ was after, scanDb dayOf hourOf memory usedMemory t s.sink.db = some was ∧
      scanDb dayOf hourOf memory usedMemory t s₂.sink.db = some after ∧
      after.days = was.days.filter fun r => r.key ∉ days := by
  obtain ⟨ended, hended, rfl⟩ := Option.map_eq_some_iff.mp hscan
  have hmembers : ∀ e ∈ ended, ∃ id, idText id = e.1 := fun e he => hids e.1 (Cell.zmembers_purge (Cell.mem_zrange hended he))
  have htodo : ∀ m ∈ doomed ended dayOf days, ∃ id, idText id = m := by
    intro m hm
    obtain ⟨e, he, rfl⟩ := List.mem_map.mp hm
    exact hmembers e (List.mem_filter.mp he).1
  obtain ⟨done, d, hd, hprogress⟩ := progress_run (progress_read hended hread) htodo hrun
  obtain rfl := Option.some.inj (hdone.symm.trans hd)
  obtain rfl : done = doomed ended dayOf days := (List.append_nil done).symm.trans hprogress.order
  refine ⟨⟨ended, hended, ?_⟩, fun t ht => scan_deleted ht hended hmembers hprogress⟩
  rw [days_eq, count_dayRows, List.filter_map, List.length_map, doomed, List.length_map]
  rfl

def sampleDb : Db := fun k =>
  if k = Key.ended.text then .live (.zset ⟨[("7:5", 100000), ("7:6", 90000000)], by decide⟩) none else .absent

def sampleSystem : System := .start Collector.Conservation.sampleTck sampleDb

def sampleDayOf (ms : Int) : String := if ms < 86400000 then "1970-01-01" else "1970-01-02"

def sampleRead : Event := .read 95000000 sampleDayOf ["1970-01-01"]

theorem sampleSystem_ids : ∀ m ∈ sampleSystem.ended, ∃ id, idText id = m := by
  have hended : sampleSystem.ended = ["7:5", "7:6"] := by decide +kernel
  rw [hended]
  intro m hm
  obtain rfl | hm := List.mem_cons.mp hm
  · exact ⟨(7, 5), by decide +kernel⟩
  · obtain rfl := List.mem_singleton.mp hm
    exact ⟨(7, 6), by decide +kernel⟩

theorem deletion_clears_rows_sample : ∃ scan s,
    scanDb sampleDayOf (fun _ => "00") (fun _ _ => 64) 1000 95000000 sampleDb = some scan ∧
    Lib.Runs.exec (System.step ⟨604800⟩) sampleSystem [sampleRead, .unlink 0, .zrem 0] = some s ∧
    (∃ ended, ((sampleDb Key.ended.text).purge 95000000).zrange = some ended ∧
      total (fun r : DayRow => r.count) (scan.days.filter fun r => r.key ∈ ["1970-01-01"]) =
        (doomed ended sampleDayOf ["1970-01-01"]).length) ∧
    ∀ t, 95000000 ≤ t → ∃ was after, scanDb sampleDayOf (fun _ => "00") (fun _ _ => 64) 1000 t sampleDb = some was ∧
      scanDb sampleDayOf (fun _ => "00") (fun _ _ => 64) 1000 t s.sink.db = some after ∧
      after.days = was.days.filter fun r => r.key ∉ ["1970-01-01"] := by
  have hruns : ((Lib.Runs.exec (System.step ⟨604800⟩) sampleSystem [sampleRead, .unlink 0, .zrem 0]).map fun s =>
      s.deletions[0]?.map fun d => (d.left, d.unlinked)) = some (some ([], false)) := by decide +kernel
  have hscan : (scanDb sampleDayOf (fun _ => "00") (fun _ _ => 64) 1000 95000000 sampleDb).isSome = true := by
    rw [scanDb, Option.isSome_map]
    decide +kernel
  obtain ⟨scan, hscan⟩ := Option.isSome_iff_exists.mp hscan
  obtain ⟨s, hs, hend⟩ := Option.map_eq_some_iff.mp hruns
  obtain ⟨s₁, hread, hrest⟩ := Option.bind_eq_some_iff.mp hs
  obtain ⟨s₂, hunlink, hrest'⟩ := Option.bind_eq_some_iff.mp hrest
  obtain ⟨s₃, hzrem, hlast⟩ := Option.bind_eq_some_iff.mp hrest'
  obtain rfl := Option.some.inj hlast
  have hdone : s₃.deletions[0]? = some ⟨[], false⟩ := by
    obtain ⟨d, hd, hleft⟩ := Option.map_eq_some_iff.mp hend
    obtain ⟨left, unlinked⟩ := d
    cases hleft
    exact hd
  exact ⟨scan, s₃, hscan, hs, deletion_clears_rows sampleSystem_ids hscan hread
    (.cons (.inl rfl) hunlink (.cons (.inr rfl) hzrem (.nil _))) hdone⟩

end Deletion

end NetWatch.Storage.RedisScan
