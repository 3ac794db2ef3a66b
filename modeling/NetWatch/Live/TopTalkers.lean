import NetWatch.Live.Contiguity
import NetWatch.Live.Stacks

namespace NetWatch.Live.TopTalkers

open Hub Link Ranking Stacks Lib Lib.Assoc Lib.JsText Lib.JsValue Lib.Runs Lib.SortBy Lib.Timeline

def sparkMs : ℤ := 60000

def idleMs : ℤ := 30000

def maxRows : ℕ := 200

structure LiveProcessRow where
  id : Units
  pid : ℕ
  name : Units
  cmdline : Units
  uid : ℕ
  user : Option Units
  startMs : ℤ
  endedMs : Option ℤ
  txKbps : ℚ
  rxKbps : ℚ
  txTotal : ℚ
  rxTotal : ℚ
  nFlows : ℕ

structure Spark where
  tx : List (Option ℚ)
  rx : List (Option ℚ)
  sum : ℚ
  lastActiveTs : Option ℤ

/-- The ticks of the last milliseconds before the newest one, with the scan from the end. -/
def recent (windowMs : ℤ) (ticks : List ChartTick) : List ChartTick :=
  match ticks.getLast? with
  | none => []
  | some newest => ticks.rtakeWhile fun t => newest.ts - windowMs < t.ts

def latestTs (ticks : List ChartTick) : Option ℤ := ticks.getLast?.map CompactTick.ts

section Sparks

def Spark.empty : Spark := ⟨[], [], 0, none⟩

/-- The point of a tick without traffic, after a break where there is a gap. -/
def Spark.begin (first : Bool) (t : ChartTick) (s : Spark) : Spark :=
  let s := if t.gap && !first then { s with tx := s.tx ++ [none], rx := s.rx ++ [none] } else s
  { s with tx := s.tx ++ [some 0], rx := s.rx ++ [some 0] }

def Spark.see (ts : ℤ) (s : Spark) (p : TickProc) : Spark where
  tx := s.tx.dropLast ++ [some p.tx]
  rx := s.rx.dropLast ++ [some p.rx]
  sum := Binary64.add s.sum (Binary64.add p.tx p.rx)
  lastActiveTs := if 0 < p.tx ∨ 0 < p.rx then some ts else s.lastActiveTs

def sparkTick (first : Bool) (out : Dict Units Spark) (t : ChartTick) : Dict Units Spark :=
  t.body.procs.foldl (fun out p => (out.get? p.id).elim out fun s => out.insert p.id (s.see t.ts p))
    (out.mapVals fun _ s => s.begin first t)

def buildSparks (ticks : List ChartTick) (ids : List Units) (windowMs : ℤ) : Dict Units Spark :=
  let out := ids.foldl (fun out id => out.insert id Spark.empty) .empty
  match recent windowMs ticks with
  | [] => out
  | t :: ts => ts.foldl (sparkTick false) (sparkTick true out t)

end Sparks

section Rows

def isIdle (row : LiveProcessRow) (spark : Option Spark) (newestTs : Option ℤ) : Bool :=
  if row.endedMs ≠ none then false
  else if 0 < row.txKbps ∨ 0 < row.rxKbps then false
  else
    match spark.bind Spark.lastActiveTs, newestTs with
    | some last, some newest => idleMs ≤ newest - last
    | _, _ => true

inductive SortKey
  | rate
  | name
  | pid
  | user
  | tx
  | rx
  | spark
  | flows
  | txTotal
  | rxTotal
  | age
  deriving DecidableEq

def sortKeys : List SortKey := [.rate, .name, .pid, .user, .tx, .rx, .spark, .flows, .txTotal, .rxTotal, .age]

def SortKey.text : SortKey → Units
  | .rate => units "rate"
  | .name => units "name"
  | .pid => units "pid"
  | .user => units "user"
  | .tx => units "tx"
  | .rx => units "rx"
  | .spark => units "spark"
  | .flows => units "flows"
  | .txTotal => units "txTotal"
  | .rxTotal => units "rxTotal"
  | .age => units "age"

structure TableSort where
  key : SortKey
  desc : Bool
  deriving DecidableEq

def defaultSort : TableSort := ⟨.rate, true⟩

def minus : UInt16 := 45

def parseSort (param : Units) : TableSort :=
  let desc := param.head? = some minus
  let key := if desc then param.tail else param
  ((sortKeys.find? fun k => k.text = key).map fun k => ⟨k, desc⟩).getD defaultSort

def formatSort (s : TableSort) : Units := (if s.desc then [minus] else []) ++ s.key.text

def nextSort (cur : TableSort) (key : SortKey) : TableSort :=
  if cur.key = key then ⟨key, !cur.desc⟩ else ⟨key, !(key = .name ∨ key = .user)⟩

theorem parse_format (s : TableSort) : parseSort (formatSort s) = s := by
  have hall : ∀ k ∈ sortKeys, ∀ d ∈ [true, false], parseSort (formatSort ⟨k, d⟩) = ⟨k, d⟩ := by decide +kernel
  obtain ⟨key, desc⟩ := s
  exact hall key (by cases key <;> decide) desc (by cases desc <;> decide)

-- `lower` is `toLowerCase`.
variable (lower : Units → Units)

def matchesFilter (row : LiveProcessRow) (filter : Units) : Bool :=
  let f := lower (trim filter)
  f.isEmpty || (indexOf? f (lower row.name)).isSome || (indexOf? f (lower row.cmdline)).isSome

def userLabel (r : LiveProcessRow) : Units := r.user.getD (units ("uid " ++ toString r.uid))

/-- What a key sorts by: numbers, or texts by their units. -/
def sortValue (sums : Units → ℚ) : SortKey → (LiveProcessRow → ℚ) ⊕ (LiveProcessRow → Units)
  | .rate => .inl fun r => Binary64.add r.txKbps r.rxKbps
  | .name => .inr fun r => lower r.name
  | .pid => .inl fun r => r.pid
  | .user => .inr fun r => lower (userLabel r)
  | .tx => .inl LiveProcessRow.txKbps
  | .rx => .inl LiveProcessRow.rxKbps
  | .spark => .inl fun r => sums r.id
  | .flows => .inl fun r => r.nFlows
  | .txTotal => .inl LiveProcessRow.txTotal
  | .rxTotal => .inl LiveProcessRow.rxTotal
  | .age => .inl fun r => -r.startMs

def byValue (v : (LiveProcessRow → ℚ) ⊕ (LiveProcessRow → Units)) (a b : LiveProcessRow) : Ordering :=
  match v with
  | .inl f => compareOn f a b
  | .inr f => compareOn f a b

def rowOrder (sums : Units → ℚ) (sort : TableSort) : LiveProcessRow → LiveProcessRow → Ordering :=
  compareLex (fun a b => if sort.desc then byValue (sortValue lower sums sort.key) b a else byValue (sortValue lower sums sort.key) a b)
    (compareOn LiveProcessRow.id)

def sumOf (sparks : Dict Units Spark) (id : Units) : ℚ := ((sparks.get? id).map Spark.sum).getD 0

def sortRows (rows : List LiveProcessRow) (sort : TableSort) (sparks : Dict Units Spark) : List LiveProcessRow :=
  sortBy (rowOrder lower (sumOf sparks) sort) rows

structure Controls where
  hiddenNames : List Units
  filter : Units
  hideEnded : Bool
  hideIdle : Bool
  sortParam : Units

def Controls.sort (c : Controls) : TableSort := parseSort c.sortParam

/-- A click on the header of a column. -/
def Controls.onSort (c : Controls) (key : SortKey) : Controls := { c with sortParam := formatSort (nextSort c.sort key) }

structure View where
  visible : List LiveProcessRow
  overflow : ℕ
  byName : ℕ
  filtered : ℕ
  ended : ℕ
  idle : ℕ
  total : ℕ
  max : ℚ

def tableSparks (buffer : List ChartTick) (rows : List LiveProcessRow) : Dict Units Spark :=
  buildSparks (recent sparkMs buffer) (rows.map LiveProcessRow.id) sparkMs

def named (c : Controls) (rows : List LiveProcessRow) : List LiveProcessRow := rows.filter fun r => r.name ∉ c.hiddenNames

def matched (c : Controls) (rows : List LiveProcessRow) : List LiveProcessRow := (named c rows).filter fun r => matchesFilter lower r c.filter

def current (c : Controls) (rows : List LiveProcessRow) : List LiveProcessRow :=
  if c.hideEnded then (matched lower c rows).filter fun r => r.endedMs = none else matched lower c rows

def shown (c : Controls) (buffer : List ChartTick) (rows : List LiveProcessRow) : List LiveProcessRow :=
  if c.hideIdle then (current lower c rows).filter fun r => !isIdle r ((tableSparks buffer rows).get? r.id) (latestTs buffer)
  else current lower c rows

def sorted (c : Controls) (buffer : List ChartTick) (rows : List LiveProcessRow) : List LiveProcessRow :=
  sortRows lower (shown lower c buffer rows) c.sort (tableSparks buffer rows)

/-- The table over the buffer of a tab. -/
def view (c : Controls) (buffer : List ChartTick) (rows : List LiveProcessRow) : View :=
  let visible := (sorted lower c buffer rows).take maxRows
  { visible := visible
    overflow := (sorted lower c buffer rows).length - visible.length
    byName := rows.length - (named c rows).length
    filtered := (named c rows).length - (matched lower c rows).length
    ended := (matched lower c rows).length - (current lower c rows).length
    idle := (current lower c rows).length - (shown lower c buffer rows).length
    total := rows.length
    max := visible.foldl (fun m r => max m (max r.txKbps r.rxKbps)) 0 }

end Rows

section Series

def own (id : Units) (t : ChartTick) : List TickProc := t.body.procs.filter fun p => p.id = id

def busy (id : Units) (t : ChartTick) : Bool := (own id t).any fun p => 0 < p.tx ∨ 0 < p.rx

def rateOf (rate : TickProc → ℚ) (id : Units) (t : ChartTick) : ℚ := ((own id t).getLast?.map rate).getD 0

def sparkStep (id : Units) (first : Bool) (s : Spark) (t : ChartTick) : Spark := (own id t).foldl (Spark.see t.ts) (s.begin first t)

def sparkOf (id : Units) : List ChartTick → Spark
  | [] => .empty
  | t :: ts => ts.foldl (sparkStep id false) (sparkStep id true .empty t)

variable {id : Units} {s : Spark} {t : ChartTick} {ts : List ChartTick} {ids : List Units} {first : Bool}

theorem get?_see (ps : List TickProc) (at' : ℤ) (out : Dict Units Spark) :
    (ps.foldl (fun out p => (out.get? p.id).elim out fun s => out.insert p.id (s.see at' p)) out).get? id =
      (out.get? id).map fun s => (ps.filter fun p => p.id = id).foldl (Spark.see at') s := by
  induction ps generalizing out with
  | nil => simp
  | cons p ps ih =>
      rw [List.foldl_cons, ih]
      by_cases hid : p.id = id
      · rw [List.filter_cons_of_pos (by simpa using hid), hid]
        cases hget : out.get? id with
        | none => simp [hget]
        | some s => simp
      · rw [List.filter_cons_of_neg (by simpa using hid)]
        cases hget : out.get? p.id with
        | none => rfl
        | some s => simp [Ne.symm hid]

theorem get?_sparkTick (out : Dict Units Spark) : (sparkTick first out t).get? id = (out.get? id).map fun s => sparkStep id first s t := by
  rw [sparkTick, get?_see, Dict.get?_mapVals, Option.map_map]
  rfl

theorem get?_ticks (ts : List ChartTick) (out : Dict Units Spark) :
    (ts.foldl (sparkTick false) out).get? id = (out.get? id).map fun s => ts.foldl (sparkStep id false) s := by
  induction ts generalizing out with
  | nil => simp
  | cons t ts ih =>
      rw [List.foldl_cons, ih, get?_sparkTick, Option.map_map]
      rfl

theorem get?_ids (ids : List Units) (out : Dict Units Spark) :
    (ids.foldl (fun out id => out.insert id Spark.empty) out).get? id = if id ∈ ids then some .empty else out.get? id := by
  induction ids generalizing out with
  | nil => simp
  | cons k ids ih =>
      rw [List.foldl_cons, ih, Dict.get?_insert]
      by_cases hk : k = id <;> by_cases hid : id ∈ ids <;> simp [hk, hid, Ne.symm]

theorem get?_buildSparks (ticks : List ChartTick) (ids : List Units) (windowMs : ℤ) :
    (buildSparks ticks ids windowMs).get? id = if id ∈ ids then some (sparkOf id (recent windowMs ticks)) else none := by
  rw [buildSparks]
  cases recent windowMs ticks with
  | nil =>
      dsimp only
      rw [get?_ids, Dict.get?_empty]
      rfl
  | cons t ts =>
      dsimp only
      rw [get?_ticks, get?_sparkTick, get?_ids, Dict.get?_empty]
      split <;> rfl

theorem sparkOf_snoc (ts : List ChartTick) (t : ChartTick) : sparkOf id (ts ++ [t]) = sparkStep id ts.isEmpty (sparkOf id ts) t := by
  cases ts with
  | nil => rfl
  | cons u ts => simp [sparkOf]

theorem see_series (ps : List TickProc) (at' : ℤ) {base baseRx : List (Option ℚ)} {v w : ℚ} (htx : s.tx = base ++ [some v])
    (hrx : s.rx = baseRx ++ [some w]) : (ps.foldl (Spark.see at') s).tx = base ++ [some ((ps.getLast?.map TickProc.tx).getD v)] ∧
      (ps.foldl (Spark.see at') s).rx = baseRx ++ [some ((ps.getLast?.map TickProc.rx).getD w)] := by
  induction ps using List.reverseRecOn with
  | nil => exact ⟨htx, hrx⟩
  | append_singleton ps p ih =>
      rw [List.foldl_append]
      simp [Spark.see, ih]

theorem see_sum (ps : List TickProc) (at' : ℤ) (s : Spark) :
    (ps.foldl (Spark.see at') s).sum = ps.foldl (fun sum p => Binary64.add sum (Binary64.add p.tx p.rx)) s.sum := by
  induction ps generalizing s with
  | nil => rfl
  | cons p ps ih => exact ih _

theorem see_last (ps : List TickProc) (at' : ℤ) (s : Spark) : (ps.foldl (Spark.see at') s).lastActiveTs =
    if ps.any fun p => 0 < p.tx ∨ 0 < p.rx then some at' else s.lastActiveTs := by
  induction ps using List.reverseRecOn with
  | nil => rfl
  | append_singleton ps p ih =>
      rw [List.foldl_append, List.any_append]
      by_cases hp : 0 < p.tx ∨ 0 < p.rx <;> simp [Spark.see, ih, hp]

theorem isEmpty_columns (ts : List ChartTick) : (columns ts).isEmpty = ts.isEmpty := by
  cases ts using List.reverseRecOn with
  | nil => rfl
  | append_singleton ts t =>
      rw [columns_snoc, List.isEmpty_eq_false_iff.mpr (List.append_ne_nil_of_right_ne_nil _ (List.cons_ne_nil _ _)),
        List.isEmpty_eq_false_iff.mpr (List.append_ne_nil_of_right_ne_nil _ (List.cons_ne_nil _ _))]

theorem begin_series (s : Spark) : (s.begin first t).tx = (if t.gap && !first then s.tx ++ [none] else s.tx) ++ [some 0] ∧
    (s.begin first t).rx = (if t.gap && !first then s.rx ++ [none] else s.rx) ++ [some 0] := by
  rw [Spark.begin]
  split <;> exact ⟨rfl, rfl⟩

/-- A line has the rate of the process in each tick, and a break before each gap. -/
theorem sparkOf_series (id : Units) (ts : List ChartTick) : (sparkOf id ts).tx = (columns ts).map (fun c => c.2.map (rateOf TickProc.tx id)) ∧
    (sparkOf id ts).rx = (columns ts).map fun c => c.2.map (rateOf TickProc.rx id) := by
  induction ts using List.reverseRecOn with
  | nil => exact ⟨rfl, rfl⟩
  | append_singleton ts t ih =>
      obtain ⟨htx, hrx⟩ := see_series (own id t) t.ts (begin_series (sparkOf id ts)).1 (begin_series _).2
      rw [sparkOf_snoc, sparkStep, htx, hrx, ih.1, ih.2, columns_snoc, isEmpty_columns]
      cases t.gap && !ts.isEmpty <;> simp [rateOf]

theorem begin_rest (s : Spark) : (s.begin first t).sum = s.sum ∧ (s.begin first t).lastActiveTs = s.lastActiveTs := by
  rw [Spark.begin]
  split <;> exact ⟨rfl, rfl⟩

def windowSum (ts : List ChartTick) (id : Units) : ℚ :=
  (ts.flatMap (own id)).foldl (fun sum p => Binary64.add sum (Binary64.add p.tx p.rx)) 0

theorem sparkOf_sum (id : Units) (ts : List ChartTick) : (sparkOf id ts).sum = windowSum ts id := by
  induction ts using List.reverseRecOn with
  | nil => rfl
  | append_singleton ts t ih =>
      rw [sparkOf_snoc, sparkStep, see_sum, (begin_rest _).1, ih, windowSum, windowSum, List.flatMap_append, List.foldl_append]
      simp

theorem sparkOf_last (id : Units) (ts : List ChartTick) : (sparkOf id ts).lastActiveTs = (ts.filter (busy id)).getLast?.map CompactTick.ts := by
  induction ts using List.reverseRecOn with
  | nil => rfl
  | append_singleton ts t ih =>
      rw [sparkOf_snoc, sparkStep, see_last, (begin_rest _).2, ih, List.filter_append]
      change (if busy id t then _ else _) = _
      cases hbusy : busy id t <;> simp [hbusy]

end Series

section Table

variable {lower : Units → Units} {sums sums' : Units → ℚ} {sort : TableSort} {a b r : LiveProcessRow} {rows rows' : List LiveProcessRow}
  {buffer : List ChartTick} {c : Controls}

instance (v : (LiveProcessRow → ℚ) ⊕ (LiveProcessRow → Units)) : Std.TransCmp (byValue v) := by
  cases v with
  | inl f => exact inferInstanceAs (Std.TransCmp (compareOn f))
  | inr f => exact inferInstanceAs (Std.TransCmp (compareOn f))

instance : Std.TransCmp (rowOrder lower sums sort) := by
  cases hdesc : sort.desc with
  | true =>
      have hcmp : rowOrder lower sums sort = compareLex (fun a b => byValue (sortValue lower sums sort.key) b a) (compareOn LiveProcessRow.id) := by
        rw [rowOrder, hdesc]
        rfl
      rw [hcmp]
      exact inferInstance
  | false =>
      have hcmp : rowOrder lower sums sort = compareLex (byValue (sortValue lower sums sort.key)) (compareOn LiveProcessRow.id) := by
        rw [rowOrder, hdesc]
        rfl
      rw [hcmp]
      exact inferInstance

theorem rowOrder_eq (h : rowOrder lower sums sort a b = .eq) : a.id = b.id := Std.LawfulEqCmp.eq_of_compare (lex_eq.mp h).2

theorem rowOrder_congr (ha : sums a.id = sums' a.id) (hb : sums b.id = sums' b.id) : rowOrder lower sums sort a b = rowOrder lower sums' sort a b := by
  obtain ⟨key, desc⟩ := sort
  cases key <;> simp [rowOrder, sortValue, byValue, compareOn, compareLex, ha, hb]

def within (windowMs : ℤ) (buffer : List ChartTick) : List ChartTick :=
  buffer.filter fun t => (latestTs buffer).getD 0 - windowMs < t.ts

theorem recent_eq (h : Increasing CompactTick.ts buffer) (windowMs : ℤ) : recent windowMs buffer = within windowMs buffer := by
  rw [recent, within, latestTs]
  cases hlast : buffer.getLast? with
  | none =>
      rw [List.getLast?_eq_none_iff.mp hlast]
      rfl
  | some newest => exact rtakeWhile_later h _

theorem latest_within {windowMs : ℤ} (hpos : 0 < windowMs) : latestTs (within windowMs buffer) = latestTs buffer := by
  cases buffer using List.reverseRecOn with
  | nil => rfl
  | append_singleton l t => simp [within, latestTs, hpos]

theorem recent_twice (h : Increasing CompactTick.ts buffer) {windowMs : ℤ} (hpos : 0 < windowMs) :
    recent windowMs (recent windowMs buffer) = within windowMs buffer := by
  have hwithin : Increasing CompactTick.ts (within windowMs buffer) := h.filter _
  rw [recent_eq h, recent_eq hwithin, within, latest_within hpos]
  exact List.filter_eq_self.mpr fun t ht => (List.mem_filter.mp ht).2

def lineOf (buffer : List ChartTick) (id : Units) : Spark where
  tx := (columns (within sparkMs buffer)).map fun c => c.2.map (rateOf TickProc.tx id)
  rx := (columns (within sparkMs buffer)).map fun c => c.2.map (rateOf TickProc.rx id)
  sum := windowSum (within sparkMs buffer) id
  lastActiveTs := ((within sparkMs buffer).filter (busy id)).getLast?.map CompactTick.ts

theorem sparkOf_eq (id : Units) (ts : List ChartTick) : sparkOf id ts =
    { tx := (columns ts).map fun c => c.2.map (rateOf TickProc.tx id), rx := (columns ts).map fun c => c.2.map (rateOf TickProc.rx id)
      sum := windowSum ts id, lastActiveTs := ((ts.filter (busy id)).getLast?.map CompactTick.ts) } := by
  rw [← (sparkOf_series id ts).1, ← (sparkOf_series id ts).2, ← sparkOf_sum, ← sparkOf_last]

theorem get?_tableSparks (h : Increasing CompactTick.ts buffer) (hr : r ∈ rows) : (tableSparks buffer rows).get? r.id = some (lineOf buffer r.id) := by
  rw [tableSparks, get?_buildSparks, recent_twice h (by decide), if_pos (List.mem_map_of_mem hr), sparkOf_eq]
  rfl

/-- Ended, with traffic now, or with some in the half minute before the newest tick. -/
def Lively (buffer : List ChartTick) (r : LiveProcessRow) : Prop :=
  r.endedMs ≠ none ∨ 0 < r.txKbps ∨ 0 < r.rxKbps ∨ ∃ t ∈ within idleMs buffer, busy r.id t = true

instance : Decidable (Lively buffer r) := inferInstanceAs (Decidable (_ ∨ _))

theorem isIdle_iff (h : Increasing CompactTick.ts buffer) : isIdle r (some (lineOf buffer r.id)) (latestTs buffer) = false ↔ Lively buffer r := by
  unfold isIdle Lively
  by_cases hended : r.endedMs ≠ none
  · exact iff_of_true (if_pos hended) (.inl hended)
  rw [if_neg hended, or_iff_right hended]
  by_cases hrate : 0 < r.txKbps ∨ 0 < r.rxKbps
  · exact iff_of_true (if_pos hrate) (or_assoc.mp (.inl hrate))
  rw [if_neg hrate, ← or_assoc, or_iff_right hrate]
  have hbusy : Increasing CompactTick.ts ((within sparkMs buffer).filter (busy r.id)) := (h.filter _).filter _
  have hmem : ∀ t ∈ within idleMs buffer, busy r.id t = true → t ∈ (within sparkMs buffer).filter (busy r.id) := by
    intro t ht hbusyT
    obtain ⟨htbuf, hlate⟩ := List.mem_filter.mp ht
    have hlate := of_decide_eq_true hlate
    refine List.mem_filter.mpr ⟨List.mem_filter.mpr ⟨htbuf, decide_eq_true ?_⟩, hbusyT⟩
    simp only [idleMs, sparkMs] at hlate ⊢
    omega
  rw [Option.bind_some]
  dsimp only [lineOf]
  cases hlast : ((within sparkMs buffer).filter (busy r.id)).getLast? with
  | none =>
      rw [List.getLast?_eq_none_iff.mp hlast] at hmem
      exact iff_of_false nofun fun ⟨t, ht, hbusyT⟩ => nomatch hmem t ht hbusyT
  | some u =>
      obtain ⟨huwithin, hubusy⟩ := List.mem_filter.mp (List.mem_of_getLast? hlast)
      obtain ⟨hubuf, -⟩ := List.mem_filter.mp huwithin
      obtain ⟨newest, hnewest⟩ : ∃ newest, buffer.getLast? = some newest := ⟨_, List.getLast?_eq_some_getLast (List.ne_nil_of_mem hubuf)⟩
      rw [within, latestTs, hnewest]
      simp only [Option.map_some, Option.getD_some, decide_eq_false_iff_not, not_le]
      constructor
      · intro hlate
        exact ⟨u, List.mem_filter.mpr ⟨hubuf, decide_eq_true (by omega)⟩, hubusy⟩
      · rintro ⟨t, ht, hbusyT⟩
        have hlate := of_decide_eq_true (List.mem_filter.mp ht).2
        have hle : t.ts ≤ u.ts := by
          refine le_last hbusy hlast (hmem t ?_ hbusyT)
          rw [within, latestTs, hnewest]
          exact ht
        omega

variable (lower buffer c)

def Wanted (r : LiveProcessRow) : Prop :=
  r.name ∉ c.hiddenNames ∧ matchesFilter lower r c.filter = true ∧ (c.hideEnded = true → r.endedMs = none) ∧ (c.hideIdle = true → Lively buffer r)

instance : DecidablePred (Wanted lower buffer c) := fun _ => inferInstanceAs (Decidable (_ ∧ _))

variable {lower buffer c}

theorem shown_eq (h : Increasing CompactTick.ts buffer) (rows : List LiveProcessRow) :
    shown lower c buffer rows = rows.filter fun r => Wanted lower buffer c r := by
  have hcurrent : current lower c rows = rows.filter fun r =>
      r.name ∉ c.hiddenNames ∧ matchesFilter lower r c.filter = true ∧ (c.hideEnded = true → r.endedMs = none) := by
    rw [current, matched, named]
    split
    case isTrue hended =>
      rw [List.filter_filter, List.filter_filter]
      exact List.filter_congr fun r _ => by simp [hended, Bool.and_comm]
    case isFalse hended =>
      rw [List.filter_filter]
      exact List.filter_congr fun r _ => by simp [hended, Bool.and_comm]
  rw [shown, hcurrent]
  split
  case isTrue hidle =>
    rw [List.filter_filter]
    refine List.filter_congr fun r hr => ?_
    rw [get?_tableSparks h hr]
    have hiff : (!isIdle r (some (lineOf buffer r.id)) (latestTs buffer)) = decide (Lively buffer r) := by
      rw [Bool.eq_iff_iff, Bool.not_eq_true', decide_eq_true_iff]
      exact isIdle_iff h
    rw [hiff]
    simp [Wanted, hidle, Bool.and_comm, Bool.and_left_comm, Bool.and_assoc]
  case isFalse hidle => exact List.filter_congr fun r _ => by simp [Wanted, hidle]

theorem rowOrder_inj (hids : (rows.map LiveProcessRow.id).Nodup) (wanted : LiveProcessRow → Bool) :
    ∀ a ∈ rows.filter wanted, ∀ b ∈ rows.filter wanted, rowOrder lower sums sort a b = .eq → a = b := by
  intro a ha b hb heq
  exact List.inj_on_of_nodup_map hids (List.mem_of_mem_filter ha) (List.mem_of_mem_filter hb) (rowOrder_eq heq)

theorem sumOf_eq (h : Increasing CompactTick.ts buffer) (hr : r ∈ rows) : sumOf (tableSparks buffer rows) r.id = windowSum (within sparkMs buffer) r.id := by
  rw [sumOf, get?_tableSparks h hr]
  rfl

theorem get?_tableSparks_perm (h : rows.Perm rows') (id : Units) : (tableSparks buffer rows).get? id = (tableSparks buffer rows').get? id := by
  rw [tableSparks, tableSparks, get?_buildSparks, get?_buildSparks]
  simp only [(h.map LiveProcessRow.id).mem_iff]

theorem le_foldl_max (f : LiveProcessRow → ℚ) (l : List LiveProcessRow) (m : ℚ) :
    m ≤ l.foldl (fun m r => max m (f r)) m ∧ ∀ r ∈ l, f r ≤ l.foldl (fun m r => max m (f r)) m := by
  induction l generalizing m with
  | nil => exact ⟨le_refl m, nofun⟩
  | cons a l ih =>
      obtain ⟨hm, hl⟩ := ih (max m (f a))
      refine ⟨(le_max_left _ _).trans hm, ?_⟩
      intro r hr
      obtain rfl | hr := List.mem_cons.mp hr
      · exact (le_max_right _ _).trans hm
      · exact hl r hr

/-- A row is wanted and no row is left out in silence, and those that are shown come first. -/
structure Shows (lower : Units → Units) (buffer : List ChartTick) (c : Controls) (rows : List LiveProcessRow) (v : View) : Prop where
  accounted : v.visible.length + v.overflow + v.idle + v.ended + v.filtered + v.byName = v.total
  total : v.total = rows.length
  wanted : v.visible.length + v.overflow = (rows.filter fun r => Wanted lower buffer c r).length
  ordered : v.visible.Pairwise fun a b => rowOrder lower (windowSum (within sparkMs buffer)) c.sort a b = .lt
  top : ∀ r, r ∈ v.visible ↔ r ∈ rows ∧ Wanted lower buffer c r ∧
    (rows.filter fun b => Wanted lower buffer c b ∧ rowOrder lower (windowSum (within sparkMs buffer)) c.sort b r = .lt).length < 200
  bars : ∀ r ∈ v.visible, r.txKbps ≤ v.max ∧ r.rxKbps ≤ v.max

theorem view_shows (h : Increasing CompactTick.ts buffer) (hids : (rows.map LiveProcessRow.id).Nodup) :
    Shows lower buffer c rows (view lower c buffer rows) := by
  have hsorted : sorted lower c buffer rows =
      sortBy (rowOrder lower (sumOf (tableSparks buffer rows)) c.sort) (rows.filter fun r => Wanted lower buffer c r) := by
    rw [sorted, sortRows, shown_eq h]
  have hlen : (sorted lower c buffer rows).length = (shown lower c buffer rows).length := (sortBy_perm _).length_eq
  have hshown : (shown lower c buffer rows).length ≤ (current lower c rows).length := by
    rw [shown]
    split
    · exact List.length_filter_le _ _
    · exact le_refl _
  have hcurrent : (current lower c rows).length ≤ (matched lower c rows).length := by
    rw [current]
    split
    · exact List.length_filter_le _ _
    · exact le_refl _
  have hmatched : (matched lower c rows).length ≤ (named c rows).length := List.length_filter_le _ _
  have hnamed : (named c rows).length ≤ rows.length := List.length_filter_le _ _
  have htake : ((sorted lower c buffer rows).take maxRows).length ≤ (sorted lower c buffer rows).length := List.length_take_le' _ _
  have hnodup : (rows.filter fun r => Wanted lower buffer c r).Nodup := hids.of_map.filter _
  have horder : ∀ a ∈ rows, ∀ b ∈ rows, rowOrder lower (sumOf (tableSparks buffer rows)) c.sort a b =
      rowOrder lower (windowSum (within sparkMs buffer)) c.sort a b :=
    fun a ha b hb => rowOrder_congr (sumOf_eq h ha) (sumOf_eq h hb)
  have hrows : ∀ a ∈ sorted lower c buffer rows, a ∈ rows := by
    intro a ha
    rw [hsorted] at ha
    exact List.mem_of_mem_filter (mem_sortBy.mp ha)
  refine ⟨?_, rfl, ?_, ?_, ?_, ?_⟩
  · simp only [view]
    omega
  · rw [← shown_eq h, ← hlen]
    exact Nat.add_sub_cancel' htake
  · have hstrict : (sorted lower c buffer rows).Pairwise fun a b => rowOrder lower (sumOf (tableSparks buffer rows)) c.sort a b = .lt := by
      rw [hsorted]
      exact sortBy_strict hnodup (rowOrder_inj hids _)
    refine (hstrict.sublist (List.take_sublist _ _)).imp_of_mem fun {a b} ha hb hab => ?_
    rw [← horder a (hrows a (List.mem_of_mem_take ha)) b (hrows b (List.mem_of_mem_take hb))]
    exact hab
  · intro r
    change r ∈ (sorted lower c buffer rows).take maxRows ↔ _
    rw [hsorted, mem_take_sortBy hnodup (rowOrder_inj hids _), List.mem_filter, decide_eq_true_iff, and_assoc]
    refine and_congr_right fun hr => and_congr_right fun _ => ?_
    have hbefore : (rows.filter fun r => Wanted lower buffer c r).filter
        (fun b => rowOrder lower (sumOf (tableSparks buffer rows)) c.sort b r = .lt) =
        rows.filter fun b => Wanted lower buffer c b ∧ rowOrder lower (windowSum (within sparkMs buffer)) c.sort b r = .lt := by
      rw [List.filter_filter]
      refine List.filter_congr fun b hb => ?_
      rw [horder b hb r hr, Bool.decide_and, Bool.and_comm]
    rw [hbefore]
    rfl
  · intro r hr
    have hle := (le_foldl_max (fun r => max r.txKbps r.rxKbps) _ 0).2 r hr
    exact ⟨(le_max_left _ _).trans hle, (le_max_right _ _).trans hle⟩

theorem sort_onSort (c : Controls) (key : SortKey) : (c.onSort key).sort = nextSort c.sort key := parse_format _

/-- The order of the rows in the snapshot does not show. -/
theorem view_perm (h : Increasing CompactTick.ts buffer) (hids : (rows.map LiveProcessRow.id).Nodup) (hperm : rows.Perm rows') :
    view lower c buffer rows' = view lower c buffer rows := by
  have hsums : sumOf (tableSparks buffer rows') = sumOf (tableSparks buffer rows) := by
    funext id
    rw [sumOf, sumOf, get?_tableSparks_perm hperm]
  have hsorted : sorted lower c buffer rows' = sorted lower c buffer rows := by
    rw [sorted, sorted, sortRows, sortRows, hsums, shown_eq h, shown_eq h]
    exact (sortBy_congr (hperm.filter _) (rowOrder_inj hids _)).symm
  have hnamed : (named c rows').Perm (named c rows) := hperm.symm.filter _
  have hmatched : (matched lower c rows').Perm (matched lower c rows) := hnamed.filter _
  have hcurrent : (current lower c rows').Perm (current lower c rows) := by
    rw [current, current]
    split
    · exact hmatched.filter _
    · exact hmatched
  have hshown : (shown lower c buffer rows').Perm (shown lower c buffer rows) := by
    rw [shown_eq h, shown_eq h]
    exact hperm.symm.filter _
  simp only [view, hsorted, hperm.length_eq, hnamed.length_eq, hmatched.length_eq, hcurrent.length_eq, hshown.length_eq]

/-- After every run of a tab, the table has the rows that the controls let through,
the first 200 in order, counts all others, and draws the line of each. -/
theorem table_shows {cap : Capacity} {es : List (Event TickBody)} {s : Session TickBody} (hrun : Run (Session.step cap) Free .start es s)
    (lower : Units → Units) (c : Controls) {rows : List LiveProcessRow} (hids : (rows.map LiveProcessRow.id).Nodup) :
    Shows lower s.store.ticks c rows (view lower c s.store.ticks rows) ∧
      (∀ rows', rows.Perm rows' → view lower c s.store.ticks rows' = view lower c s.store.ticks rows) ∧
      (∀ key, (view lower (c.onSort key) s.store.ticks rows).visible.Pairwise fun a b =>
        rowOrder lower (windowSum (within sparkMs s.store.ticks)) (nextSort c.sort key) a b = .lt) ∧
      ∀ r ∈ rows, (tableSparks s.store.ticks rows).get? r.id = some (lineOf s.store.ticks r.id) := by
  have horder : Increasing CompactTick.ts s.store.ticks := (Contiguity.run_sound hrun).order.increasing
  refine ⟨view_shows horder hids, fun _ hperm => view_perm horder hids hperm, fun key => ?_, fun _ hr => get?_tableSparks horder hr⟩
  rw [← sort_onSort]
  exact (view_shows horder hids).ordered

def lowerAscii (text : Units) : Units := text.map fun u => if 65 ≤ u ∧ u ≤ 90 then u + 32 else u

/-- In the second tick only the first process has traffic. -/
def talkEvents : List (Event TickBody) :=
  [.backfill [⟨1000, 1000, false, ⟨3, 1, [⟨units "1:5", units "curl", 2, 1⟩, ⟨units "2:6", units "sshd", 1, 0⟩]⟩⟩,
    ⟨40000, 1000, true, ⟨1, 1, [⟨units "1:5", units "curl", 1, 1⟩]⟩⟩], .openStream, .connect, .deliver, .serve, .respond]

def talkCap : Capacity := ⟨1200, by decide, by decide⟩

theorem talkEvents_run : (exec (Session.step talkCap) .start talkEvents).isSome = true := by decide +kernel

def talkSession : Session TickBody := (exec (Session.step talkCap) .start talkEvents).get talkEvents_run

def talkRow (pid : ℕ) (name : String) (endedMs : Option ℤ) : LiveProcessRow :=
  ⟨units (toString pid ++ ":" ++ toString (pid + 4)), pid, units name, [], 0, none, 0, endedMs, 0, 0, 0, 0, 0⟩

def talkRows : List LiveProcessRow := [talkRow 1 "curl" none, talkRow 2 "SSHD" none, talkRow 3 "SSH" (some 900), talkRow 4 "nginx" none]

def talkControls : Controls := ⟨[units "nginx"], units " ssh", false, true, units "-pid"⟩

theorem table_shows_sample : (view lowerAscii talkControls talkSession.store.ticks talkRows).visible.map LiveProcessRow.pid = [3] ∧
    Shows lowerAscii talkSession.store.ticks talkControls talkRows (view lowerAscii talkControls talkSession.store.ticks talkRows) :=
  ⟨by decide +kernel, (table_shows (Run.of_exec (Option.some_get talkEvents_run).symm) lowerAscii talkControls (by decide +kernel)).1⟩

end Table

end NetWatch.Live.TopTalkers
