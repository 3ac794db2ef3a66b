import Mathlib.Data.Prod.Lex
import Mathlib.Data.String.Basic
import NetWatch.GeoIp.Asn
import NetWatch.GeoIp.DestText
import NetWatch.History.Rollup
import NetWatch.Lib.Aggregate
import NetWatch.Lib.GroupFold

namespace NetWatch.History.NewDests

open Lib Lib.Aggregate Lib.Assoc Lib.Buckets Lib.GroupFold Lib.JsText Lib.JsValue
open Lib.IpText (mappedPrefixBytes)
open GeoIp.DestText (destText)
open Collector.Model (ProcId)
open Rollup (RollupRow)

def warmupMs : ℤ := 24 * 3600000

def hourS : ℤ := 3600

structure NewDestsOptions where
  fromMs : ℤ
  toMs : ℤ
  names : Option (List String)
  ports : Bool
  loopback : Bool
  warmup : Bool
  limit : ℕ

abbrev Address := Vector UInt8 16

def hasPeer (raddr : Address) : Bool :=
  raddr.toList ≠ List.replicate 16 0 && raddr.toList ≠ mappedPrefixBytes ++ List.replicate 4 0

def isLoopback (raddr : Address) : Bool :=
  raddr.toList = List.replicate 15 0 ++ [1] || (raddr.toList.take 12 = mappedPrefixBytes && raddr.toList[12]? = some 127)

/-- What the rows are grouped by: name, address and, if asked for, port. -/
abbrev Dest := String × Address × Option UInt16

def destOf (o : NewDestsOptions) (r : RollupRow) : Dest :=
  (r.name, r.key.raddr, if o.ports then some r.key.rport else none)

def minute (r : RollupRow) : ℤ := r.key.minute

def bytes (r : RollupRow) : ℕ := r.txBytes.toNat + r.rxBytes.toNat

def passes (o : NewDestsOptions) (r : RollupRow) : Bool := hasPeer r.key.raddr && o.names.all fun ns => ns.contains r.name

def inRange (o : NewDestsOptions) (fm : ℤ) : Bool := o.fromMs.tdiv 1000 ≤ fm && fm < o.toMs.tdiv 1000

/-- What is the database's own: the text of an address, and which of several rows
of one minute `argMin` reads. -/
structure ClickHouse where
  display : Address → Units
  choose : RollupRow → List RollupRow → RollupRow
  choose_mem : ∀ r rows, choose r rows ∈ r :: rows

/-- `min(minute)` -/
def minMinute (rows : List RollupRow) : Option ℤ := (rows.map minute).min?

def leastRows (rows : List RollupRow) : List RollupRow := rows.filter fun r => some (minute r) = minMinute rows

structure Contact where
  name : String
  ip : Units
  port : ℕ
  app : String
  proto : String
  firstS : ℤ
  iid : ProcId
  lo : Bool
  warm : Bool

def Contact.hidden (o : NewDestsOptions) (c : Contact) : Bool := (c.lo && !o.loopback) || (c.warm && !o.warmup)

structure NewDestRow extends Contact where
  nLo : ℕ
  nWarm : ℕ
  nVis : ℕ

structure FirstHourRow where
  name : String
  ip : Units
  port : ℕ
  m : ℤ
  bytes : ℕ

structure NewDest where
  name : String
  ip : Units
  port : ℕ
  dest : Units
  app : String
  proto : String
  firstMs : ℤ
  firstHourBytes : ℕ
  id : ProcId
  pid : UInt32
  loopback : Bool
  warmup : Bool

structure Hidden where
  loopback : ℕ
  warmup : ℕ

structure NewDestsResponse where
  fromMs : ℤ
  toMs : ℤ
  ports : Bool
  dests : List NewDest
  truncated : Bool
  hidden : Hidden
  warmupUntil : Option ℤ

section Queries

variable (ch : ClickHouse)

/-- `argMin(column, minute)` -/
def argMin {α : Type} [Inhabited α] (column : RollupRow → α) (rows : List RollupRow) : α :=
  match leastRows rows with
  | [] => default
  | r :: least => column (ch.choose r least)

def contact (start : ℤ) (k : Dest) (group : List RollupRow) : Contact where
  name := k.1
  ip := ch.display k.2.1
  port := (k.2.2.getD (argMin ch (fun r => r.key.rport) group)).toNat
  app := argMin ch (fun r => r.key.app) group
  proto := argMin ch (fun r => r.key.proto) group
  firstS := (minMinute group).getD 0
  iid := argMin ch (fun r => (r.key.pid, r.key.procStart)) group
  lo := isLoopback k.2.1
  warm := (minMinute group).getD 0 < start + warmupMs / 1000

def contactOrder (o : NewDestsOptions) (c : Contact) : Bool ×ₗ ℤ ×ₗ String ×ₗ List ℕ ×ₗ ℕ :=
  toLex (c.hidden o, toLex (c.firstS, toLex (c.name, toLex (c.ip.map UInt16.toNat, c.port))))

def newDestsSelect (o : NewDestsOptions) (start : ℤ) : Select RollupRow Dest Contact (Bool ×ₗ ℤ ×ₗ String ×ₗ List ℕ ×ₗ ℕ) where
  passes := passes o
  group := contact ch start
  having c := inRange o c.firstS
  order := contactOrder o
  limit := o.limit

/-- The window counts are taken over all groups, before the limit. -/
def newDestsQuery (o : NewDestsOptions) (table : List RollupRow) : List NewDestRow :=
  let q := newDestsSelect ch o ((minMinute table).getD 0)
  let all := (groups (destOf o) q table).filter q.having
  (select (destOf o) q table).map fun c =>
    { c with
      nLo := all.countP fun c => c.lo && !o.loopback
      nWarm := all.countP fun c => (c.warm && !o.warmup) && !(c.lo && !o.loopback)
      nVis := all.countP fun c => !c.hidden o }

def newKeys (o : NewDestsOptions) (table : List RollupRow) : List Dest :=
  ((table.filter (passes o)).map (destOf o)).dedup.filter fun k =>
    inRange o ((minMinute ((table.filter (passes o)).filter fun r => destOf o r = k)).getD 0)

def firstHourQuery (o : NewDestsOptions) (table : List RollupRow) : List FirstHourRow :=
  (groupSums (fun r => (destOf o r, minute r)) bytes (table.filter fun r =>
    (o.fromMs.tdiv 1000 - 60 ≤ minute r && minute r < o.toMs.tdiv 1000 + 3600) && (newKeys o table).contains (destOf o r))).map
    fun e => ⟨e.1.1.1, ch.display e.1.1.2.1, e.1.1.2.2.elim 0 UInt16.toNat, e.1.2, e.2⟩

end Queries

def keyOf (name : String) (ip : Units) (port : ℕ) : Units := units name ++ 0 :: (ip ++ 0 :: digitUnits 10 port)

def perKey (hours : List FirstHourRow) (o : NewDestsOptions) : Dict Units (List (ℤ × ℕ)) :=
  groupFold (fun h : FirstHourRow => keyOf h.name h.ip (if o.ports then h.port else 0)) (fun _ => [])
    (fun list h => list ++ [(h.m, h.bytes)]) hours

def firstHourBytes (first : ℤ) (list : List (ℤ × ℕ)) : ℕ :=
  list.foldl (fun b e => if first ≤ e.1 ∧ e.1 < first + hourS then b + e.2 else b) 0

def toNewDest (hours : List FirstHourRow) (o : NewDestsOptions) (c : Contact) : NewDest where
  name := c.name
  ip := c.ip
  port := c.port
  dest := destText c.ip c.port
  app := c.app
  proto := c.proto
  firstMs := c.firstS * 1000
  firstHourBytes := firstHourBytes c.firstS (((perKey hours o).get? (keyOf c.name c.ip (if o.ports then c.port else 0))).getD [])
  id := c.iid
  pid := c.iid.1
  loopback := c.lo
  warmup := c.warm

def buildNewDests (rows : List NewDestRow) (hours : List FirstHourRow) (o : NewDestsOptions) (firstMinuteMs : Option ℤ) :
    NewDestsResponse :=
  let visible := rows.filter fun r => !((r.lo && !o.loopback) || (r.warm && !o.warmup))
  { fromMs := o.fromMs
    toMs := o.toMs
    ports := o.ports
    dests := (visible.take o.limit).map fun r => toNewDest hours o r.toContact
    truncated := o.limit < (rows.head?.map NewDestRow.nVis).getD 0
    hidden := ⟨(rows.head?.map NewDestRow.nLo).getD 0, (rows.head?.map NewDestRow.nWarm).getD 0⟩
    warmupUntil := firstMinuteMs.map (· + warmupMs) }

/-- The answer of `/api/history/new-dests`, which asks for one row more than it
shows. -/
def newDests (ch : ClickHouse) (o : NewDestsOptions) (table : List RollupRow) : NewDestsResponse :=
  buildNewDests (newDestsQuery ch { o with limit := o.limit + 1 } table) (firstHourQuery ch o table) o
    ((minMinute table).map (· * 1000))

section Spec

variable (ch : ClickHouse) (o : NewDestsOptions) (table : List RollupRow)

def rowsOf (k : Dest) : List RollupRow := (table.filter (passes o)).filter fun r => destOf o r = k

def firstOf (k : Dest) : ℤ := (minMinute (rowsOf o table k)).getD 0

/-- A destination that counts and is first seen in the range. -/
def New (k : Dest) : Prop :=
  ∃ r ∈ table, passes o r = true ∧ destOf o r = k ∧ inRange o (minute r) = true ∧
    ∀ s ∈ table, passes o s = true → destOf o s = k → minute r ≤ minute s

def contactOf (k : Dest) : Contact := contact ch ((minMinute table).getD 0) k (rowsOf o table k)

def inHour (first m : ℤ) : Bool := first ≤ m && m < first + hourS

/-- All bytes of a destination in the hour that begins with its first minute. -/
def hourBytes (k : Dest) : ℕ := total bytes (table.filter fun r => destOf o r = k && inHour (firstOf o table k) (minute r))

def shown (k : Dest) : NewDest := { toNewDest [] o (contactOf ch o table k) with firstHourBytes := hourBytes o table k }

/-- Addresses of the table have different texts, without NULs. -/
structure Displays : Prop where
  inj : ∀ r ∈ table, ∀ s ∈ table, ch.display r.key.raddr = ch.display s.key.raddr → r.key.raddr = s.key.raddr
  noNul : ∀ r ∈ table, 0 ∉ ch.display r.key.raddr

end Spec

section Keys

variable {ch : ClickHouse} {o : NewDestsOptions} {table : List RollupRow} {k : Dest}

theorem minMinute_eq_some {rows : List RollupRow} {m : ℤ} :
    minMinute rows = some m ↔ (∃ r ∈ rows, minute r = m) ∧ ∀ s ∈ rows, m ≤ minute s := by
  rw [minMinute, List.min?_eq_some_iff, List.mem_map, List.forall_mem_map]

theorem exists_least {rows : List RollupRow} (hne : rows ≠ []) : ∃ r ∈ rows, ∀ s ∈ rows, minute r ≤ minute s := by
  cases hmin : minMinute rows with
  | none => exact absurd (List.map_eq_nil_iff.mp (List.min?_eq_none_iff.mp hmin)) hne
  | some m =>
      obtain ⟨⟨r, hr, rfl⟩, hleast⟩ := minMinute_eq_some.mp hmin
      exact ⟨r, hr, hleast⟩

theorem mem_leastRows {rows : List RollupRow} {r : RollupRow} :
    r ∈ leastRows rows ↔ r ∈ rows ∧ ∀ s ∈ rows, minute r ≤ minute s := by
  rw [leastRows, List.mem_filter, decide_eq_true_iff, eq_comm, minMinute_eq_some]
  constructor
  · rintro ⟨hr, -, hleast⟩
    exact ⟨hr, hleast⟩
  · rintro ⟨hr, hleast⟩
    exact ⟨hr, ⟨r, hr, rfl⟩, hleast⟩

theorem argMin_eq (ch : ClickHouse) {rows : List RollupRow} (hne : rows ≠ []) :
    ∃ r ∈ leastRows rows, ∀ {α : Type} [Inhabited α] (column : RollupRow → α), argMin ch column rows = column r := by
  obtain ⟨q, hq, hleast⟩ := exists_least hne
  have hmem : q ∈ leastRows rows := mem_leastRows.mpr ⟨hq, hleast⟩
  cases hrows : leastRows rows with
  | nil => rw [hrows] at hmem; cases hmem
  | cons r least =>
      refine ⟨ch.choose r least, ch.choose_mem r least, fun column => ?_⟩
      rw [argMin, hrows]

theorem mem_rowsOf {r : RollupRow} : r ∈ rowsOf o table k ↔ r ∈ table ∧ passes o r = true ∧ destOf o r = k := by
  simp only [rowsOf, List.mem_filter, decide_eq_true_eq, and_assoc]

theorem firstOf_eq {r : RollupRow} (hr : r ∈ rowsOf o table k) (hleast : ∀ s ∈ rowsOf o table k, minute r ≤ minute s) :
    firstOf o table k = minute r := by
  rw [firstOf, minMinute_eq_some.mpr ⟨⟨r, hr, rfl⟩, hleast⟩]
  rfl

theorem exists_first (hk : k ∈ (table.filter (passes o)).map (destOf o)) :
    ∃ r ∈ rowsOf o table k, firstOf o table k = minute r ∧ ∀ s ∈ rowsOf o table k, minute r ≤ minute s := by
  obtain ⟨q, hq, hqk⟩ := List.mem_map.mp hk
  have hmem : q ∈ rowsOf o table k := List.mem_filter.mpr ⟨hq, decide_eq_true hqk⟩
  obtain ⟨r, hr, hleast⟩ := exists_least (List.ne_nil_of_mem hmem)
  exact ⟨r, hr, firstOf_eq hr hleast, hleast⟩

theorem mem_newKeys : k ∈ newKeys o table ↔ New o table k := by
  rw [newKeys, List.mem_filter, List.mem_dedup]
  constructor
  · rintro ⟨hk, hrange⟩
    obtain ⟨r, hr, hfirst, hleast⟩ := exists_first hk
    obtain ⟨hmem, hpass, hdest⟩ := mem_rowsOf.mp hr
    have hminute : inRange o (firstOf o table k) = true := hrange
    refine ⟨r, hmem, hpass, hdest, hfirst ▸ hminute, fun s hs hsp hsk => hleast s (mem_rowsOf.mpr ⟨hs, hsp, hsk⟩)⟩
  · rintro ⟨r, hr, hpass, hdest, hrange, hleast⟩
    have hmem : r ∈ rowsOf o table k := mem_rowsOf.mpr ⟨hr, hpass, hdest⟩
    have hfirst : firstOf o table k = minute r := by
      refine firstOf_eq hmem fun s hs => ?_
      obtain ⟨hs, hsp, hsk⟩ := mem_rowsOf.mp hs
      exact hleast s hs hsp hsk
    refine ⟨List.mem_map.mpr ⟨r, List.mem_filter.mpr ⟨hr, hpass⟩, hdest⟩, ?_⟩
    have hminute : inRange o (firstOf o table k) = true := by rwa [hfirst]
    exact hminute

theorem nodup_newKeys (o : NewDestsOptions) (table : List RollupRow) : (newKeys o table).Nodup :=
  (List.nodup_dedup _).filter _

theorem all_eq (ch : ClickHouse) (o : NewDestsOptions) (table : List RollupRow) :
    (groups (destOf o) (newDestsSelect ch o ((minMinute table).getD 0)) table).filter
        (newDestsSelect ch o ((minMinute table).getD 0)).having =
      (newKeys o table).map (contactOf ch o table) := by
  rw [groups, List.filter_map]
  rfl

end Keys

section Sorted

variable (ch : ClickHouse) (o : NewDestsOptions) (table : List RollupRow)

def before (a b : Dest) : Prop :=
  contactOrder o (contactOf ch o table a) ≤ contactOrder o (contactOf ch o table b)

instance : DecidableRel (before ch o table) := fun _ _ => inferInstanceAs (Decidable (_ ≤ _))

def hiddenKey (k : Dest) : Bool := (contactOf ch o table k).hidden o

def sortedKeys : List Dest := (newKeys o table).insertionSort (before ch o table)

def visibleKeys : List Dest := (sortedKeys ch o table).filter fun k => !hiddenKey ch o table k

variable {ch o table}

theorem sortedKeys_perm : (sortedKeys ch o table).Perm (newKeys o table) := List.perm_insertionSort _ _

theorem sortedKeys_pairwise : (sortedKeys ch o table).Pairwise (before ch o table) := by
  have : Std.Total (before ch o table) := ⟨fun a b => le_total _ _⟩
  have : IsTrans Dest (before ch o table) := ⟨fun _ _ _ => le_trans⟩
  exact List.pairwise_insertionSort _ _

theorem hidden_last {a b : Dest} (h : before ch o table a b) (ha : hiddenKey ch o table a = true) :
    hiddenKey ch o table b = true := by
  have hle : hiddenKey ch o table a ≤ hiddenKey ch o table b := (Prod.Lex.monotone_fst _ _ h)
  rw [ha] at hle
  exact top_le_iff.mp hle

theorem first_le {a b : Dest} (h : before ch o table a b) (ha : hiddenKey ch o table a = hiddenKey ch o table b) :
    firstOf o table a ≤ firstOf o table b := by
  rcases Prod.Lex.toLex_le_toLex.mp h with hlt | ⟨-, hle⟩
  · exact absurd ha hlt.ne
  · exact Prod.Lex.monotone_fst _ _ hle

/-- What is cut off before the hidden rows are dropped is not missed. -/
theorem filter_take {α : Type} {p : α → Bool} {l : List α} (h : l.Pairwise fun a b => p a = true → p b = true) (n : ℕ) :
    (l.take n).filter (fun a => !p a) = (l.filter fun a => !p a).take n := by
  induction l generalizing n with
  | nil => simp
  | cons a l ih =>
      obtain ⟨ha, hl⟩ := List.pairwise_cons.mp h
      cases n with
      | zero => rfl
      | succ n =>
          cases hp : p a with
          | false => simp [hp, ih hl]
          | true =>
              have hnone : ∀ b ∈ l, p b = true := fun b hb => ha b hb hp
              have hrest : l.filter (fun a => !p a) = [] := List.filter_eq_nil_iff.mpr fun b hb => by simp [hnone b hb]
              have htake : (l.take n).filter (fun a => !p a) = [] :=
                List.filter_eq_nil_iff.mpr fun b hb => by simp [hnone b (List.mem_of_mem_take hb)]
              simp [hp, hrest, htake]

theorem select_eq (n : ℕ) : select (destOf o) (newDestsSelect ch { o with limit := n } ((minMinute table).getD 0)) table =
    ((sortedKeys ch o table).take n).map (contactOf ch o table) := by
  have hsorted : (sortedKeys ch o table).map (contactOf ch o table) =
      ((newKeys o table).map (contactOf ch o table)).insertionSort fun a b => contactOrder o a ≤ contactOrder o b :=
    List.map_insertionSort _ _ _ _ fun _ _ _ _ => Iff.rfl
  rw [List.map_take, hsorted, ← all_eq]
  rfl

theorem query_rows (n : ℕ) : (newDestsQuery ch { o with limit := n } table).map NewDestRow.toContact =
    ((sortedKeys ch o table).take n).map (contactOf ch o table) := by
  rw [← select_eq, newDestsQuery, List.map_map]
  exact List.map_id _

end Sorted

section Hours

variable {ch : ClickHouse} {o : NewDestsOptions} {table : List RollupRow} {k : Dest}

def keyText (ch : ClickHouse) (k : Dest) : Units := keyOf k.1 (ch.display k.2.1) (k.2.2.elim 0 UInt16.toNat)

theorem keyOf_inj {name name' : String} {ip ip' : Units} {port port' : ℕ} (hip : 0 ∉ ip) (hip' : 0 ∉ ip')
    (h : keyOf name ip port = keyOf name' ip' port') : name = name' ∧ ip = ip' ∧ port = port' := by
  simp only [keyOf] at h
  rw [← List.cons_append, ← List.append_assoc, ← List.cons_append, ← List.append_assoc] at h
  obtain ⟨hfront, hport⟩ := Lib.Texts.append_sep_inj_last (GeoIp.Asn.zero_notMem_digitUnits _)
    (GeoIp.Asn.zero_notMem_digitUnits _) h
  obtain ⟨hname, haddr⟩ := Lib.Texts.append_sep_inj_last hip hip' hfront
  exact ⟨units_injective hname, haddr, digitUnits_injective (by omega) (by omega) hport⟩

theorem keyText_inj (h : Displays ch table) {r s : RollupRow} (hr : r ∈ table) (hs : s ∈ table)
    (heq : keyText ch (destOf o r) = keyText ch (destOf o s)) : destOf o r = destOf o s := by
  obtain ⟨hname, hip, hport⟩ := keyOf_inj (h.noNul r hr) (h.noNul s hs) heq
  refine Prod.ext hname (Prod.ext (h.inj r hr s hs hip) ?_)
  cases hports : o.ports with
  | false => simp [destOf, hports]
  | true =>
      simp only [destOf, hports, if_true, Option.elim_some] at hport ⊢
      exact congrArg some (UInt16.toNat_inj.mp hport)

theorem foldl_snoc {α β : Type} (f : α → β) (l : List α) : l.foldl (fun acc a => acc ++ [f a]) [] = l.map f := by
  induction l using List.reverseRecOn with
  | nil => rfl
  | append_singleton l a ih => rw [List.foldl_append, List.foldl_cons, List.foldl_nil, ih, List.map_append, List.map_singleton]

theorem firstHourBytes_eq (first : ℤ) (list : List (ℤ × ℕ)) :
    firstHourBytes first list = total Prod.snd (list.filter fun e => inHour first e.1) := by
  induction list using List.reverseRecOn with
  | nil => rfl
  | append_singleton list e ih =>
      rw [firstHourBytes, List.foldl_append, List.filter_append, total_append, ← ih]
      by_cases he : first ≤ e.1 ∧ e.1 < first + hourS
      · simp [firstHourBytes, inHour, he]
      · simp [firstHourBytes, inHour, he]

theorem inHour_iff (first m : ℤ) : inHour first m = true ↔ first ≤ m ∧ m < first + 3600 := by
  rw [inHour, Bool.and_eq_true, decide_eq_true_iff, decide_eq_true_iff, hourS]

theorem get_perKey (hours : List FirstHourRow) (text : Units) : ((perKey hours o).get? text).getD [] =
    (hours.filter fun h => keyOf h.name h.ip (if o.ports then h.port else 0) = text).map fun h => (h.m, h.bytes) := by
  rw [perKey, get?_groupFold, collect_const, ← foldl_snoc]
  by_cases hnil : GroupFold.ofKey (fun h : FirstHourRow => keyOf h.name h.ip (if o.ports then h.port else 0)) text hours = []
  · have hnone : (hours.filter fun h => keyOf h.name h.ip (if o.ports then h.port else 0) = text) = [] := hnil
    rw [if_pos hnil, hnone]
    rfl
  · rw [if_neg hnil]
    rfl

def hourSums (o : NewDestsOptions) (table : List RollupRow) : List ((Dest × ℤ) × ℕ) :=
  groupSums (fun r => (destOf o r, minute r)) bytes (table.filter fun r =>
    (o.fromMs.tdiv 1000 - 60 ≤ minute r && minute r < o.toMs.tdiv 1000 + 3600) && (newKeys o table).contains (destOf o r))

def hourRow (ch : ClickHouse) (e : (Dest × ℤ) × ℕ) : FirstHourRow :=
  ⟨e.1.1.1, ch.display e.1.1.2.1, e.1.1.2.2.elim 0 UInt16.toNat, e.1.2, e.2⟩

theorem hourRow_key (h : Displays ch table) {e : (Dest × ℤ) × ℕ} (he : e ∈ hourSums o table) {r : RollupRow}
    (hr : r ∈ table) : keyOf (hourRow ch e).name (hourRow ch e).ip (if o.ports then (hourRow ch e).port else 0) =
      keyText ch (destOf o r) ↔ e.1.1 = destOf o r := by
  obtain ⟨g, hg, rfl⟩ := List.mem_map.mp he
  obtain ⟨q, hq, rfl⟩ := List.mem_map.mp (List.mem_dedup.mp hg)
  have htext : keyOf q.name (ch.display q.key.raddr) (if o.ports then (destOf o q).2.2.elim 0 UInt16.toNat else 0) =
      keyText ch (destOf o q) := by
    cases hports : o.ports <;> simp [keyText, destOf, hports]
  refine (Eq.congr_left htext).trans ⟨?_, fun heq => congrArg _ heq⟩
  exact keyText_inj h (List.mem_filter.mp hq).1 hr

/-- The two queries fit together: the bytes of a destination's first hour are all
there, and no others. -/
theorem hour_total (h : Displays ch table) (hk : New o table k) :
    firstHourBytes (firstOf o table k) (((perKey (firstHourQuery ch o table) o).get?
      (keyText ch k)).getD []) = hourBytes o table k := by
  have hnew := mem_newKeys.mpr hk
  obtain ⟨r, hr, hpass, rfl, hrange, hleast⟩ := hk
  set first := firstOf o table (destOf o r) with hfirstOf
  have hfirst : first = minute r := by
    refine firstOf_eq (mem_rowsOf.mpr ⟨hr, hpass, rfl⟩) fun s hs => ?_
    obtain ⟨hs, hsp, hsk⟩ := mem_rowsOf.mp hs
    exact hleast s hs hsp hsk
  have hlist : ((perKey (firstHourQuery ch o table) o).get? (keyText ch (destOf o r))).getD [] =
      ((hourSums o table).filter fun e => e.1.1 = destOf o r).map fun e => (e.1.2, e.2) := by
    have hrows : firstHourQuery ch o table = (hourSums o table).map (hourRow ch) := rfl
    rw [get_perKey, hrows, List.filter_map, List.map_map]
    refine congrArg (List.map _) (List.filter_congr fun e he => ?_)
    exact decide_eq_decide.mpr (hourRow_key h he hr)
  have hwindow : ∀ q ∈ table, destOf o q = destOf o r → inHour first (minute q) = true →
      ((o.fromMs.tdiv 1000 - 60 ≤ minute q && minute q < o.toMs.tdiv 1000 + 3600) &&
        (newKeys o table).contains (destOf o q)) = true := by
    intro q _ hq hin
    rw [inHour_iff] at hin
    simp only [inRange, Bool.and_eq_true, decide_eq_true_eq] at hrange
    simp only [Bool.and_eq_true, decide_eq_true_eq, List.contains_iff_mem]
    refine ⟨⟨?_, ?_⟩, hq ▸ hnew⟩ <;> omega
  have hsums : firstHourBytes first (((perKey (firstHourQuery ch o table) o).get?
      (keyText ch (destOf o r))).getD []) =
        total Prod.snd ((hourSums o table).filter fun e => e.1.1 = destOf o r && inHour first e.1.2) := by
    rw [hlist, firstHourBytes_eq, List.filter_map, total_map, List.filter_filter]
    refine congrArg (total _) (List.filter_congr fun e _ => ?_)
    rw [Function.comp_apply, Bool.and_comm]
  rw [hsums, hourSums, total_groups (fun q => (destOf o q, minute q)) bytes fun g => g.1 = destOf o r && inHour first g.2,
    List.filter_filter, hourBytes]
  refine congrArg (total bytes) (List.filter_congr fun q hq => ?_)
  by_cases hin : destOf o q = destOf o r ∧ inHour first (minute q) = true
  · rw [hwindow q hq hin.1 hin.2, Bool.and_true]
  · have hout : (decide (destOf o q = destOf o r) && inHour first (minute q)) = false := by simpa using hin
    rw [hout, Bool.false_and]

end Hours

section Answer

variable {ch : ClickHouse} {o : NewDestsOptions} {table : List RollupRow} {k : Dest}

theorem mem_sortedKeys : k ∈ sortedKeys ch o table ↔ New o table k := sortedKeys_perm.mem_iff.trans mem_newKeys

theorem toNewDest_eq (h : Displays ch table) (hk : New o table k) :
    toNewDest (firstHourQuery ch o table) o (contactOf ch o table k) = shown ch o table k := by
  have hbytes := hour_total h hk
  obtain ⟨r, -, -, rfl, -, -⟩ := hk
  have htext : keyOf (contactOf ch o table (destOf o r)).name (contactOf ch o table (destOf o r)).ip
      (if o.ports then (contactOf ch o table (destOf o r)).port else 0) = keyText ch (destOf o r) := by
    cases hports : o.ports <;> simp [keyText, contactOf, contact, destOf, hports]
  rw [← htext] at hbytes
  rw [shown, ← hbytes]
  rfl

theorem shown_row (hk : New o table k) : ∃ r ∈ table, passes o r = true ∧ r.name = (shown ch o table k).name ∧
    ch.display r.key.raddr = (shown ch o table k).ip ∧ r.key.rport.toNat = (shown ch o table k).port ∧
    minute r * 1000 = (shown ch o table k).firstMs ∧ r.key.app = (shown ch o table k).app ∧
    r.key.proto = (shown ch o table k).proto ∧ (r.key.pid, r.key.procStart) = (shown ch o table k).id := by
  obtain ⟨q, hq, hqpass, hqdest, -, -⟩ := hk
  have hmem : q ∈ rowsOf o table k := mem_rowsOf.mpr ⟨hq, hqpass, hqdest⟩
  obtain ⟨r, hleast, hcolumn⟩ := argMin_eq ch (List.ne_nil_of_mem hmem)
  obtain ⟨hrow, hleast⟩ := mem_leastRows.mp hleast
  have hfirst : firstOf o table k = minute r := firstOf_eq hrow hleast
  obtain ⟨hr, hpass, rfl⟩ := mem_rowsOf.mp hrow
  have hport : r.key.rport.toNat = (shown ch o table (destOf o r)).port := by
    change _ = ((if o.ports then some r.key.rport else none).getD (argMin ch (fun r => r.key.rport) _)).toNat
    rw [hcolumn]
    cases o.ports <;> rfl
  have happ := (hcolumn fun r => r.key.app).symm
  have hproto := (hcolumn fun r => r.key.proto).symm
  have hid := (hcolumn fun r => (r.key.pid, r.key.procStart)).symm
  exact ⟨r, hr, hpass, rfl, rfl, hport, by rw [← hfirst]; rfl, happ, hproto, hid⟩

theorem countP_partition {α : Type} (p q : α → Bool) (l : List α) :
    l.countP p + (l.countP fun a => q a && !p a) + (l.countP fun a => !(p a || q a)) = l.length := by
  induction l with
  | nil => rfl
  | cons a l ih =>
      rw [List.countP_cons, List.countP_cons, List.countP_cons, List.length_cons]
      cases hp : p a <;> cases hq : q a <;>
        simp only [Bool.and_false, Bool.and_true, Bool.or_false, Bool.or_true, Bool.not_false, Bool.not_true,
          Bool.false_eq_true, if_false, if_true] <;> omega

/-- What an answer is to be: the destinations that are not hidden in the order of
their first contacts, as many as asked for, each with its first hour and what
a row of its first minute says, and counts of all the others. -/
structure Truthful (ch : ClickHouse) (o : NewDestsOptions) (table : List RollupRow) (out : NewDestsResponse) :
    Prop where
  listed : ∃ l : List Dest, l.Nodup ∧ (∀ k, k ∈ l ↔ New o table k ∧ hiddenKey ch o table k = false) ∧
    l.Pairwise (fun a b => firstOf o table a ≤ firstOf o table b) ∧
    out.dests = (l.take o.limit).map (shown ch o table) ∧ (out.truncated = true ↔ o.limit < l.length) ∧
    out.hidden.loopback + out.hidden.warmup + l.length = (newKeys o table).length
  loopback : out.hidden.loopback = (newKeys o table).countP fun k => isLoopback k.2.1 && !o.loopback
  told : ∀ d ∈ out.dests, ∃ r ∈ table, passes o r = true ∧ r.name = d.name ∧ ch.display r.key.raddr = d.ip ∧
    r.key.rport.toNat = d.port ∧ minute r * 1000 = d.firstMs ∧ r.key.app = d.app ∧ r.key.proto = d.proto ∧
    (r.key.pid, r.key.procStart) = d.id

/-- The counts come with the first row, and there is one unless they are all 0. -/
theorem head_count (n : ℕ) (count : NewDestRow → ℕ) (p : Contact → Bool)
    (hcount : ∀ row ∈ newDestsQuery ch { o with limit := n + 1 } table,
      count row = ((newKeys o table).map (contactOf ch o table)).countP p) :
    ((newDestsQuery ch { o with limit := n + 1 } table).head?.map count).getD 0 =
      ((newKeys o table).map (contactOf ch o table)).countP p := by
  cases hhead : (newDestsQuery ch { o with limit := n + 1 } table).head? with
  | some row => exact hcount row (List.mem_of_head? hhead)
  | none =>
      have hrows : (newDestsQuery ch { o with limit := n + 1 } table).map NewDestRow.toContact = _ := query_rows (n + 1)
      rw [List.head?_eq_none_iff.mp hhead] at hrows
      have hempty : sortedKeys ch o table = [] := by
        cases hkeys : sortedKeys ch o table with
        | nil => rfl
        | cons k l => rw [hkeys] at hrows; cases hrows
      have hperm : (sortedKeys ch o table).Perm (newKeys o table) := sortedKeys_perm
      have hnone : newKeys o table = [] := (hempty ▸ hperm).symm.eq_nil
      rw [hnone]
      rfl

def contactsOf (ch : ClickHouse) (o : NewDestsOptions) (table : List RollupRow) : List Contact :=
  (newKeys o table).map (contactOf ch o table)

theorem visible_rows (ch : ClickHouse) (o : NewDestsOptions) (table : List RollupRow) :
    (((newDestsQuery ch { o with limit := o.limit + 1 } table).filter fun r =>
      !((r.lo && !o.loopback) || (r.warm && !o.warmup))).take o.limit).map NewDestRow.toContact =
        ((visibleKeys ch o table).take o.limit).map (contactOf ch o table) := by
  have hlast : (sortedKeys ch o table).Pairwise fun a b =>
      hiddenKey ch o table a = true → hiddenKey ch o table b = true :=
    sortedKeys_pairwise.imp fun hab => hidden_last hab
  have hfilter : ((newDestsQuery ch { o with limit := o.limit + 1 } table).filter fun r =>
      !((r.lo && !o.loopback) || (r.warm && !o.warmup))).map NewDestRow.toContact =
        (((newDestsQuery ch { o with limit := o.limit + 1 } table).map NewDestRow.toContact).filter fun c =>
          !c.hidden o) := by
    rw [List.filter_map]
    rfl
  have hcut : ((sortedKeys ch o table).take (o.limit + 1)).filter (fun k => !hiddenKey ch o table k) =
      (visibleKeys ch o table).take (o.limit + 1) := filter_take hlast _
  rw [List.map_take, hfilter, query_rows, List.filter_map, ← List.map_take]
  refine congrArg (List.map _) ((congrArg (List.take o.limit) hcut).trans ?_)
  rw [List.take_take, min_eq_left (Nat.le_succ _)]

theorem visible_count (ch : ClickHouse) (o : NewDestsOptions) (table : List RollupRow) :
    ((contactsOf ch o table).countP fun c => !c.hidden o) = (visibleKeys ch o table).length := by
  rw [contactsOf, List.countP_map, List.countP_eq_length_filter, visibleKeys]
  exact (sortedKeys_perm.filter _).length_eq.symm

theorem newDests_eq (h : Displays ch table) : newDests ch o table =
    { fromMs := o.fromMs
      toMs := o.toMs
      ports := o.ports
      dests := ((visibleKeys ch o table).take o.limit).map (shown ch o table)
      truncated := o.limit < (visibleKeys ch o table).length
      hidden := ⟨(contactsOf ch o table).countP fun c => c.lo && !o.loopback,
        (contactsOf ch o table).countP fun c => (c.warm && !o.warmup) && !(c.lo && !o.loopback)⟩
      warmupUntil := ((minMinute table).map (· * 1000)).map (· + warmupMs) } := by
  have hcounts : ∀ row ∈ newDestsQuery ch { o with limit := o.limit + 1 } table,
      row.nLo = ((contactsOf ch o table).countP fun c => c.lo && !o.loopback) ∧
        row.nWarm = ((contactsOf ch o table).countP fun c => (c.warm && !o.warmup) && !(c.lo && !o.loopback)) ∧
        row.nVis = (contactsOf ch o table).countP fun c => !c.hidden o := by
    intro row hrow
    obtain ⟨c, -, rfl⟩ := List.mem_map.mp hrow
    rw [contactsOf, ← all_eq]
    exact ⟨rfl, rfl, rfl⟩
  have hdests : (newDests ch o table).dests = ((visibleKeys ch o table).take o.limit).map (shown ch o table) := by
    have hmapped := congrArg (List.map (toNewDest (firstHourQuery ch o table) o)) (visible_rows ch o table)
    rw [List.map_map, List.map_map] at hmapped
    refine (hmapped : (newDests ch o table).dests = _).trans ?_
    refine List.map_congr_left fun k hk => toNewDest_eq h ?_
    exact mem_sortedKeys.mp (List.mem_filter.mp (List.mem_of_mem_take hk)).1
  have hlo := head_count o.limit NewDestRow.nLo _ fun row hrow => (hcounts row hrow).1
  have hwarm := head_count o.limit NewDestRow.nWarm _ fun row hrow => (hcounts row hrow).2.1
  have hvis := head_count o.limit NewDestRow.nVis _ fun row hrow => (hcounts row hrow).2.2
  rw [← visible_count, ← hdests, contactsOf, ← hlo, ← hwarm, ← hvis]
  rfl

/-- The answer lists the destinations first seen in the range and only them. -/
theorem newDests_truthful (ch : ClickHouse) (o : NewDestsOptions) (table : List RollupRow)
    (h : Displays ch table) : Truthful ch o table (newDests ch o table) := by
  rw [newDests_eq h]
  constructor
  · refine ⟨visibleKeys ch o table, ?_, ?_, ?_, rfl, decide_eq_true_iff, ?_⟩
    · exact (sortedKeys_perm.nodup_iff.mpr (nodup_newKeys o table)).filter _
    · intro k
      rw [visibleKeys, List.mem_filter, mem_sortedKeys, Bool.not_eq_true']
    · refine (sortedKeys_pairwise.filter _).imp_of_mem fun {a b} ha hb hab => first_le hab ?_
      have ha' := (List.mem_filter.mp ha).2
      have hb' := (List.mem_filter.mp hb).2
      rw [Bool.not_eq_true'] at ha' hb'
      rw [ha', hb']
    · have hall := countP_partition (fun c : Contact => c.lo && !o.loopback) (fun c => c.warm && !o.warmup)
        (contactsOf ch o table)
      change _ + _ + ((contactsOf ch o table).countP fun c => !c.hidden o) = _ at hall
      rw [visible_count] at hall
      rwa [contactsOf, List.length_map] at hall
  · exact List.countP_map
  · intro d hd
    obtain ⟨k, hk, rfl⟩ := List.mem_map.mp hd
    exact shown_row (mem_sortedKeys.mp (List.mem_filter.mp (List.mem_of_mem_take hk)).1)

end Answer

section Past

variable {ch : ClickHouse} {o : NewDestsOptions} {table later : List RollupRow} {k : Dest}

theorem minMinute_append {l l' : List RollupRow} {r : RollupRow} (hr : r ∈ l) (hle : ∀ s ∈ l', minute r ≤ minute s) :
    minMinute (l ++ l') = minMinute l := by
  obtain ⟨q, hq, hleast⟩ := exists_least (List.ne_nil_of_mem hr)
  rw [minMinute_eq_some.mpr ⟨⟨q, hq, rfl⟩, hleast⟩]
  refine minMinute_eq_some.mpr ⟨⟨q, List.mem_append_left _ hq, rfl⟩, fun s hs => ?_⟩
  obtain hs | hs := List.mem_append.mp hs
  · exact hleast s hs
  · exact (hleast r hr).trans (hle s hs)

theorem leastRows_append {l l' : List RollupRow} {r : RollupRow} (hr : r ∈ l) (hlt : ∀ s ∈ l', minute r < minute s) :
    leastRows (l ++ l') = leastRows l := by
  obtain ⟨q, hq, hleast⟩ := exists_least (List.ne_nil_of_mem hr)
  have hmin : minMinute l = some (minute q) := minMinute_eq_some.mpr ⟨⟨q, hq, rfl⟩, hleast⟩
  have hnone : l'.filter (fun s => some (minute s) = minMinute l) = [] := by
    refine List.filter_eq_nil_iff.mpr fun s hs heq => ?_
    rw [decide_eq_true_iff, hmin, Option.some.injEq] at heq
    have hqr := hleast r hr
    have hrs := hlt s hs
    omega
  rw [leastRows, minMinute_append hr fun s hs => (hlt s hs).le, List.filter_append, hnone, List.append_nil, leastRows]

theorem new_append (hlater : ∀ r ∈ later, o.toMs.tdiv 1000 ≤ minute r) : New o (table ++ later) k ↔ New o table k := by
  have hbefore : ∀ {r : RollupRow}, inRange o (minute r) = true → minute r < o.toMs.tdiv 1000 := by
    intro r hr
    exact of_decide_eq_true (Bool.and_eq_true_iff.mp hr).2
  constructor
  · rintro ⟨r, hr, hpass, hdest, hrange, hleast⟩
    have hlt := hbefore hrange
    rcases List.mem_append.mp hr with hr | hr
    · exact ⟨r, hr, hpass, hdest, hrange, fun s hs => hleast s (List.mem_append_left _ hs)⟩
    · have hge := hlater r hr
      omega
  · rintro ⟨r, hr, hpass, hdest, hrange, hleast⟩
    have hlt := hbefore hrange
    refine ⟨r, List.mem_append_left _ hr, hpass, hdest, hrange, fun s hs hsp hsk => ?_⟩
    rcases List.mem_append.mp hs with hs | hs
    · exact hleast s hs hsp hsk
    · have hge := hlater s hs
      omega

theorem rowsOf_append (o : NewDestsOptions) (table later : List RollupRow) (k : Dest) :
    rowsOf o (table ++ later) k = rowsOf o table k ++ rowsOf o later k := by
  simp only [rowsOf, List.filter_append]

theorem exists_before (hk : New o table k) (hlater : ∀ r ∈ later, o.toMs.tdiv 1000 ≤ minute r) :
    ∃ r ∈ rowsOf o table k, ∀ s ∈ rowsOf o later k, minute r < minute s := by
  obtain ⟨r, hr, hpass, hdest, hrange, -⟩ := hk
  have hlt : minute r < o.toMs.tdiv 1000 := of_decide_eq_true (Bool.and_eq_true_iff.mp hrange).2
  exact ⟨r, mem_rowsOf.mpr ⟨hr, hpass, hdest⟩, fun s hs => hlt.trans_le (hlater s (mem_rowsOf.mp hs).1)⟩

theorem firstOf_append (hk : New o table k) (hlater : ∀ r ∈ later, o.toMs.tdiv 1000 ≤ minute r) :
    firstOf o (table ++ later) k = firstOf o table k := by
  obtain ⟨r, hr, hlt⟩ := exists_before hk hlater
  rw [firstOf, rowsOf_append, minMinute_append hr fun s hs => (hlt s hs).le, firstOf]

theorem before_antisymm (h : Displays ch table) {a b : Dest} (ha : New o table a) (hb : New o table b)
    (hab : before ch o table a b) (hba : before ch o table b a) : a = b := by
  have heq := le_antisymm hab hba
  obtain ⟨r, hr, -, rfl, -, -⟩ := ha
  obtain ⟨s, hs, -, rfl, -, -⟩ := hb
  simp only [contactOrder, EmbeddingLike.apply_eq_iff_eq, Prod.mk.injEq] at heq
  obtain ⟨-, -, hname, hip, hport⟩ := heq
  have hunits : Function.Injective (List.map UInt16.toNat) := List.map_injective_iff.mpr fun x y => UInt16.toNat_inj.mp
  refine Prod.ext hname (Prod.ext (h.inj r hr s hs (hunits hip)) ?_)
  cases hports : o.ports with
  | false => simp [destOf, hports]
  | true =>
      simp only [contactOf, contact, destOf, hports, if_true, Option.getD_some] at hport ⊢
      exact congrArg some (UInt16.toNat_inj.mp hport)

theorem contactOf_append (hk : New o table k) (hlater : ∀ r ∈ later, o.toMs.tdiv 1000 ≤ minute r)
    (hstart : minMinute (table ++ later) = minMinute table) :
    contactOf ch o (table ++ later) k = contactOf ch o table k := by
  obtain ⟨r, hr, hlt⟩ := exists_before hk hlater
  have hleast : leastRows (rowsOf o (table ++ later) k) = leastRows (rowsOf o table k) := by
    rw [rowsOf_append, leastRows_append hr hlt]
  have hmin : minMinute (rowsOf o (table ++ later) k) = minMinute (rowsOf o table k) := by
    rw [rowsOf_append, minMinute_append hr fun s hs => (hlt s hs).le]
  simp only [contactOf, contact, argMin, hstart, hleast, hmin]

theorem hourBytes_append (hk : New o table k) (hlater : ∀ r ∈ later, o.toMs.tdiv 1000 + 3600 ≤ minute r) :
    hourBytes o (table ++ later) k = hourBytes o table k := by
  have hfirst : firstOf o (table ++ later) k = firstOf o table k := by
    refine firstOf_append hk fun r hr => ?_
    have hge := hlater r hr
    omega
  obtain ⟨r, hr, hpass, hdest, hrange, hleast⟩ := hk
  have hlt : firstOf o table k < o.toMs.tdiv 1000 := by
    have hmin : firstOf o table k = minute r := by
      refine firstOf_eq (mem_rowsOf.mpr ⟨hr, hpass, hdest⟩) fun s hs => ?_
      obtain ⟨hs, hsp, hsk⟩ := mem_rowsOf.mp hs
      exact hleast s hs hsp hsk
    rw [hmin]
    exact of_decide_eq_true (Bool.and_eq_true_iff.mp hrange).2
  have hnone : later.filter (fun r => destOf o r = k && inHour (firstOf o table k) (minute r)) = [] := by
    refine List.filter_eq_nil_iff.mpr fun s hs hin => ?_
    obtain ⟨-, hhour⟩ := Bool.and_eq_true_iff.mp hin
    have hge := hlater s hs
    have hupper := ((inHour_iff _ _).mp hhour).2
    omega
  rw [hourBytes, hourBytes, hfirst, List.filter_append, hnone, List.append_nil]

/-- An answer about the past is final: rows that are recorded from an hour after
the end of the range on do not change it. -/
theorem past_answers_final (ch : ClickHouse) (o : NewDestsOptions) {table later : List RollupRow}
    (h : Displays ch (table ++ later)) (hne : table ≠ []) (hafter : ∀ r ∈ later, ∀ s ∈ table, minute s ≤ minute r)
    (hlater : ∀ r ∈ later, o.toMs.tdiv 1000 + 3600 ≤ minute r) :
    newDests ch o (table ++ later) = newDests ch o table := by
  have hpast : ∀ r ∈ later, o.toMs.tdiv 1000 ≤ minute r := by
    intro r hr
    have := hlater r hr
    omega
  have htable : Displays ch table :=
    ⟨fun r hr s hs => h.inj r (List.mem_append_left _ hr) s (List.mem_append_left _ hs),
      fun r hr => h.noNul r (List.mem_append_left _ hr)⟩
  have hstart : minMinute (table ++ later) = minMinute table := by
    obtain ⟨q, hq⟩ := List.exists_mem_of_ne_nil table hne
    exact minMinute_append hq fun s hs => hafter s hs q hq
  have hnew : ∀ {k}, New o (table ++ later) k ↔ New o table k := new_append hpast
  have hcontact : ∀ k, New o table k → contactOf ch o (table ++ later) k = contactOf ch o table k :=
    fun k hk => contactOf_append hk hpast hstart
  have hperm : (newKeys o (table ++ later)).Perm (newKeys o table) := by
    refine (List.perm_ext_iff_of_nodup (nodup_newKeys _ _) (nodup_newKeys _ _)).mpr fun k => ?_
    rw [mem_newKeys, mem_newKeys, hnew]
  have hsorted : sortedKeys ch o (table ++ later) = sortedKeys ch o table := by
    have hmem : ∀ k ∈ sortedKeys ch o (table ++ later), New o table k := fun k hk => hnew.mp (mem_sortedKeys.mp hk)
    have hpairwise : (sortedKeys ch o (table ++ later)).Pairwise (before ch o table) := by
      refine sortedKeys_pairwise.imp_of_mem fun {a b} ha hb hab => ?_
      rwa [before, hcontact a (hmem a ha), hcontact b (hmem b hb)] at hab
    refine List.Perm.eq_of_pairwise ?_ hpairwise sortedKeys_pairwise ((sortedKeys_perm.trans hperm).trans sortedKeys_perm.symm)
    exact fun a b ha hb hab hba => before_antisymm htable (hmem a ha) (mem_sortedKeys.mp hb) hab hba
  have hvisible : visibleKeys ch o (table ++ later) = visibleKeys ch o table := by
    rw [visibleKeys, visibleKeys, hsorted]
    refine List.filter_congr fun k hk => ?_
    rw [hiddenKey, hiddenKey, hcontact k (mem_sortedKeys.mp hk)]
  have hshown : ((visibleKeys ch o table).take o.limit).map (shown ch o (table ++ later)) =
      ((visibleKeys ch o table).take o.limit).map (shown ch o table) := by
    refine List.map_congr_left fun k hk => ?_
    have hk' : New o table k := mem_sortedKeys.mp (List.mem_filter.mp (List.mem_of_mem_take hk)).1
    rw [shown, shown, hcontact k hk', hourBytes_append hk' hlater]
  have hcontacts : (contactsOf ch o (table ++ later)).Perm (contactsOf ch o table) := by
    have hsame : contactsOf ch o (table ++ later) =
        (newKeys o (table ++ later)).map (contactOf ch o table) :=
      List.map_congr_left fun k hk => hcontact k (hnew.mp (mem_newKeys.mp hk))
    rw [hsame]
    exact hperm.map _
  rw [newDests_eq h, newDests_eq htable, hvisible, hshown, hstart, hcontacts.countP_eq, hcontacts.countP_eq]

end Past

section Sample

def sampleAddress : Address := #v[0, 0, 0, 0, 0, 0, 0, 0, 0, 0, 0xff, 0xff, 1, 2, 3, 4]

def sampleLoopback : Address := #v[0, 0, 0, 0, 0, 0, 0, 0, 0, 0, 0, 0, 0, 0, 0, 1]

def sampleServer : ClickHouse where
  display raddr := if raddr = sampleAddress then units "1.2.3.4" else units "::1"
  choose r rows := (r :: rows).getLast (List.cons_ne_nil r rows)
  choose_mem _ _ := List.getLast_mem _

def sampleRow (minute : ℤ) (raddr : Address) (tx : UInt64) : RollupRow :=
  ⟨⟨minute, 7, 5, "TCP", "HTTPS", raddr, 443⟩, "curl", tx, 0, 1, 0⟩

def sampleTable : List RollupRow :=
  [sampleRow 0 sampleLoopback 1, sampleRow 120000 sampleAddress 100,
    ⟨⟨120000, 8, 6, "UDP", "QUIC", sampleAddress, 443⟩, "curl", 50, 0, 1, 0⟩, sampleRow 123540 sampleAddress 10]

def sampleOptions : NewDestsOptions := ⟨0, 121000000, none, false, false, true, 5⟩

/-- Two rows that are an hour after the first contact or later. -/
def sampleLater : List RollupRow := [sampleRow 124620 sampleAddress 1000, sampleRow 124680 sampleLoopback 7]

theorem sampleTable_displays : Displays sampleServer (sampleTable ++ sampleLater) := ⟨by decide +kernel, by decide +kernel⟩

theorem newDests_truthful_sample :
    Truthful sampleServer sampleOptions (sampleTable ++ sampleLater)
        (newDests sampleServer sampleOptions (sampleTable ++ sampleLater)) ∧
      (newDests sampleServer sampleOptions (sampleTable ++ sampleLater)).dests.map
        (fun d => (d.dest, d.app, d.firstHourBytes)) = [(units "1.2.3.4:443", "QUIC", 160)] :=
  ⟨newDests_truthful _ _ _ sampleTable_displays, by decide +kernel⟩

theorem past_answers_final_sample : newDests sampleServer sampleOptions (sampleTable ++ sampleLater) =
    newDests sampleServer sampleOptions sampleTable :=
  past_answers_final _ _ sampleTable_displays (by decide) (by decide) (by decide)

end Sample

end NetWatch.History.NewDests
