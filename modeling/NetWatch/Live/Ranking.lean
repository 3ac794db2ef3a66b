import NetWatch.Lib.Binary64
import NetWatch.Lib.GroupFold
import NetWatch.Lib.JsValue
import NetWatch.Lib.SortBy
import NetWatch.Live.Hub

namespace NetWatch.Live.Ranking

open Hub Lib Lib.Assoc Lib.GroupFold Lib.JsValue Lib.SortBy

inductive GroupBy
  | name
  | id
  deriving DecidableEq

def rankEveryMs : ℤ := 5000

def holdMs : ℤ := 15000

structure TickProc where
  id : Units
  name : Units
  tx : ℚ
  rx : ℚ

abbrev Tick := CompactTick (List TickProc)

structure RankState where
  groupBy : GroupBy
  windowS : ℚ
  rankedAt : ℤ
  top : List Units
  lastInTop : Dict Units ℤ

def keyOf : GroupBy → TickProc → Units
  | .name, p => p.name
  | .id, p => p.id

def windowSums (ticks : List Tick) (group : GroupBy) : Dict Units ℚ :=
  groupFold (keyOf group) (fun _ => 0) (fun sum p => Binary64.add (Binary64.add sum p.tx) p.rx) (ticks.flatMap CompactTick.body)

def newest (ticks : List Tick) : ℤ := (ticks.getLast?.map CompactTick.ts).getD 0

/-- The larger sum first, and of equal sums the smaller key. -/
def rankOrder {α : Type} (value : α → ℚ) (key : α → Units) : α → α → Ordering :=
  compareLex (fun a b => compareOn value b a) (compareOn key)

instance {α : Type} (value : α → ℚ) (key : α → Units) : Std.TransCmp (rankOrder value key) :=
  inferInstanceAs (Std.TransCmp (compareLex (fun a b => compareOn value b a) (compareOn key)))

/-- The plain top of a window, without hysteresis. -/
def fresh (ticks : List Tick) (group : GroupBy) (n : ℕ) : List Units :=
  ((sortBy (rankOrder Prod.snd Prod.fst) ((windowSums ticks group).entries.filter fun e => 0 < e.2)).take n).map Prod.fst

/-- The previous ranking, if it is one of the same grouping and window. -/
def same (group : GroupBy) (windowS : ℚ) (prev : Option RankState) : Option RankState :=
  prev.filter fun p => p.groupBy = group ∧ p.windowS = windowS

def rerank (ticks : List Tick) (group : GroupBy) (windowS : ℚ) (same : Option RankState) (n : ℕ) : RankState :=
  let now := newest ticks
  let sums := windowSums ticks group
  let fresh := fresh ticks group n
  let held := ((same.map RankState.lastInTop).getD .empty).filter fun _ at_ => now - at_ < holdMs
  let lastInTop := fresh.foldl (fun m k => m.insert k now) held
  let kept := ((same.map RankState.top).getD []).filter fun k => k ∈ fresh ∨ (lastInTop.get? k).isSome
  let joined := (fresh.filter fun k => k ∉ kept).take (n - kept.length)
  { groupBy := group
    windowS := windowS
    rankedAt := now
    top := sortBy (rankOrder (fun k => (sums.get? k).getD 0) id) (kept ++ joined)
    lastInTop := lastInTop }

/-- A ranking that is not to be renewed yet. -/
def reuse (ticks : List Tick) (same : Option RankState) : Option RankState :=
  same.filter fun p => p.rankedAt ≤ newest ticks ∧ newest ticks - p.rankedAt < rankEveryMs

def rank (ticks : List Tick) (group : GroupBy) (windowS : ℚ) (prev : Option RankState) (n : ℕ) : RankState :=
  let same := same group windowS prev
  (reuse ticks same).getD (rerank ticks group windowS same n)

section Fresh

variable {ticks : List Tick} {group : GroupBy} {n : ℕ} {k : Units}

def Traffic (ticks : List Tick) (group : GroupBy) (k : Units) : Prop :=
  ∃ t ∈ ticks, ∃ p ∈ t.body, keyOf group p = k ∧ (p.tx ≠ 0 ∨ p.rx ≠ 0)

theorem fresh_nodup (ticks : List Tick) (group : GroupBy) (n : ℕ) : (fresh ticks group n).Nodup := by
  have hkeys : ((sortBy (rankOrder Prod.snd Prod.fst) ((windowSums ticks group).entries.filter fun e => 0 < e.2)).map Prod.fst).Nodup :=
    ((sortBy_perm _).map Prod.fst).nodup_iff.mpr ((windowSums ticks group).nodup.sublist (List.filter_sublist.map _))
  exact hkeys.sublist ((List.take_sublist _ _).map Prod.fst)

theorem foldl_still {procs : List TickProc} (h : ∀ p ∈ procs, p.tx = 0 ∧ p.rx = 0) :
    procs.foldl (fun sum p => Binary64.add (Binary64.add sum p.tx) p.rx) 0 = 0 := by
  induction procs with
  | nil => rfl
  | cons p procs ih =>
      obtain ⟨htx, hrx⟩ := h p List.mem_cons_self
      have hzero : Binary64.add (Binary64.add 0 p.tx) p.rx = 0 := by simp [Binary64.add, htx, hrx]
      rw [List.foldl_cons, hzero, ih fun q hq => h q (List.mem_cons_of_mem p hq)]

theorem mem_positive {e : Units × ℚ} : e ∈ (windowSums ticks group).entries.filter (fun e => 0 < e.2) ↔
    (windowSums ticks group).get? e.1 = some e.2 ∧ 0 < e.2 := by
  rw [List.mem_filter, Dict.mem_iff_get?, decide_eq_true_iff]

/-- The plain top has the keys with the `n` largest positive sums. -/
theorem mem_fresh : k ∈ fresh ticks group n ↔ ∃ v, (windowSums ticks group).get? k = some v ∧ 0 < v ∧
    (((windowSums ticks group).entries.filter fun e => 0 < e.2).filter
      fun e => rankOrder Prod.snd Prod.fst e (k, v) = .lt).length < n := by
  have hnodup : ((windowSums ticks group).entries.filter fun e => 0 < e.2).Nodup :=
    ((windowSums ticks group).nodup.of_map).filter _
  have heq : ∀ a ∈ (windowSums ticks group).entries.filter (fun e => 0 < e.2),
      ∀ b ∈ (windowSums ticks group).entries.filter (fun e => 0 < e.2), rankOrder Prod.snd Prod.fst a b = .eq → a = b := by
    intro a _ b _ hab
    obtain ⟨hvalue, hkey⟩ := lex_eq.mp hab
    have hvalue : compare b.2 a.2 = .eq := hvalue
    have hkey : compare a.1 b.1 = .eq := hkey
    exact Prod.ext (Std.LawfulEqCmp.eq_of_compare hkey) (Std.LawfulEqCmp.eq_of_compare hvalue).symm
  rw [fresh, List.mem_map]
  constructor
  · rintro ⟨⟨k, v⟩, he, rfl⟩
    obtain ⟨hpos, hfew⟩ := (mem_take_sortBy hnodup heq).mp he
    exact ⟨v, (mem_positive.mp hpos).1, (mem_positive.mp hpos).2, hfew⟩
  · rintro ⟨v, hget, hpos, hfew⟩
    exact ⟨(k, v), (mem_take_sortBy hnodup heq).mpr ⟨mem_positive.mpr ⟨hget, hpos⟩, hfew⟩, rfl⟩

theorem fresh_traffic (h : k ∈ fresh ticks group n) : Traffic ticks group k := by
  obtain ⟨v, hget, hpos, -⟩ := mem_fresh.mp h
  rw [windowSums, get?_groupFold, collect_const] at hget
  obtain ⟨-, hsum⟩ := Option.ite_none_left_eq_some.mp hget
  by_contra hnone
  have hstill : ∀ p ∈ ofKey (keyOf group) k (ticks.flatMap CompactTick.body), p.tx = 0 ∧ p.rx = 0 := by
    intro p hp
    obtain ⟨hmem, hk⟩ := mem_ofKey.mp hp
    obtain ⟨t, ht, hp⟩ := List.mem_flatMap.mp hmem
    by_contra hmoves
    exact hnone ⟨t, ht, p, hp, hk, not_and_or.mp hmoves⟩
  rw [foldl_still hstill] at hsum
  rw [← Option.some.inj hsum] at hpos
  exact absurd hpos (lt_irrefl _)

end Fresh

section Runs

structure Call where
  ticks : List Tick
  group : GroupBy
  windowS : ℚ

def Call.now (c : Call) : ℤ := newest c.ticks

def Call.plainTop (n : ℕ) (c : Call) : List Units := fresh c.ticks c.group n

def step (n : ℕ) (s : Option RankState × List Call) (c : Call) : Option RankState × List Call :=
  (some (rank c.ticks c.group c.windowS s.1 n),
    if (reuse c.ticks (same c.group c.windowS s.1)).isSome then s.2 else s.2 ++ [c])

def run (n : ℕ) (calls : List Call) : Option RankState × List Call := calls.foldl (step n) (none, [])

def state (n : ℕ) (calls : List Call) : Option RankState := (run n calls).1

def rankings (n : ℕ) (calls : List Call) : List Call := (run n calls).2

end Runs

section Rerank

variable {n : ℕ} {past : List Call} {prev : Option RankState} {s : RankState} {c : Call} {k : Units} {t : ℤ}

/-- What the state keeps of the rankings so far. -/
structure Ranked (n : ℕ) (past : List Call) (s : RankState) : Prop where
  length_le : s.top.length ≤ n
  nodup : s.top.Nodup
  held : ∀ {k}, k ∈ s.top → ∃ t, s.lastInTop.get? k = some t
  recent : ∀ {k t}, s.lastInTop.get? k = some t → s.rankedAt - t < holdMs
  origin : ∀ {k t}, s.lastInTop.get? k = some t → ∃ d ∈ past, k ∈ d.plainTop n ∧ d.now = t
  latest : ∀ {k t}, s.lastInTop.get? k = some t → ∀ d ∈ past, k ∈ d.plainTop n → d.now ≤ t
  last : ∃ d, past.getLast? = some d ∧ d.now = s.rankedAt ∧ d.group = s.groupBy ∧ d.windowS = s.windowS

def shown (prev : Option RankState) (c : Call) : List Units := ((same c.group c.windowS prev).map RankState.top).getD []

/-- The keys that are still held when a call ranks, with the times when they were in the top. -/
def heldAt (prev : Option RankState) (c : Call) : Dict Units ℤ :=
  (((same c.group c.windowS prev).map RankState.lastInTop).getD .empty).filter fun _ at_ => c.now - at_ < holdMs

theorem get?_insertAll (keys : List Units) (now : ℤ) (m : Dict Units ℤ) :
    (keys.foldl (fun m k => m.insert k now) m).get? k = if k ∈ keys then some now else m.get? k := by
  induction keys generalizing m with
  | nil => rfl
  | cons key keys ih =>
      rw [List.foldl_cons, ih, Dict.get?_insert]
      by_cases hk : k ∈ keys
      · rw [if_pos hk, if_pos (List.mem_cons_of_mem key hk)]
      · by_cases hkey : k = key <;> simp [hk, hkey]

structure Reranked (n : ℕ) (past : List Call) (shown : List Units) (c : Call) (s : RankState) : Prop where
  rankedAt : s.rankedAt = c.now
  stays : ∀ k ∈ shown, k ∈ s.top ↔ k ∈ c.plainTop n ∨ ∃ d ∈ past, k ∈ d.plainTop n ∧ c.now - d.now < holdMs
  places : s.top.Perm (shown.filter (· ∈ s.top) ++
    ((c.plainTop n).filter (· ∉ shown.filter (· ∈ s.top))).take (n - (shown.filter (· ∈ s.top)).length))

def renewed (n : ℕ) (prev : Option RankState) (c : Call) : RankState :=
  rerank c.ticks c.group c.windowS (same c.group c.windowS prev) n

theorem get?_renewed : (renewed n prev c).lastInTop.get? k = if k ∈ c.plainTop n then some c.now else (heldAt prev c).get? k :=
  get?_insertAll _ _ _

def keptKeys (n : ℕ) (prev : Option RankState) (c : Call) : List Units :=
  (shown prev c).filter fun k => k ∈ c.plainTop n ∨ ((renewed n prev c).lastInTop.get? k).isSome

def joinedKeys (n : ℕ) (prev : Option RankState) (c : Call) : List Units :=
  ((c.plainTop n).filter fun k => k ∉ keptKeys n prev c).take (n - (keptKeys n prev c).length)

theorem top_perm : (renewed n prev c).top.Perm (keptKeys n prev c ++ joinedKeys n prev c) := sortBy_perm _

theorem get?_heldAt : (heldAt prev c).get? k = some t ↔
    ∃ p, same c.group c.windowS prev = some p ∧ p.lastInTop.get? k = some t ∧ c.now - t < holdMs := by
  rw [heldAt, Dict.get?_filter, Option.filter_eq_some_iff, decide_eq_true_iff]
  cases same c.group c.windowS prev with
  | none => exact iff_of_false (fun h => nomatch h.1) fun ⟨_, h, _⟩ => nomatch h
  | some p => exact ⟨fun h => ⟨p, rfl, h⟩, fun ⟨_, hp, h⟩ => Option.some.inj hp ▸ h⟩

theorem mem_shown : k ∈ shown prev c ↔ ∃ p, same c.group c.windowS prev = some p ∧ k ∈ p.top := by
  rw [shown]
  cases same c.group c.windowS prev with
  | none => exact iff_of_false List.not_mem_nil fun ⟨_, h, _⟩ => nomatch h
  | some p => exact ⟨fun h => ⟨p, rfl, h⟩, fun ⟨_, hp, h⟩ => Option.some.inj hp ▸ h⟩

section Step

variable (hprev : ∀ p, prev = some p → Ranked n past p) (hpast : ∀ d ∈ past, d.now ≤ c.now)

include hprev

theorem ranked_same {p : RankState} (h : same c.group c.windowS prev = some p) : Ranked n past p :=
  hprev p (Option.filter_eq_some_iff.mp h).1

theorem shown_spec : (shown prev c).length ≤ n ∧ (shown prev c).Nodup := by
  rw [shown]
  cases hsame : same c.group c.windowS prev with
  | none => exact ⟨Nat.zero_le n, List.nodup_nil⟩
  | some p => exact ⟨(ranked_same hprev hsame).length_le, (ranked_same hprev hsame).nodup⟩

theorem kept_spec : (keptKeys n prev c).length ≤ n ∧ (keptKeys n prev c).Nodup :=
  ⟨(List.length_filter_le _ _).trans (shown_spec hprev).1, (shown_spec hprev).2.filter _⟩

theorem heldAt_iff (hk : k ∈ shown prev c) :
    (∃ t, (heldAt prev c).get? k = some t) ↔ ∃ d ∈ past, k ∈ d.plainTop n ∧ c.now - d.now < holdMs := by
  constructor
  · rintro ⟨t, ht⟩
    obtain ⟨p, hp, hget, hrecent⟩ := get?_heldAt.mp ht
    obtain ⟨d, hd, hplain, rfl⟩ := (ranked_same hprev hp).origin hget
    exact ⟨d, hd, hplain, hrecent⟩
  · rintro ⟨d, hd, hplain, hrecent⟩
    obtain ⟨p, hp, htop⟩ := mem_shown.mp hk
    have hranked := ranked_same hprev hp
    obtain ⟨t, ht⟩ := hranked.held htop
    have hlatest := hranked.latest ht d hd hplain
    exact ⟨t, get?_heldAt.mpr ⟨p, hp, ht, by omega⟩⟩

omit hprev in
theorem mem_kept : k ∈ keptKeys n prev c ↔ k ∈ shown prev c ∧ (k ∈ c.plainTop n ∨ ∃ t, (heldAt prev c).get? k = some t) := by
  rw [keptKeys, List.mem_filter, decide_eq_true_iff, get?_renewed]
  apply and_congr_right
  intro _
  by_cases hk : k ∈ c.plainTop n
  · exact iff_of_true (.inl hk) (.inl hk)
  · rw [if_neg hk, Option.isSome_iff_exists]

omit hprev in
theorem mem_joined (h : k ∈ joinedKeys n prev c) : k ∈ c.plainTop n ∧ k ∉ keptKeys n prev c := by
  obtain ⟨hplain, hkept⟩ := List.mem_filter.mp (List.mem_of_mem_take h)
  exact ⟨hplain, of_decide_eq_true hkept⟩

omit hprev in
theorem mem_top_shown (hk : k ∈ shown prev c) : k ∈ (renewed n prev c).top ↔ k ∈ keptKeys n prev c := by
  rw [top_perm.mem_iff, List.mem_append]
  refine or_iff_left fun hjoined => ?_
  obtain ⟨hplain, hnot⟩ := mem_joined hjoined
  exact hnot (mem_kept.mpr ⟨hk, .inl hplain⟩)

theorem renewed_reranked : Reranked n past (shown prev c) c (renewed n prev c) := by
  have hfilter : (shown prev c).filter (· ∈ (renewed n prev c).top) = keptKeys n prev c := by
    apply List.filter_congr
    intro k hk
    have hiff := mem_top_shown (n := n) hk
    rw [keptKeys, List.mem_filter, and_iff_right hk, decide_eq_true_iff] at hiff
    exact decide_eq_decide.mpr hiff
  refine ⟨rfl, fun k hk => ?_, ?_⟩
  · rw [mem_top_shown hk, mem_kept, and_iff_right hk, heldAt_iff hprev hk]
  · rw [hfilter]
    exact top_perm

include hpast in
theorem renewed_ranked : Ranked n (past ++ [c]) (renewed n prev c) := by
  have hget : ∀ {k t}, (renewed n prev c).lastInTop.get? k = some t →
      k ∈ c.plainTop n ∧ t = c.now ∨ k ∉ c.plainTop n ∧ (heldAt prev c).get? k = some t := by
    intro k t h
    rw [get?_renewed] at h
    split at h
    · exact .inl ⟨by assumption, (Option.some.inj h).symm⟩
    · exact .inr ⟨by assumption, h⟩
  refine ⟨?_, ?_, fun {k} hk => ?_, fun {k t} ht => ?_, fun {k t} ht => ?_, fun {k t} ht d hd hplain => ?_, c, by simp, rfl, rfl, rfl⟩
  · have hkept := (kept_spec (c := c) hprev).1
    have htake := List.length_take_le (n - (keptKeys n prev c).length) ((c.plainTop n).filter fun k => k ∉ keptKeys n prev c)
    rw [top_perm.length_eq, List.length_append, joinedKeys]
    omega
  · have hjoined : (joinedKeys n prev c).Nodup := ((fresh_nodup _ _ _).filter _).sublist (List.take_sublist _ _)
    refine top_perm.nodup_iff.mpr (List.nodup_append.mpr ⟨(kept_spec hprev).2, hjoined, ?_⟩)
    rintro k hk j hj rfl
    exact (mem_joined hj).2 hk
  · rw [get?_renewed]
    by_cases hplain : k ∈ c.plainTop n
    · exact ⟨c.now, if_pos hplain⟩
    · rw [if_neg hplain]
      obtain hk | hk := List.mem_append.mp (top_perm.mem_iff.mp hk)
      · exact (mem_kept.mp hk).2.resolve_left hplain
      · exact absurd (mem_joined hk).1 hplain
  · obtain ⟨-, rfl⟩ | ⟨-, ht⟩ := hget ht
    · exact (sub_self c.now).trans_lt (by decide)
    · obtain ⟨_, _, _, hrecent⟩ := get?_heldAt.mp ht
      exact hrecent
  · obtain ⟨hplain, rfl⟩ | ⟨-, ht⟩ := hget ht
    · exact ⟨c, List.mem_append_right _ List.mem_cons_self, hplain, rfl⟩
    · obtain ⟨p, hp, hlast, -⟩ := get?_heldAt.mp ht
      obtain ⟨d, hd, hplain⟩ := (ranked_same hprev hp).origin hlast
      exact ⟨d, List.mem_append_left _ hd, hplain⟩
  · obtain ⟨-, rfl⟩ | ⟨hnot, ht⟩ := hget ht
    · obtain hd | hd := List.mem_append.mp hd
      · exact hpast d hd
      · rw [List.mem_singleton.mp hd]
    · obtain hd | hd := List.mem_append.mp hd
      · obtain ⟨p, hp, hlast, -⟩ := get?_heldAt.mp ht
        exact (ranked_same hprev hp).latest hlast d hd hplain
      · rw [List.mem_singleton.mp hd] at hplain
        exact absurd hplain hnot

end Step

end Rerank

section Calls

variable {n : ℕ} {calls : List Call} {c : Call} {s : RankState}

/-- A ranking of the same grouping and window less than 5 s old. -/
def Current (prev : Option RankState) (c : Call) : Prop :=
  ∃ p, prev = some p ∧ p.groupBy = c.group ∧ p.windowS = c.windowS ∧ c.now - p.rankedAt < rankEveryMs

theorem run_snoc (calls : List Call) (c : Call) : run n (calls ++ [c]) = step n (run n calls) c := by
  rw [run, List.foldl_append]
  rfl

/-- A call gives back the ranking so far or makes a new one. -/
theorem step_cases {prev : Option RankState} (past : List Call) (hprev : ∀ p, prev = some p → p.rankedAt ≤ c.now) :
    (Current prev c ∧ step n (prev, past) c = (prev, past)) ∨
    ¬ Current prev c ∧ step n (prev, past) c = (some (renewed n prev c), past ++ [c]) := by
  have hreuse : ∀ p, reuse c.ticks (same c.group c.windowS prev) = some p ↔
      prev = some p ∧ p.groupBy = c.group ∧ p.windowS = c.windowS ∧ c.now - p.rankedAt < rankEveryMs := by
    intro p
    rw [reuse, same, Option.filter_eq_some_iff, Option.filter_eq_some_iff, decide_eq_true_iff, decide_eq_true_iff]
    constructor
    · rintro ⟨⟨hp, hgroup, hwindow⟩, -, hrecent⟩
      exact ⟨hp, hgroup, hwindow, hrecent⟩
    · rintro ⟨hp, hgroup, hwindow, hrecent⟩
      exact ⟨⟨hp, hgroup, hwindow⟩, hprev p hp, hrecent⟩
  cases h : reuse c.ticks (same c.group c.windowS prev) with
  | some p =>
      refine .inl ⟨⟨p, (hreuse p).mp h⟩, ?_⟩
      rw [step, rank, h, ((hreuse p).mp h).1]
      rfl
  | none =>
      refine .inr ⟨fun ⟨p, hp⟩ => ?_, ?_⟩
      · exact absurd (h.symm.trans ((hreuse p).mpr hp)) nofun
      · rw [step, rank, h]
        rfl

/-- The invariant of the runs whose newest ticks do not go back. -/
structure Sound (n : ℕ) (calls : List Call) (r : Option RankState × List Call) : Prop where
  ranked : ∀ s, r.1 = some s → Ranked n r.2 s
  past : ∀ d ∈ r.2, d ∈ calls

theorem run_sound (hmono : calls.Pairwise fun c d => c.now ≤ d.now) : Sound n calls (run n calls) := by
  induction calls using List.reverseRecOn with
  | nil => exact ⟨nofun, nofun⟩
  | append_singleton calls c ih =>
      obtain ⟨hcalls, -, hlast⟩ := List.pairwise_append.mp hmono
      obtain ⟨hranked, hpast⟩ := ih hcalls
      have hle : ∀ d ∈ (run n calls).2, d.now ≤ c.now := fun d hd => hlast d (hpast d hd) c List.mem_cons_self
      have hprev : ∀ p, (run n calls).1 = some p → p.rankedAt ≤ c.now := by
        intro p hp
        obtain ⟨d, hd, hnow, -⟩ := (hranked p hp).last
        exact hnow ▸ hle d (List.mem_of_getLast? hd)
      rw [run_snoc]
      obtain ⟨-, heq⟩ | ⟨-, heq⟩ := step_cases (n := n) (run n calls).2 hprev
      · rw [heq]
        exact ⟨hranked, fun d hd => List.mem_append_left _ (hpast d hd)⟩
      · rw [heq]
        refine ⟨fun s hs => ?_, fun d hd => ?_⟩
        · cases hs
          exact renewed_ranked hranked hle
        · obtain hd | hd := List.mem_append.mp hd
          · exact List.mem_append_left _ (hpast d hd)
          · exact List.mem_append_right _ hd

end Calls

/-- At most `n` different keys, each with traffic in the window of a ranking not long before the last one. -/
structure Shown (n : ℕ) (past : List Call) (s : RankState) : Prop where
  length_le : s.top.length ≤ n
  nodup : s.top.Nodup
  traffic : ∀ k ∈ s.top, ∃ d ∈ past, s.rankedAt - d.now < holdMs ∧ Traffic d.ticks d.group k
  last : ∃ d, past.getLast? = some d ∧ d.now = s.rankedAt ∧ d.group = s.groupBy ∧ d.windowS = s.windowS

theorem Ranked.shown {n : ℕ} {past : List Call} {s : RankState} (h : Ranked n past s) : Shown n past s := by
  refine ⟨h.length_le, h.nodup, fun k hk => ?_, h.last⟩
  obtain ⟨t, ht⟩ := h.held hk
  obtain ⟨d, hd, hplain, rfl⟩ := h.origin ht
  exact ⟨d, hd, h.recent ht, fresh_traffic hplain⟩

/-- Within one grouping and window a ranking stands for 5 s. A new one keeps what was in the top
less than 15 s before and fills up with the plain top; a change of grouping or window shows none before. -/
theorem rank_hysteresis (n : ℕ) (calls : List Call) (c : Call) (hmono : (calls ++ [c]).Pairwise fun c d => c.now ≤ d.now) :
    ∃ s, state n (calls ++ [c]) = some s ∧ Shown n (rankings n (calls ++ [c])) s ∧
      (Current (state n calls) c → state n calls = some s) ∧
      (¬ Current (state n calls) c → Reranked n (rankings n calls) (shown (state n calls) c) c s) := by
  have hcalls := (List.pairwise_append.mp hmono).1
  obtain ⟨hranked, hpast⟩ := run_sound (n := n) hcalls
  have hsound := run_sound (n := n) hmono
  have hprev : ∀ p, (run n calls).1 = some p → p.rankedAt ≤ c.now := by
    intro p hp
    obtain ⟨d, hd, hnow, -⟩ := (hranked p hp).last
    exact hnow ▸ (List.pairwise_append.mp hmono).2.2 d (hpast d (List.mem_of_getLast? hd)) c List.mem_cons_self
  have hstep := run_snoc (n := n) calls c
  obtain ⟨hcurrent, heq⟩ | ⟨hstale, heq⟩ := step_cases (n := n) (run n calls).2 hprev
  · obtain ⟨s, hs, -⟩ := id hcurrent
    have hrun : run n (calls ++ [c]) = run n calls := hstep.trans heq
    refine ⟨s, ?_, ?_, fun _ => hs, fun hstale => absurd hcurrent hstale⟩
    · rw [state, hrun, hs]
    · rw [rankings, hrun]
      exact (hranked s hs).shown
  · have hrun : run n (calls ++ [c]) = (some (renewed n (run n calls).1 c), (run n calls).2 ++ [c]) := hstep.trans heq
    refine ⟨renewed n (run n calls).1 c, ?_, ?_, fun hcurrent => absurd hcurrent hstale, fun _ => renewed_reranked hranked⟩
    · rw [state, hrun]
    · exact (hsound.ranked _ (by rw [hrun])).shown

/-- Another key leads 5 s later, and the first is held. -/
theorem rank_hysteresis_held : ∃ (c d : Call) (s : RankState), state 1 ([c] ++ [d]) = some s ∧ s.top = [[97]] ∧
    Reranked 1 (rankings 1 [c]) (shown (state 1 [c]) d) d s := by
  let c : Call := ⟨[⟨10000, 1000, false, [⟨[49], [97], 5, 0⟩, ⟨[50], [98], 1, 0⟩]⟩], .name, 900⟩
  let d : Call := ⟨[⟨15000, 1000, false, [⟨[49], [97], 1, 0⟩, ⟨[50], [98], 5, 0⟩]⟩], .name, 900⟩
  have hmono : ([c] ++ [d]).Pairwise fun c d => c.now ≤ d.now := by decide
  have htop : (state 1 ([c] ++ [d])).map RankState.top = some [[97]] := by decide +kernel
  have hstale : ¬ Current (state 1 [c]) d := by
    rintro ⟨p, hp, -, -, hrecent⟩
    have hat : (state 1 [c]).map RankState.rankedAt = some 10000 := rfl
    rw [hp] at hat
    rw [Option.some.inj hat] at hrecent
    exact absurd hrecent (by decide)
  obtain ⟨s, hs, -, -, hrenewed⟩ := rank_hysteresis 1 [c] d hmono
  rw [hs] at htop
  exact ⟨c, d, s, hs, Option.some.inj htop, hrenewed hstale⟩

end NetWatch.Live.Ranking
