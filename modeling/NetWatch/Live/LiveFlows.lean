import NetWatch.Charts.Sankey
import NetWatch.Live.Rates

namespace NetWatch.Live.LiveFlows

open Lib Lib.Assoc Lib.Buckets Lib.GroupFold Lib.JsText Lib.JsValue Lib.Rounding Lib.SortBy Rates
open Charts.Sankey (FlowAgg)

/-- A flow of a snapshot, with the fields that are read. -/
structure LiveFlow where
  pid : ℕ
  startNs : Units
  name : Units
  proto : Units
  app : Units
  raddr : Units
  rport : ℕ
  txKbps : ℚ
  rxKbps : ℚ

def LiveFlow.id (f : LiveFlow) : Units := digitUnits 10 f.pid ++ units ":" ++ f.startNs

def rowKey (name proto app ip : Units) (rport : ℕ) : Units :=
  name ++ 0 :: (proto ++ 0 :: (app ++ 0 :: (ip ++ 0 :: digitUnits 10 rport)))

def LiveFlow.key (f : LiveFlow) : Units := rowKey f.name f.proto f.app f.raddr f.rport

def keyOf (r : FlowAgg) : Units := rowKey r.name r.proto r.app r.ip r.rport

def addBoth (sum : ℚ) (f : LiveFlow) : ℚ := Binary64.add (Binary64.add sum f.txKbps) f.rxKbps

structure Gathered where
  agg : FlowAgg
  perId : Dict Units ℚ

def Gathered.key (r : Gathered) : Units := keyOf r.agg

def Gathered.fresh (f : LiveFlow) : Gathered where
  agg := { name := f.name, proto := f.proto, app := f.app, ip := f.raddr, rport := f.rport, tx := 0, rx := 0, id := [], geo := none }
  perId := .empty

def Gathered.add (r : Gathered) (f : LiveFlow) : Gathered where
  agg := { r.agg with tx := Binary64.add r.agg.tx f.txKbps, rx := Binary64.add r.agg.rx f.rxKbps }
  perId := into LiveFlow.id (fun _ => 0) addBoth r.perId f

def gather (flows : List LiveFlow) : Dict Units Gathered := groupFold LiveFlow.key Gathered.fresh Gathered.add flows

def busier (best : ℚ × Units) (e : Units × ℚ) : ℚ × Units := if best.1 < e.2 then (e.2, e.1) else best

def busiest (perId : Dict Units ℚ) : Units := (perId.entries.foldl busier (-1, [])).2

def finish (n : ℕ) (r : Gathered) : FlowAgg :=
  { r.agg with id := busiest r.perId, tx := r2 (Binary64.div r.agg.tx n), rx := r2 (Binary64.div r.agg.rx n) }

def larger (a b : FlowAgg) : Ordering := compareOn (fun r : FlowAgg => Binary64.add r.tx r.rx) b a

instance : Std.TransCmp larger :=
  inferInstanceAs (Std.TransCmp fun a b => compareOn (fun r : FlowAgg => Binary64.add r.tx r.rx) b a)

def aggregateFlows (ticks : List (List LiveFlow)) : List FlowAgg :=
  sortBy larger ((gather ticks.flatten).values.map (finish (max 1 ticks.length)))

section Rows

variable {flows : List LiveFlow} {k : Units} {r : Gathered}

structure Sums (flows : List LiveFlow) (r : Gathered) : Prop where
  tx : r.agg.tx = sumRounded LiveFlow.txKbps flows
  rx : r.agg.rx = sumRounded LiveFlow.rxKbps flows
  perId : r.perId = groupFold LiveFlow.id (fun _ => 0) addBoth flows

theorem sums_collect (h : collect Gathered.fresh Gathered.add flows = some r) : Sums flows r := by
  cases flows with
  | nil => cases h
  | cons f flows =>
      obtain rfl := Option.some.inj h
      refine ⟨?_, ?_, ?_⟩
      · exact (List.foldl_hom (fun r : Gathered => r.agg.tx) fun _ _ => rfl).symm
      · exact (List.foldl_hom (fun r : Gathered => r.agg.rx) fun _ _ => rfl).symm
      · exact (List.foldl_hom Gathered.perId fun _ _ => rfl).symm

theorem get?_gather (h : (gather flows).get? k = some r) : Sums (ofKey LiveFlow.key k flows) r ∧ r.key = k := by
  refine ⟨sums_collect ?_, ?_⟩
  · rwa [gather, get?_groupFold] at h
  · have hadd : ∀ (r : Gathered) (f : LiveFlow), (r.add f).key = r.key := fun _ _ => rfl
    obtain ⟨f, -, hk, hattr⟩ := get?_groupFold_fresh hadd h
    exact hattr.trans hk

theorem busier_fold {es : List (Units × ℚ)} (hpos : ∀ e ∈ es, 0 ≤ e.2) :
    es = [] ∧ es.foldl busier (-1, []) = (-1, []) ∨
      ∃ e ∈ es, es.foldl busier (-1, []) = (e.2, e.1) ∧ ∀ e' ∈ es, e'.2 ≤ e.2 := by
  induction es using List.reverseRecOn with
  | nil => exact .inl ⟨rfl, rfl⟩
  | append_singleton es e ih =>
      have hlast : 0 ≤ e.2 := hpos e (List.mem_append_right _ List.mem_cons_self)
      have hinit := ih fun e' he' => hpos e' (List.mem_append_left _ he')
      refine .inr ?_
      rw [List.foldl_append, List.foldl_cons, List.foldl_nil, busier]
      obtain ⟨rfl, hfold⟩ | ⟨b, hb, hfold, hmax⟩ := hinit
      · rw [hfold, if_pos (by linarith)]
        exact ⟨e, List.mem_cons_self, rfl, fun e' he' => le_of_eq (by rw [List.mem_singleton.mp he'])⟩
      · rw [hfold]
        split
        · rename_i hlt
          refine ⟨e, List.mem_append_right _ List.mem_cons_self, rfl, fun e' he' => ?_⟩
          obtain he' | he' := List.mem_append.mp he'
          · exact (hmax e' he').trans (le_of_lt hlt)
          · rw [List.mem_singleton.mp he']
        · rename_i hge
          refine ⟨b, List.mem_append_left _ hb, rfl, fun e' he' => ?_⟩
          obtain he' | he' := List.mem_append.mp he'
          · exact hmax e' he'
          · rw [List.mem_singleton.mp he']
            exact not_lt.mp hge

/-- What an instance has in some flows, as the code adds it up. -/
def instanceSum (flows : List LiveFlow) (id : Units) : ℚ := (ofKey LiveFlow.id id flows).foldl addBoth 0

theorem addBoth_nonneg {flows : List LiveFlow} (h : ∀ f ∈ flows, 0 ≤ f.txKbps ∧ 0 ≤ f.rxKbps) : 0 ≤ flows.foldl addBoth 0 := by
  induction flows using List.reverseRecOn with
  | nil => exact le_rfl
  | append_singleton flows f ih =>
      obtain ⟨htx, hrx⟩ := h f (List.mem_append_right _ List.mem_cons_self)
      have hinit := ih fun g hg => h g (List.mem_append_left _ hg)
      rw [List.foldl_append, List.foldl_cons, List.foldl_nil, addBoth]
      exact JsNumber.round_nonneg (add_nonneg (JsNumber.round_nonneg (add_nonneg hinit htx)) hrx)

theorem busiest_spec (h : ∀ f ∈ flows, 0 ≤ f.txKbps ∧ 0 ≤ f.rxKbps) (hne : flows ≠ []) :
    ∃ f ∈ flows, busiest (groupFold LiveFlow.id (fun _ => 0) addBoth flows) = f.id ∧
      ∀ g ∈ flows, instanceSum flows g.id ≤ instanceSum flows f.id := by
  have hget : ∀ {id v}, (groupFold LiveFlow.id (fun _ => 0) addBoth flows).get? id = some v ↔
      ofKey LiveFlow.id id flows ≠ [] ∧ v = instanceSum flows id := by
    intro id v
    rw [get?_groupFold, collect_const, Option.ite_none_left_eq_some, Option.some.injEq, eq_comm (b := v)]
    rfl
  have hentry : ∀ e ∈ (groupFold LiveFlow.id (fun _ => 0) addBoth flows).entries,
      ofKey LiveFlow.id e.1 flows ≠ [] ∧ e.2 = instanceSum flows e.1 :=
    fun e he => hget.mp ((Dict.mem_iff_get? _ e.1 e.2).mp he)
  have hpos : ∀ e ∈ (groupFold LiveFlow.id (fun _ => 0) addBoth flows).entries, 0 ≤ e.2 := by
    intro e he
    rw [(hentry e he).2]
    exact addBoth_nonneg fun f hf => h f (mem_ofKey.mp hf).1
  have hmem : ∀ g ∈ flows, (g.id, instanceSum flows g.id) ∈ (groupFold LiveFlow.id (fun _ => 0) addBoth flows).entries := by
    intro g hg
    rw [Dict.mem_iff_get?]
    exact hget.mpr ⟨List.ne_nil_of_mem (mem_ofKey.mpr ⟨hg, rfl⟩), rfl⟩
  obtain ⟨hnil, -⟩ | ⟨e, he, hfold, hmax⟩ := busier_fold hpos
  · obtain ⟨g, hg⟩ := List.exists_mem_of_ne_nil flows hne
    have hempty := hmem g hg
    rw [hnil] at hempty
    cases hempty
  · obtain ⟨hsome, hvalue⟩ := hentry e he
    obtain ⟨f, hf⟩ := List.exists_mem_of_ne_nil _ hsome
    obtain ⟨hf, hid⟩ := mem_ofKey.mp hf
    refine ⟨f, hf, ?_, fun g hg => ?_⟩
    · rw [busiest, hfold, hid]
    · rw [hid, ← hvalue]
      exact hmax _ (hmem g hg)

end Rows

section Means

/-- The rows of some ticks against their flows. The mean of a row is over all ticks,
also those without one of its flows. -/
structure Aggregated (ticks : List (List LiveFlow)) (rows : List FlowAgg) : Prop where
  ordered : rows.Pairwise fun a b => Binary64.add b.tx b.rx ≤ Binary64.add a.tx a.rx
  nodup : (rows.map keyOf).Nodup
  covers : ∀ k, k ∈ rows.map keyOf ↔ k ∈ ticks.flatten.map LiveFlow.key
  tx : ∀ r ∈ rows, Close ((ofKey LiveFlow.key (keyOf r) ticks.flatten).length + 3) r.tx
    (total LiveFlow.txKbps (ofKey LiveFlow.key (keyOf r) ticks.flatten) / ticks.length)
  rx : ∀ r ∈ rows, Close ((ofKey LiveFlow.key (keyOf r) ticks.flatten).length + 3) r.rx
    (total LiveFlow.rxKbps (ofKey LiveFlow.key (keyOf r) ticks.flatten) / ticks.length)
  busiest : ∀ r ∈ rows, ∃ f ∈ ofKey LiveFlow.key (keyOf r) ticks.flatten, r.id = f.id ∧
    ∀ g ∈ ofKey LiveFlow.key (keyOf r) ticks.flatten,
      instanceSum (ofKey LiveFlow.key (keyOf r) ticks.flatten) g.id ≤ instanceSum (ofKey LiveFlow.key (keyOf r) ticks.flatten) f.id

theorem mean_close {value : LiveFlow → ℚ} {flows : List LiveFlow} (h : ∀ f ∈ flows, 0 ≤ value f) (n : ℕ) :
    Close (flows.length + 3) (r2 (Binary64.div (sumRounded value flows) n)) (total value flows / n) := by
  have hsum := sumRounded_near flows fun f hf => Near.refl (h f hf)
  have hmean := (hsum.scale (by positivity : (0 : ℚ) ≤ 1 / n)).rounded
  rw [mul_one_div, mul_one_div, Nat.zero_add] at hmean
  exact r2_error hmean

theorem keyOf_finish (n : ℕ) (r : Gathered) : keyOf (finish n r) = r.key := rfl

/-- Each row has the means of its flows and names its busiest instance. -/
theorem aggregateFlows_means (ticks : List (List LiveFlow)) (hrates : ∀ f ∈ ticks.flatten, 0 ≤ f.txKbps ∧ 0 ≤ f.rxKbps) :
    Aggregated ticks (aggregateFlows ticks) := by
  have hrow : ∀ r ∈ aggregateFlows ticks, ∃ g, (gather ticks.flatten).get? (keyOf r) = some g ∧
      r = finish (max 1 ticks.length) g := by
    intro r hr
    obtain ⟨g, hg, rfl⟩ := List.mem_map.mp (mem_sortBy.mp hr)
    obtain ⟨k, hk⟩ := (Dict.mem_values _ g).mp hg
    rw [keyOf_finish, (get?_gather hk).2]
    exact ⟨g, hk, rfl⟩
  have hflows : ∀ r ∈ aggregateFlows ticks, ofKey LiveFlow.key (keyOf r) ticks.flatten ≠ [] ∧ max 1 ticks.length = ticks.length := by
    intro r hr
    obtain ⟨g, hg, -⟩ := hrow r hr
    have hsome : (collect Gathered.fresh Gathered.add (ofKey LiveFlow.key (keyOf r) ticks.flatten)).isSome := by
      rw [gather, get?_groupFold] at hg
      rw [hg]
      rfl
    have hne := (collect_isSome _ _ _).mp hsome
    refine ⟨hne, max_eq_right (List.length_pos_iff.mpr ?_)⟩
    rintro rfl
    exact hne rfl
  have hpos : ∀ r ∈ aggregateFlows ticks, ∀ f ∈ ofKey LiveFlow.key (keyOf r) ticks.flatten, 0 ≤ f.txKbps ∧ 0 ≤ f.rxKbps :=
    fun r _ f hf => hrates f (mem_ofKey.mp hf).1
  have hkeys : ((aggregateFlows ticks).map keyOf).Perm ((gather ticks.flatten).entries.map Prod.fst) := by
    refine ((sortBy_perm _).map keyOf).trans (.of_eq ?_)
    rw [List.map_map, values_map _ _ id]
    · exact List.map_id _
    · intro k g hg
      exact (get?_gather hg).2
  refine ⟨?_, hkeys.nodup_iff.mpr (gather ticks.flatten).nodup, fun k => ?_, fun r hr => ?_, fun r hr => ?_, fun r hr => ?_⟩
  · refine (sortBy_pairwise _).imp fun {a b} hab => ?_
    exact compare_le_iff_le.mp (Ordering.isLE_iff_ne_gt.mp hab)
  · rw [hkeys.mem_iff]
    exact mem_keys_groupFold
  · obtain ⟨g, hg, hfinish⟩ := hrow r hr
    have hmean := mean_close (fun f hf => (hpos r hr f hf).1) ticks.length
    rw [← (get?_gather hg).1.tx] at hmean
    have htx : r.tx = r2 (Binary64.div g.agg.tx (max 1 ticks.length : ℕ)) := congrArg FlowAgg.tx hfinish
    rwa [htx, (hflows r hr).2]
  · obtain ⟨g, hg, hfinish⟩ := hrow r hr
    have hmean := mean_close (fun f hf => (hpos r hr f hf).2) ticks.length
    rw [← (get?_gather hg).1.rx] at hmean
    have hrx : r.rx = r2 (Binary64.div g.agg.rx (max 1 ticks.length : ℕ)) := congrArg FlowAgg.rx hfinish
    rwa [hrx, (hflows r hr).2]
  · obtain ⟨g, hg, hfinish⟩ := hrow r hr
    have hid : r.id = LiveFlows.busiest g.perId := congrArg FlowAgg.id hfinish
    rw [hid, (get?_gather hg).1.perId]
    exact busiest_spec (hpos r hr) (hflows r hr).1

def oneFlow : LiveFlow := ⟨7, units "5", units "curl", units "TCP", units "HTTPS", units "1.2.3.4", 443, 8, 2⟩

/-- Two instances of one program in the first tick, and the larger flow of another one in the second. -/
def twoTicks : List (List LiveFlow) :=
  [[{ oneFlow with pid := 9, startNs := units "6", txKbps := 1, rxKbps := 0 }, oneFlow],
    [{ oneFlow with name := units "scp", app := units "SSH", rport := 22, txKbps := 20, rxKbps := 4 }]]

/-- The rows have means over both ticks, and the id of the busier instance. -/
theorem aggregateFlows_means_sample : Aggregated twoTicks (aggregateFlows twoTicks) ∧
    (aggregateFlows twoTicks).map (fun r => (r.name, r.tx, r.rx, r.id)) =
      [(units "scp", 10, 2, units "7:5"), (units "curl", 9 / 2, 1, units "7:5")] :=
  ⟨aggregateFlows_means twoTicks (by decide +kernel), by decide +kernel⟩

end Means

end NetWatch.Live.LiveFlows
