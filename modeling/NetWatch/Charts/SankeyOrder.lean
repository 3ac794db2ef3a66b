import NetWatch.Charts.SankeyFlow
import NetWatch.Lib.Best

namespace NetWatch.Charts.Sankey

open Lib.Assoc Lib.Best Lib.Buckets Lib.GroupFold Lib.JsText Lib.JsValue Lib.SortBy

section Stages

variable {flows flows' : List FlowAgg} {opts : SankeyOptions} {rows rows' : List Row} {key source target : Row → Units} {n : ℕ}

instance : Std.TransCmp byValue :=
  inferInstanceAs (Std.TransCmp (compareLex (fun a b => compareOn Prod.snd b a) (compareOn Prod.fst)))

theorem carrying_perm (h : flows.Perm flows') (dir : FlowDir) : (carrying dir flows).Perm (carrying dir flows') := h.filter _

theorem appLabel_perm (h : flows.Perm flows') : appLabel (protos flows) = appLabel (protos flows') := by
  funext f
  have hget : (protos flows).get? f.app = (protos flows').get? f.app :=
    get?_groupFold_perm h (fun _ _ _ _ _ => rfl) (fun s f g => Finset.insert_comm g.proto f.proto s) f.app
  rw [appLabel, appLabel, hget]

theorem flowRows_perm (h : flows.Perm flows') : (flowRows flows opts).Perm (flowRows flows' opts) := by
  rw [flowRows, flowRows, appLabel_perm (carrying_perm h opts.dir)]
  exact (carrying_perm h opts.dir).map _

theorem get?_sumBy_perm (h : rows.Perm rows') (k : Units) : (sumBy key Row.value rows).get? k = (sumBy key Row.value rows').get? k :=
  get?_groupFold_perm h (fun _ _ _ _ _ => rfl) (fun s r r' => add_right_comm s r.value r'.value) k

theorem byValue_eq {a b : Units × ℚ} (h : byValue a b = .eq) : a.1 = b.1 := Std.LawfulEqOrd.eq_of_compare (lex_eq.mp h).2

theorem topKeys_perm (h : rows.Perm rows') : topKeys (sumBy key Row.value rows) n = topKeys (sumBy key Row.value rows') n := by
  have hentries : (sumBy key Row.value rows).entries.Perm (sumBy key Row.value rows').entries :=
    Dict.entries_perm_of_get? (get?_sumBy_perm h)
  rw [topKeys, topKeys, sortBy_congr hentries fun a ha b hb heq => Dict.entry_inj ha hb (byValue_eq heq)]

theorem sumOf_perm (h : rows.Perm rows') : sumOf (linkSums source target rows) = sumOf (linkSums source target rows') := by
  funext k
  rw [sumOf, sumOf, linkSums, linkSums, get?_sumBy_perm h]

theorem minLink_perm (h : flows.Perm flows') : minLink flows opts = minLink flows' opts := by
  rw [minLink, minLink, total_perm (flowRows_perm h)]

theorem cappedRows_perm (h : flows.Perm flows') : (cappedRows flows opts).Perm (cappedRows flows' opts) := by
  rw [cappedRows, cappedRows, topKeys_perm (flowRows_perm h), topKeys_perm (flowRows_perm h)]
  exact (flowRows_perm h).map _

theorem foldDest_congr {min : ℚ} {sums sums' : Dict Units ℚ} (h : sumOf sums = sumOf sums') : foldDest min sums = foldDest min sums' := by
  funext r
  rw [foldDest, foldDest, h]

theorem foldProc_congr {min : ℚ} {sums sums' : Dict Units ℚ} (h : sumOf sums = sumOf sums') : foldProc min sums = foldProc min sums' := by
  funext r
  rw [foldProc, foldProc, h]

theorem destRows_perm (h : flows.Perm flows') : (destRows flows opts).Perm (destRows flows' opts) := by
  rw [destRows, destRows, minLink_perm h, foldDest_congr (sumOf_perm (cappedRows_perm h))]
  exact (cappedRows_perm h).map _

theorem place_perm (h : flows.Perm flows') : place flows opts = place flows' opts := by
  funext f
  rw [place, place, minLink_perm h, foldDest_congr (sumOf_perm (cappedRows_perm h)), foldProc_congr (sumOf_perm (destRows_perm h)),
    topKeys_perm (flowRows_perm h), topKeys_perm (flowRows_perm h), appLabel_perm (carrying_perm h opts.dir)]

theorem placed_perm (h : flows.Perm flows') : (placed flows opts).Perm (placed flows' opts) := by
  rw [placed_eq, placed_eq, place_perm h]
  exact (carrying_perm h opts.dir).map _

end Stages

section Scans

def appRank (apps : List Units) : MainApp → MainApp → Ordering :=
  compareLex (fun a b => compareOn MainApp.value b a) (compareOn fun m => apps.idxOf m.app)

instance (apps : List Units) : Std.TransCmp (appRank apps) :=
  inferInstanceAs (Std.TransCmp (compareLex (fun a b => compareOn MainApp.value b a) (compareOn _)))

def asMain (apps : List Units) (l : SankeyLink) : MainApp := ⟨(linkEnds apps l).2, l.value⟩

def busyRank : ℚ × Option Units → ℚ × Option Units → Ordering :=
  compareLex (fun a b => compareOn Prod.fst b a) (compareOn fun s => s.2.getD [])

instance : Std.TransCmp busyRank :=
  inferInstanceAs (Std.TransCmp (compareLex (fun a b => compareOn Prod.fst b a) (compareOn _)))

variable {apps : List Units} {sums sums' : Dict Units ℚ} {target : Option Units} {l l' : List SankeyLink}

theorem largerApp_eq (cur : MainApp) (l : SankeyLink) :
    largerApp apps cur l = if appRank apps (asMain apps l) cur = .lt then asMain apps l else cur := by
  rw [largerApp]
  refine if_congr ?_ rfl rfl
  rw [appRank, lex_lt_desc, compare_lt_iff_lt, compare_eq_iff_eq, compareOn, compare_lt_iff_lt]
  exact or_congr Iff.rfl (and_congr_left fun _ => eq_comm)

theorem busier_eq (cur : ℚ × Option Units) (e : Units × ℚ) :
    busier cur e = if busyRank (e.2, some e.1) cur = .lt then (e.2, some e.1) else cur := by
  rw [busier]
  refine if_congr ?_ rfl rfl
  rw [busyRank, lex_lt_desc, compare_lt_iff_lt, compare_eq_iff_eq]
  exact or_congr Iff.rfl (and_congr_left fun _ => eq_comm)

theorem foldl_largerApp (cur : MainApp) (l : List SankeyLink) :
    l.foldl (largerApp apps) cur = best (appRank apps) cur (l.map (asMain apps)) := by
  rw [best, List.foldl_map]
  congr 1
  funext cur l
  exact largerApp_eq cur l

theorem foldl_busier (cur : ℚ × Option Units) (es : List (Units × ℚ)) :
    es.foldl busier cur = best busyRank cur (es.map fun e => (e.2, some e.1)) := by
  rw [best, List.foldl_map]
  congr 1
  funext cur e
  exact busier_eq cur e

theorem busiest_perm (h : sums.entries.Perm sums'.entries) (hpos : ∀ e ∈ sums.entries, 0 < e.2) :
    busiest target sums = busiest target sums' := by
  rw [busiest, busiest, foldl_busier, foldl_busier]
  congr 1
  have hmem : ∀ x, x ∈ sums.entries.map (fun e => (e.2, some e.1)) ↔ x ∈ sums'.entries.map (fun e => (e.2, some e.1)) :=
    fun x => (h.map _).mem_iff
  refine best_congr (fun x => ?_) fun x hx y hy heq => ?_
  · rw [List.mem_cons, List.mem_cons, hmem]
  · have hvalue : x.1 = y.1 := (Std.LawfulEqOrd.eq_of_compare (lex_eq.mp heq).1).symm
    have hid : x.2.getD [] = y.2.getD [] := Std.LawfulEqOrd.eq_of_compare (lex_eq.mp heq).2
    obtain rfl | hx := List.mem_cons.mp hx <;> obtain rfl | hy := List.mem_cons.mp hy
    · rfl
    · obtain ⟨e, he, rfl⟩ := List.mem_map.mp hy
      have hstart : (-1 : ℚ) = e.2 := hvalue
      exact absurd (hstart ▸ hpos e he) (by norm_num)
    · obtain ⟨e, he, rfl⟩ := List.mem_map.mp hx
      have hstart : e.2 = -1 := hvalue
      exact absurd (hstart ▸ hpos e he) (by norm_num)
    · obtain ⟨e, he, rfl⟩ := List.mem_map.mp hx
      obtain ⟨e', he', rfl⟩ := List.mem_map.mp hy
      exact Prod.ext hvalue (congrArg some hid)

theorem mainApps_perm (h : l.Perm l') (happs : ∀ x ∈ l, (linkEnds apps x).2 ∈ apps) (id : Units) :
    (mainApps apps l).get? id = (mainApps apps l').get? id := by
  rw [mainApps, mainApps, get?_groupFold, get?_groupFold]
  have hperm : (ofKey (fun x => (linkEnds apps x).1) id l).Perm (ofKey (fun x => (linkEnds apps x).1) id l') := ofKey_perm h
  have hmem : ∀ x ∈ ofKey (fun x => (linkEnds apps x).1) id l, (linkEnds apps x).2 ∈ apps := fun x hx => happs x (mem_ofKey.mp hx).1
  generalize ofKey (fun x => (linkEnds apps x).1) id l = g at hperm hmem
  generalize ofKey (fun x => (linkEnds apps x).1) id l' = g' at hperm
  cases g with
  | nil => rw [hperm.nil_eq]
  | cons x g =>
      cases g' with
      | nil => cases hperm.eq_nil
      | cons x' g' =>
          rw [collect, collect, foldl_largerApp, foldl_largerApp]
          congr 1
          have hstart : ∀ (y : MainApp) (x : SankeyLink) (g : List SankeyLink),
              y ∈ asMain apps x :: (x :: g).map (asMain apps) ↔ ∃ z ∈ x :: g, asMain apps z = y := by
            intro y x g
            rw [List.mem_cons, List.mem_map]
            exact or_iff_right_of_imp fun heq => ⟨x, List.mem_cons_self, heq.symm⟩
          refine best_congr (fun y => ?_) fun y hy z hz heq => ?_
          · exact (hstart y x g).trans ((exists_congr fun z => and_congr_left' hperm.mem_iff).trans (hstart y x' g').symm)
          · obtain ⟨p, hp, rfl⟩ := (hstart y x g).mp hy
            obtain ⟨q, hq, rfl⟩ := (hstart z x g).mp hz
            have hvalue : q.value = p.value := Std.LawfulEqOrd.eq_of_compare (lex_eq.mp heq).1
            have hidx : apps.idxOf (linkEnds apps p).2 = apps.idxOf (linkEnds apps q).2 :=
              Std.LawfulEqOrd.eq_of_compare (lex_eq.mp heq).2
            rw [asMain, asMain, hvalue, (List.idxOf_inj (hmem p hp)).mp hidx]

end Scans

/-- Rows that make the same node whenever they make one of the same id. -/
def Alike (rows : List Row) : Prop :=
  ∀ t ∈ rows.flatMap Row.nodes, ∀ t' ∈ rows.flatMap Row.nodes, t.1.id = t'.1.id → t.1 = t'.1

section Drawing

variable {rows rows' : List Row} {id : Units} {n m : SankeyNode} {l l' : SankeyLink}

instance (apps : List Units) (mains : Dict Units MainApp) : Std.TransCmp (nodeOrder apps mains) :=
  inferInstanceAs (Std.TransCmp (compareLex (compareOn SankeyNode.depth) (compareLex (compareOn (group apps mains))
    (compareLex (compareOn _) (compareLex (compareOn SankeyNode.label) (compareOn SankeyNode.id))))))

instance : Std.TransCmp linkOrder :=
  inferInstanceAs (Std.TransCmp (compareLex (compareOn SankeyLink.source) (compareOn SankeyLink.target)))

theorem nodeMap_perm (h : rows.Perm rows') (halike : Alike rows) (id : Units) : (nodeMap rows).get? id = (nodeMap rows').get? id := by
  refine get?_groupFold_perm (h.flatMap_right _) halike (fun n t t' => ?_) id
  simp only [SankeyNode.add, add_right_comm]

theorem linkMap_perm (h : rows.Perm rows') (hsound : ∀ r ∈ rows, r.Sound) (k : Units) :
    (linkMap rows).get? k = (linkMap rows').get? k := by
  have hzero : ∀ t ∈ rows.flatMap Row.links, t.1 = { source := t.1.source, target := t.1.target } := by
    intro t ht
    obtain ⟨r, -, ht⟩ := List.mem_flatMap.mp ht
    simp only [Row.links, List.mem_cons, List.not_mem_nil, or_false] at ht
    obtain rfl | rfl := ht <;> rfl
  refine get?_groupFold_perm (h.flatMap_right _) (fun t ht t' ht' hkey => ?_) (fun l t t' => ?_) k
  · obtain ⟨hsource, htarget⟩ := ends_inj hsound ht ht' hkey
    rw [hzero t ht, hzero t' ht', hsource, htarget]
  · simp only [SankeyLink.add, add_right_comm]

def instanceRows (id : Units) (rows : List Row) : List Row := ofKey Row.proc id (rows.filter fun r => r.proc ≠ otherProcs ∧ r.id ≠ [])

theorem get?_instances (id : Units) : (instances rows).get? id =
    if instanceRows id rows = [] then none else some (sumBy Row.id Row.value (instanceRows id rows)) := by
  rw [instances, get?_groupFold, collect_const]
  rfl

theorem sumBy_pos {g : List Row} (h : ∀ r ∈ g, 0 < r.value) {e : Units × ℚ} (he : e ∈ (sumBy Row.id Row.value g).entries) : 0 < e.2 := by
  have hget := ((sumBy Row.id Row.value g).mem_iff_get? e.1 e.2).mp he
  rw [get?_sumBy] at hget
  obtain ⟨hne, hsum⟩ := Option.ite_none_left_eq_some.mp hget
  rw [← Option.some.inj hsum]
  refine List.sum_pos _ (fun v hv => ?_) fun hnil => hne (List.map_eq_nil_iff.mp hnil)
  obtain ⟨r, hr, rfl⟩ := List.mem_map.mp hv
  exact h r (mem_ofKey.mp hr).1

theorem drawnNodes_perm (h : rows.Perm rows') (halike : Alike rows) (hpos : ∀ r ∈ rows, 0 < r.value) (id : Units) :
    (drawnNodes rows).get? id = (drawnNodes rows').get? id := by
  have hperm : (instanceRows id rows).Perm (instanceRows id rows') := ofKey_perm (h.filter _)
  have hposi : ∀ r ∈ instanceRows id rows, 0 < r.value := fun r hr => hpos r (List.mem_of_mem_filter (mem_ofKey.mp hr).1)
  rw [drawnNodes, drawnNodes, withTargets, withTargets, Dict.get?_mapVals, Dict.get?_mapVals, nodeMap_perm h halike]
  congr 1
  funext n
  rw [get?_instances, get?_instances]
  by_cases hnil : instanceRows id rows = []
  · rw [if_pos hnil, if_pos (hnil ▸ hperm).nil_eq.symm]
  · rw [if_neg hnil, if_neg fun hnil' => hnil (hnil' ▸ hperm).eq_nil]
    have htarget : busiest n.target (sumBy Row.id Row.value (instanceRows id rows)) =
        busiest n.target (sumBy Row.id Row.value (instanceRows id rows')) :=
      busiest_perm (Dict.entries_perm_of_get? (get?_sumBy_perm hperm)) fun e he => sumBy_pos hposi he
    rw [Option.elim_some, Option.elim_some, htarget]

theorem app_label (hsound : ∀ r ∈ rows, r.Sound) (h : n ∈ (drawnNodes rows).values) (hkind : n.kind = .app) :
    n.id = units "a:" ++ n.label := by
  obtain ⟨⟨t, ht, -, hface⟩, -⟩ := node_spec (mem_drawnNodes h)
  obtain ⟨r, hr, hmem⟩ := List.mem_flatMap.mp ht
  have hfits := fits_nodes hsound ht
  simp only [face, Prod.mk.injEq] at hface
  obtain ⟨hid, hlabel, -, hk, -⟩ := hface
  rw [hid, hlabel]
  rw [hkind, hfits.kind] at hk
  simp only [Row.nodes, List.mem_cons, List.not_mem_nil, or_false] at hmem
  obtain rfl | rfl | rfl := hmem
  · rw [id_procNode, kindOf_proc (hsound r hr)] at hk
    cases hk
  · exact (hsound r hr).app
  · rw [id_destNode, kindOf_dest (hsound r hr)] at hk
    cases hk

theorem node_inj (hn : n ∈ (drawnNodes rows).values) (hm : m ∈ (drawnNodes rows).values) (h : n.id = m.id) : n = m := by
  have hget := mem_drawnNodes hn
  rw [h, mem_drawnNodes hm] at hget
  exact (Option.some.inj hget).symm

theorem appOrder_perm (h : (drawnNodes rows).values.Perm (drawnNodes rows').values) (hsound : ∀ r ∈ rows, r.Sound) :
    appOrder rows = appOrder rows' := by
  rw [appOrder, appOrder, appsByLabel, appsByLabel]
  congr 1
  refine sortBy_congr (h.filter _) fun n hn m hm heq => ?_
  obtain ⟨hn, hkind⟩ := List.mem_filter.mp hn
  obtain ⟨hm, hkind'⟩ := List.mem_filter.mp hm
  have hlabel : n.label = m.label := Std.LawfulEqOrd.eq_of_compare heq
  apply node_inj hn hm
  rw [app_label hsound hn (of_decide_eq_true hkind), app_label hsound hm (of_decide_eq_true hkind'), hlabel]

theorem linkEnds_mem (hsound : ∀ r ∈ rows, r.Sound) (h : l ∈ (linkMap rows).values) : (linkEnds (appOrder rows) l).2 ∈ appOrder rows := by
  obtain ⟨⟨t, ht, -, hsource, htarget⟩, -⟩ := link_spec (mem_linkMap h)
  obtain ⟨r, hr, ht⟩ := List.mem_flatMap.mp ht
  simp only [Row.links, List.mem_cons, List.not_mem_nil, or_false] at ht
  obtain rfl | rfl := ht
  · rw [(linkEnds_row hsound hr).1 l hsource htarget]
    exact app_mem_appOrder hsound hr
  · rw [(linkEnds_row hsound hr).2 l hsource htarget]
    exact app_mem_appOrder hsound hr

theorem nodeOrder_congr {apps : List Units} {mains mains' : Dict Units MainApp} (h : ∀ id, mains.get? id = mains'.get? id) :
    nodeOrder apps mains = nodeOrder apps mains' := by
  have hgroup : group apps mains = group apps mains' := by
    funext n
    rw [group, group, h]
  rw [nodeOrder, nodeOrder, hgroup]

theorem nodeOrder_eq {apps : List Units} {mains : Dict Units MainApp} (h : nodeOrder apps mains n m = .eq) : n.id = m.id :=
  Std.LawfulEqOrd.eq_of_compare (lex_eq.mp (lex_eq.mp (lex_eq.mp (lex_eq.mp h).2).2).2).2

theorem link_inj (hl : l ∈ (linkMap rows).values) (hl' : l' ∈ (linkMap rows).values) (h : linkOrder l l' = .eq) : l = l' := by
  have hsource : l.source = l'.source := Std.LawfulEqOrd.eq_of_compare (lex_eq.mp h).1
  have htarget : l.target = l'.target := Std.LawfulEqOrd.eq_of_compare (lex_eq.mp h).2
  have hget := mem_linkMap hl
  rw [hsource, htarget, mem_linkMap hl'] at hget
  exact (Option.some.inj hget).symm

theorem draw_perm (h : rows.Perm rows') (hsound : ∀ r ∈ rows, r.Sound) (halike : Alike rows) (hpos : ∀ r ∈ rows, 0 < r.value) :
    draw rows = draw rows' := by
  have hnodes : (drawnNodes rows).values.Perm (drawnNodes rows').values :=
    (Dict.entries_perm_of_get? (drawnNodes_perm h halike hpos)).map Prod.snd
  have hlinks : (linkMap rows).values.Perm (linkMap rows').values :=
    (Dict.entries_perm_of_get? (linkMap_perm h hsound)).map Prod.snd
  have happs := appOrder_perm hnodes hsound
  have hmains : ∀ id, (mainApp rows).get? id = (mainApp rows').get? id := by
    intro id
    rw [mainApp, mainApp, ← happs]
    exact mainApps_perm hlinks (fun l hl => linkEnds_mem hsound hl) id
  have hsorted : sortBy (nodeOrder (appOrder rows) (mainApp rows)) (drawnNodes rows).values =
      sortBy (nodeOrder (appOrder rows) (mainApp rows)) (drawnNodes rows').values :=
    sortBy_congr hnodes fun n hn m hm heq => node_inj hn hm (nodeOrder_eq heq)
  have hsorted' : sortBy linkOrder (linkMap rows).values = sortBy linkOrder (linkMap rows').values :=
    sortBy_congr hlinks fun l hl l' hl' heq => link_inj hl hl' heq
  rw [draw_some hsound, draw_some fun r hr => hsound r (h.mem_iff.mpr hr), ← happs, ← nodeOrder_congr hmains, hsorted, hsorted']

end Drawing

end NetWatch.Charts.Sankey
