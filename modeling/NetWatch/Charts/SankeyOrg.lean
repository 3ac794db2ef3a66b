import NetWatch.Charts.SankeyOrder

namespace NetWatch.Charts.Sankey

open GeoIp.Asn (Geo)
open GeoIp.DestText (destText leftBracket rightBracket colon_notMem_digitUnits)
open GeoIp.Ip (colon)
open Lib.Assoc Lib.Buckets Lib.GroupFold Lib.JsText Lib.JsValue Lib.SortBy

def asGeo (byAsn : Bool) (f : FlowAgg) : Option Geo :=
  if isUnknownPeer f.ip f.rport then none else if byAsn then f.geo else none

section Condition

variable (flows : List FlowAgg) (opts : SankeyOptions)

def destOf (f : FlowAgg) : Units := (destEnd opts.byAsn f).dest

def labelOf : FlowAgg → Units := appLabel (protos (carrying opts.dir flows))

def destSum (d : Units) : ℚ := total (pick opts.dir) ((carrying opts.dir flows).filter fun f => destOf opts f = d)

def ahead (d : Units) : List Units :=
  ((carrying opts.dir flows).map (destOf opts)).dedup.filter fun e =>
    destSum flows opts d < destSum flows opts e ∨ destSum flows opts e = destSum flows opts d ∧ compare e d = .lt

def linkSum (label d : Units) : ℚ :=
  total (pick opts.dir) ((carrying opts.dir flows).filter fun f => labelOf flows opts f = label ∧ destOf opts f = d)

structure Shown (f : FlowAgg) : Prop where
  top : (ahead flows opts (destOf opts f)).length < opts.topDests
  thick : total (pick opts.dir) (carrying opts.dir flows) * opts.minShare ≤ linkSum flows opts (labelOf flows opts f) (destOf opts f)

/-- The flows that are shown under one AS name its organisation alike. -/
def OneOrg : Prop :=
  ∀ f ∈ carrying opts.dir flows, ∀ f' ∈ carrying opts.dir flows, ∀ g g', asGeo opts.byAsn f = some g → asGeo opts.byAsn f' = some g' →
    g.asn = g'.asn → Shown flows opts f → Shown flows opts f' → shortOrg g.org = shortOrg g'.org

end Condition

section Texts

variable {ip ip' : Units} {port port' : ℕ} {m n : ℤ}

def host (ip : Units) : Units := if colon ∈ ip then leftBracket :: (ip ++ [rightBracket]) else ip

theorem destText_host (ip : Units) (port : ℕ) : destText ip port = host ip ++ colon :: digitUnits 10 port := by
  rw [destText, host]
  split
  · rw [List.cons_append, List.append_assoc]
    rfl
  · rfl

theorem colon_mem_host : colon ∈ host ip ↔ colon ∈ ip := by
  rw [host]
  split
  · rename_i h
    exact iff_of_true (List.mem_cons_of_mem _ (List.mem_append_left _ h)) h
  · exact Iff.rfl

theorem host_inj (h : host ip = host ip') : ip = ip' := by
  have hcolon : colon ∈ ip ↔ colon ∈ ip' := by rw [← colon_mem_host, h, colon_mem_host]
  rw [host, host] at h
  by_cases hip : colon ∈ ip
  · rw [if_pos hip, if_pos (hcolon.mp hip)] at h
    exact List.append_cancel_right (List.cons.inj h).2
  · rwa [if_neg hip, if_neg (mt hcolon.mpr hip)] at h

theorem destText_inj (h : destText ip port = destText ip' port') : ip = ip' ∧ port = port' := by
  rw [destText_host, destText_host] at h
  obtain ⟨hhost, hport⟩ := Lib.Texts.append_sep_inj_last (colon_notMem_digitUnits port) (colon_notMem_digitUnits port') h
  exact ⟨host_inj hhost, digitUnits_injective (by decide) (by decide) hport⟩

theorem minus_notMem (n : ℕ) : 0x2D ∉ digitUnits 10 n := by
  intro h
  obtain ⟨d, -, -, hd⟩ := (digits_digitUnits (by decide : 1 < 10) (by decide) n).mem h
  have hminus : (0x2D : UInt16).toNat = 0x2D := rfl
  omega

theorem intUnits_inj (h : intUnits m = intUnits n) : m = n := by
  have hdigits : ∀ {a b : ℕ}, digitUnits 10 a = digitUnits 10 b → a = b := fun h => digitUnits_injective (by decide) (by decide) h
  rw [intUnits, intUnits] at h
  split_ifs at h
  · have habs := hdigits (List.cons.inj h).2
    omega
  · exact absurd (h ▸ List.mem_cons_self) (minus_notMem n.natAbs)
  · exact absurd (h ▸ List.mem_cons_self) (minus_notMem m.natAbs)
  · have habs := hdigits h
    omega

theorem colon_notMem_intUnits (n : ℤ) : colon ∉ intUnits n := by
  rw [intUnits]
  split
  · exact List.not_mem_cons_of_ne_of_not_mem (by decide) (colon_notMem_digitUnits _)
  · exact colon_notMem_digitUnits _

theorem destKey_ne_as (ip : Units) (port : ℕ) (n : ℤ) : units "d:" ++ destKey ip port ≠ units "d:AS" ++ intUnits n := by
  intro h
  have hcut : destKey ip port = units "AS" ++ intUnits n :=
    List.append_cancel_left (h.trans (by rw [← List.append_assoc]; rfl : units "d:AS" ++ intUnits n = units "d:" ++ (units "AS" ++ intUnits n)))
  have hcolon : colon ∈ destKey ip port := by
    rw [destKey, destText_host]
    exact List.mem_append_right _ List.mem_cons_self
  rw [hcut, List.mem_append] at hcolon
  exact hcolon.elim (by decide) (colon_notMem_intUnits n)

end Texts

section Ends

variable {flows : List FlowAgg} {opts : SankeyOptions} {f f' : FlowAgg} {g g' : Geo} {byAsn : Bool}

theorem destEnd_as (h : asGeo byAsn f = some g) : destEnd byAsn f = ⟨units "d:AS" ++ intUnits g.asn, none, some (asnLabel g), some g.asn⟩ := by
  rw [asGeo] at h
  split_ifs at h with hpeer hby
  rw [destEnd, if_neg hpeer, if_pos hby, h]

theorem destEnd_key (hpeer : isUnknownPeer f.ip f.rport = false) (h : asGeo byAsn f = none) : destEnd byAsn f =
    ⟨units "d:" ++ destKey f.ip f.rport, some (destKey f.ip f.rport), some (orgDestLabel f.geo (destKey f.ip f.rport)), none⟩ := by
  have hnone : (if byAsn then f.geo else none) = none := by
    rwa [asGeo, if_neg (by simp [hpeer])] at h
  rw [destEnd, if_neg (by simp [hpeer]), hnone]

theorem peer_of_real (h : units "d:" <+: (destEnd byAsn f).dest) : isUnknownPeer f.ip f.rport = false := by
  by_contra hpeer
  rw [destEnd, if_pos (by simpa using hpeer)] at h
  exact not_real_unknownPeer h

/-- Real destinations of one id are one destination, if those of an AS name the organisation alike. -/
theorem destEnd_inj (hreal : units "d:" <+: (destEnd byAsn f).dest) (heq : (destEnd byAsn f).dest = (destEnd byAsn f').dest)
    (hgeo : f.ip = f'.ip → f.geo = f'.geo)
    (horg : ∀ g g', asGeo byAsn f = some g → asGeo byAsn f' = some g' → g.asn = g'.asn → shortOrg g.org = shortOrg g'.org) :
    destEnd byAsn f = destEnd byAsn f' := by
  have hpeer := peer_of_real hreal
  have hpeer' := peer_of_real (heq ▸ hreal)
  cases hf : asGeo byAsn f with
  | none =>
      rw [destEnd_key hpeer hf] at heq ⊢
      cases hf' : asGeo byAsn f' with
      | none =>
          rw [destEnd_key hpeer' hf'] at heq ⊢
          obtain ⟨hip, hport⟩ := destText_inj (List.append_cancel_left heq)
          rw [hgeo hip, hip, hport]
      | some g' =>
          rw [destEnd_as hf'] at heq
          exact absurd heq (destKey_ne_as _ _ _)
  | some g =>
      rw [destEnd_as hf] at heq ⊢
      cases hf' : asGeo byAsn f' with
      | none =>
          rw [destEnd_key hpeer' hf'] at heq
          exact absurd heq.symm (destKey_ne_as _ _ _)
      | some g' =>
          rw [destEnd_as hf'] at heq ⊢
          have hasn : g.asn = g'.asn := intUnits_inj (List.append_cancel_left heq)
          rw [asnLabel, asnLabel, hasn, horg g g' hf hf' hasn]

end Ends

section Places

variable {flows flows' : List FlowAgg} {opts : SankeyOptions} {f f' : FlowAgg} {d : Units}

theorem total_ofKey_flowRows (d : Units) : total Row.value (ofKey Row.dest d (flowRows flows opts)) = destSum flows opts d := by
  rw [flowRows, ofKey, List.filter_map, total_map]
  rfl

theorem dest_entries (flows : List FlowAgg) (opts : SankeyOptions) :
    (sumBy Row.dest Row.value (flowRows flows opts)).entries.Perm
      (((carrying opts.dir flows).map (destOf opts)).dedup.map fun k => (k, destSum flows opts k)) := by
  have hget : ∀ k, (sumBy Row.dest Row.value (flowRows flows opts)).get? k =
      if ofKey Row.dest k (flowRows flows opts) = [] then none else some (destSum flows opts k) := by
    intro k
    rw [get?_sumBy, total_ofKey_flowRows]
  have hkeys : (flowRows flows opts).map Row.dest = (carrying opts.dir flows).map (destOf opts) := by
    rw [flowRows, List.map_map]
    rfl
  exact hkeys ▸ entries_perm hget

theorem mem_dest_entries {v : ℚ} : (d, v) ∈ (sumBy Row.dest Row.value (flowRows flows opts)).entries ↔
    d ∈ (carrying opts.dir flows).map (destOf opts) ∧ v = destSum flows opts d := by
  rw [(dest_entries flows opts).mem_iff, List.mem_map]
  constructor
  · rintro ⟨k, hk, heq⟩
    obtain ⟨rfl, rfl⟩ := Prod.mk.inj heq
    exact ⟨List.mem_dedup.mp hk, rfl⟩
  · rintro ⟨hd, rfl⟩
    exact ⟨d, List.mem_dedup.mpr hd, rfl⟩

theorem length_ahead (d : Units) : ((sumBy Row.dest Row.value (flowRows flows opts)).entries.filter
    fun b => byValue b (d, destSum flows opts d) = .lt).length = (ahead flows opts d).length := by
  rw [((dest_entries flows opts).filter _).length_eq, List.filter_map, List.length_map, ahead]
  congr 1
  apply List.filter_congr
  intro e _
  apply decide_eq_decide.mpr
  rw [byValue, lex_lt_desc, compare_lt_iff_lt, compare_eq_iff_eq]
  exact or_congr Iff.rfl (and_congr_left' eq_comm)

/-- The destinations kept are those with few ahead of them. -/
theorem mem_topDests (d : Units) (n : ℕ) : d ∈ topKeys (sumBy Row.dest Row.value (flowRows flows opts)) n ↔
    d ∈ (carrying opts.dir flows).map (destOf opts) ∧ (ahead flows opts d).length < n := by
  have hmem : ∀ v, (d, v) ∈ (sortBy byValue (sumBy Row.dest Row.value (flowRows flows opts)).entries).take n ↔
      (d, v) ∈ (sumBy Row.dest Row.value (flowRows flows opts)).entries ∧
        ((sumBy Row.dest Row.value (flowRows flows opts)).entries.filter fun b => byValue b (d, v) = .lt).length < n :=
    fun v => mem_take_sortBy (sumBy Row.dest Row.value (flowRows flows opts)).nodup.of_map fun a ha b hb heq =>
      Dict.entry_inj ha hb (byValue_eq heq)
  rw [topKeys, List.mem_map]
  constructor
  · rintro ⟨⟨k, v⟩, he, hk⟩
    obtain rfl : k = d := hk
    obtain ⟨he, hlt⟩ := (hmem v).mp he
    obtain ⟨hd, rfl⟩ := mem_dest_entries.mp he
    exact ⟨hd, length_ahead k ▸ hlt⟩
  · rintro ⟨hd, hlt⟩
    exact ⟨(d, destSum flows opts d), (hmem _).mpr ⟨mem_dest_entries.mpr ⟨hd, rfl⟩, length_ahead d ▸ hlt⟩, rfl⟩

theorem app_cap (kp kd : List Units) (r : Row) : (cap kp kd r).app = r.app ∧ (cap kp kd r).value = r.value := by
  have hdest : ∀ {r' : Row}, r'.app = r.app → r'.value = r.value →
      (if r'.dest ∈ kd then r' else r'.toOther).app = r.app ∧ (if r'.dest ∈ kd then r' else r'.toOther).value = r.value := by
    intro r' ha hv
    split <;> exact ⟨ha, hv⟩
  apply hdest
  · split <;> rfl
  · split <;> rfl

theorem sumOf_capped (hplain : Plain flows) (hf : f ∈ carrying opts.dir flows) (hreal : units "d:" <+: destOf opts f)
    (hkept : destOf opts f ∈ topKeys (sumBy Row.dest Row.value (flowRows flows opts)) opts.topDests) :
    sumOf (linkSums Row.app Row.dest (cappedRows flows opts)) (joined (units "a:" ++ labelOf flows opts f) (destOf opts f)) =
      linkSum flows opts (labelOf flows opts f) (destOf opts f) := by
  have hlabel : ∀ g ∈ carrying opts.dir flows, 0 ∉ units "a:" ++ labelOf flows opts g := by
    intro g hg
    obtain ⟨happ, hproto⟩ := hplain g (List.mem_of_mem_filter hg)
    rw [List.mem_append, not_or]
    exact ⟨by decide, plain_appLabel happ hproto⟩
  rw [sumOf_linkSums, cappedRows, total_ofKey_map _ fun r => (app_cap _ _ r).2]
  · rw [flowRows, ofKey, List.filter_map, total_map, linkSum]
    refine congrArg (fun l => total (pick opts.dir) l) (List.filter_congr fun g hg => decide_eq_decide.mpr ?_)
    constructor
    · intro hkey
      obtain ⟨happ, hdest⟩ := joined_inj_left (hlabel g hg) (hlabel f hf) hkey
      exact ⟨List.append_cancel_left happ, hdest⟩
    · rintro ⟨happ, hdest⟩
      exact congrArg₂ joined (congrArg (units "a:" ++ ·) happ) hdest
  · intro r hr
    obtain ⟨g, hg, rfl⟩ := List.mem_map.mp hr
    rw [(app_cap _ _ _).1, dest_cap]
    by_cases hd : (flowRow opts (appLabel (protos (carrying opts.dir flows))) g).dest ∈
        topKeys (sumBy Row.dest Row.value (flowRows flows opts)) opts.topDests
    · rw [if_pos hd]
    · rw [if_neg hd]
      refine iff_of_false (fun hkey => ?_) fun hkey => ?_
      · exact not_real_otherDest _ ((joined_inj_left (hlabel g hg) (hlabel f hf) hkey).2 ▸ hreal)
      · exact hd ((joined_inj_left (hlabel g hg) (hlabel f hf) hkey).2 ▸ hkept)

theorem dest_place (hplain : Plain flows) (hf : f ∈ carrying opts.dir flows) (hreal : units "d:" <+: destOf opts f) :
    (place flows opts f).dest = destOf opts f ↔ Shown flows opts f := by
  have hother : ∀ label, otherDest label ≠ destOf opts f := fun label heq => not_real_otherDest label (heq ▸ hreal)
  have hmem : destOf opts f ∈ topKeys (sumBy Row.dest Row.value (flowRows flows opts)) opts.topDests ↔
      (ahead flows opts (destOf opts f)).length < opts.topDests := by
    rw [mem_topDests]
    exact and_iff_right (List.mem_map_of_mem hf)
  rw [place, (app_foldProc _).2, foldDest]
  generalize hcap : cap _ _ (flowRow opts _ f) = r
  have happ : r.app = units "a:" ++ labelOf flows opts f := by
    rw [← hcap, (app_cap _ _ _).1]
    rfl
  have hdest : r.dest = if destOf opts f ∈ topKeys (sumBy Row.dest Row.value (flowRows flows opts)) opts.topDests then
      destOf opts f else otherDest (labelOf flows opts f) := by
    rw [← hcap, dest_cap]
    rfl
  by_cases hkept : destOf opts f ∈ topKeys (sumBy Row.dest Row.value (flowRows flows opts)) opts.topDests
  · rw [if_pos hkept] at hdest
    rw [happ, hdest, sumOf_capped hplain hf hreal hkept, minLink, total_flowRows]
    constructor
    · intro heq
      split at heq
      · exact absurd heq (hother _)
      · rename_i hthick
        exact ⟨hmem.mp hkept, not_lt.mp fun hlt => hthick ⟨hreal, hlt⟩⟩
    · rintro ⟨-, hthick⟩
      rw [if_neg fun hthin => absurd hthin.2 (not_lt.mpr hthick), hdest]
  · rw [if_neg hkept] at hdest
    refine iff_of_false (fun heq => ?_) fun hshown => hkept (hmem.mpr hshown.top)
    split at heq
    · exact hother _ heq
    · exact hother _ (hdest.symm.trans heq)

end Places

section Nodes

variable {flows flows' rest : List FlowAgg} {opts : SankeyOptions} {f f' : FlowAgg} {g g' : Geo} {r r' : Row} {label : FlowAgg → Units}

theorem procNode_congr (hs : r.Sound) (hs' : r'.Sound) (h : r.proc = r'.proc) : r.procNode = r'.procNode := by
  rw [Row.procNode, Row.procNode, ← h]
  split
  · rfl
  · rename_i hreal
    have hname := hs.proc.resolve_left hreal
    have hname' := hs'.proc.resolve_left fun hother => hreal (h.trans hother)
    rw [List.append_cancel_left (hname.symm.trans (h.trans hname'))]

theorem appNode_congr (hs : r.Sound) (hs' : r'.Sound) (h : r.app = r'.app) : r.appNode = r'.appNode := by
  rw [Row.appNode, Row.appNode, ← h, List.append_cancel_left (hs.app.symm.trans (h.trans hs'.app))]

theorem not_starred_of_real {u : Units} (h : units "d:" <+: u) : ¬ units "d*" <+: u := by
  rintro ⟨v, rfl⟩
  obtain ⟨w, hw⟩ := h
  exact absurd (congrArg (fun u => u[1]?) hw) (by simp [units, charUnits])

theorem destNode_congr (hs : r.Sound) (hs' : r'.Sound) (h : r.dest = r'.dest)
    (hreal : units "d:" <+: r.dest → r.destLabel = r'.destLabel ∧ r.destTarget = r'.destTarget ∧ r.asn = r'.asn) :
    r.destNode = r'.destNode := by
  rw [Row.destNode, Row.destNode, ← h]
  obtain hpeer | hother | hdest := hs.dest
  · rw [if_pos hpeer, if_pos hpeer]
  · have hne : r.dest ≠ unknownPeer := hother ▸ (unknownPeer_ne _).symm
    have hlabel : r'.appLabel = r.appLabel := by
      obtain hpeer' | hother' | hdest' := hs'.dest
      · exact absurd (h.trans hpeer') hne
      · exact List.append_cancel_left (hother'.symm.trans (h.symm.trans hother))
      · exact absurd (hother ▸ h ▸ hdest') (not_real_otherDest _)
    have hstar : units "d*" <+: r.dest := hother ▸ ⟨units "other:" ++ r.appLabel, by rw [otherDest, ← List.append_assoc]; rfl⟩
    rw [hlabel, if_neg hne, if_pos hstar, if_neg hne, if_pos hstar]
  · obtain ⟨hlabel, htarget, hasn⟩ := hreal hdest
    have hpeer : r.dest ≠ unknownPeer := fun heq => not_real_unknownPeer (heq ▸ hdest)
    rw [if_neg hpeer, if_neg (not_starred_of_real hdest), if_neg hpeer, if_neg (not_starred_of_real hdest), hlabel, htarget, hasn]

theorem dest_of (h : Row.Of (flowRow opts label f) r) : (units "d:" <+: r.dest → r.dest = destOf opts f) ∧
    r.destLabel = (destEnd opts.byAsn f).destLabel ∧ r.destTarget = (destEnd opts.byAsn f).destTarget ∧
    r.asn = (destEnd opts.byAsn f).asn := by
  obtain ⟨p, d, -, hd, rfl⟩ := h
  refine ⟨fun hreal => ?_, rfl, rfl, rfl⟩
  obtain hd | hd := hd
  · exact hd
  · exact absurd (hd ▸ hreal) (not_real_otherDest _)

theorem alike_placed (hplain : Plain flows) (hgeo : ∀ f ∈ flows, ∀ f' ∈ flows, f.ip = f'.ip → f.geo = f'.geo)
    (horg : OneOrg flows opts) : Alike (placed flows opts) := by
  intro t ht t' ht' hid
  obtain ⟨r, hr, ht⟩ := List.mem_flatMap.mp ht
  obtain ⟨r', hr', ht'⟩ := List.mem_flatMap.mp ht'
  have hs := hplain.sound (placed_of hr)
  have hs' := hplain.sound (placed_of hr')
  have hkind := congrArg kindOf hid
  rw [placed_eq] at hr hr'
  obtain ⟨f, hf, rfl⟩ := List.mem_map.mp hr
  obtain ⟨f', hf', rfl⟩ := List.mem_map.mp hr'
  simp only [Row.nodes, List.mem_cons, List.not_mem_nil, or_false] at ht ht'
  obtain rfl | rfl | rfl := ht <;> obtain rfl | rfl | rfl := ht' <;>
    simp only [id_procNode, id_appNode, id_destNode, kindOf_proc hs, kindOf_app hs, kindOf_dest hs, kindOf_proc hs', kindOf_app hs',
      kindOf_dest hs', reduceCtorEq] at hid hkind
  · exact procNode_congr hs hs' hid
  · exact appNode_congr hs hs' hid
  · obtain ⟨hreal, hlabel, htarget, hasn⟩ := dest_of (place_of flows opts f)
    obtain ⟨hreal', hlabel', htarget', hasn'⟩ := dest_of (place_of flows opts f')
    refine destNode_congr hs hs' hid fun hdest => ?_
    have hown := hreal hdest
    have hown' := hreal' (hid ▸ hdest)
    have hdest₁ : units "d:" <+: destOf opts f := hown ▸ hdest
    have hdest₂ : units "d:" <+: destOf opts f' := hown' ▸ hid ▸ hdest
    have hsame : destEnd opts.byAsn f = destEnd opts.byAsn f' := by
      refine destEnd_inj hdest₁ (hown.symm.trans (hid.trans hown'))
        (hgeo f (List.mem_of_mem_filter hf) f' (List.mem_of_mem_filter hf')) fun g g' hg hg' hasn => ?_
      exact horg f hf f' hf' g g' hg hg' hasn ((dest_place hplain hf hdest₁).mp hown) ((dest_place hplain hf' hdest₂).mp hown')
    rw [hlabel, htarget, hasn, hlabel', htarget', hasn', hsame]
    exact ⟨rfl, rfl, rfl⟩

theorem real_as (hg : asGeo opts.byAsn f = some g) : units "d:" <+: destOf opts f := by
  rw [destOf, destEnd_as hg]
  exact ⟨units "AS" ++ intUnits g.asn, by rw [← List.append_assoc]; rfl⟩

theorem ofKey_first (hs : r.Sound) (rows : List Row) : ofKey nodeId r.dest ((r :: rows).flatMap Row.nodes) =
    (r.destNode, r) :: ofKey nodeId r.dest (rows.flatMap Row.nodes) := by
  have hproc : r.proc ≠ r.dest := fun heq => absurd ((kindOf_proc hs).symm.trans ((congrArg kindOf heq).trans (kindOf_dest hs))) (by decide)
  have happ : r.app ≠ r.dest := fun heq => absurd ((kindOf_app hs).symm.trans ((congrArg kindOf heq).trans (kindOf_dest hs))) (by decide)
  have hown : ofKey nodeId r.dest r.nodes = [(r.destNode, r)] := by simp [ofKey, nodeId, Row.nodes, hproc, happ]
  rw [List.flatMap_cons, ofKey_append, hown]
  rfl

theorem label_drawn (hs : r.Sound) (rows : List Row) :
    ∃ n ∈ (drawnNodes (r :: rows)).values, n.id = r.dest ∧ n.label = r.destNode.label := by
  have hadd : ∀ (n : SankeyNode) (t : SankeyNode × Row), (n.add t.2).label = n.label := fun _ _ => rfl
  obtain ⟨v, hv, hvlabel⟩ : ∃ v, (nodeMap (r :: rows)).get? r.dest = some v ∧ v.label = r.destNode.label :=
    get?_groupFold_first hadd (ofKey_first hs rows)
  obtain ⟨n, hn, hid⟩ := exists_node (show r.dest ∈ [r.proc, r.app, r.dest] by simp) (show r ∈ r :: rows from List.mem_cons_self)
  obtain ⟨m, hm, hface, -⟩ := get?_drawnNodes (mem_drawnNodes hn)
  rw [hid, hv] at hm
  cases hm
  simp only [face, Prod.mk.injEq] at hface
  exact ⟨n, hn, hid, hface.2.1.trans hvlabel⟩

theorem label_destNode (hreal : units "d:" <+: r.dest) (hasn : r.asn.isSome) : r.destNode.label = r.destLabel.getD [] := by
  have hpeer : r.dest ≠ unknownPeer := fun heq => not_real_unknownPeer (heq ▸ hreal)
  rw [Row.destNode, if_neg hpeer, if_neg (not_starred_of_real hreal), if_pos hasn]

theorem placed_cons (hf : 0 < pick opts.dir f) :
    placed (f :: rest) opts = place (f :: rest) opts f :: (carrying opts.dir rest).map (place (f :: rest) opts) := by
  have hcarrying : carrying opts.dir (f :: rest) = f :: carrying opts.dir rest := by
    rw [carrying, List.filter_cons, if_pos (decide_eq_true hf)]
    rfl
  rw [placed_eq, hcarrying, List.map_cons]

theorem label_first (hplain : Plain (f :: rest)) (hf : 0 < pick opts.dir f) (hg : asGeo opts.byAsn f = some g)
    (hdest : (place (f :: rest) opts f).dest = destOf opts f) : ∃ graph, buildSankey (f :: rest) opts = some graph ∧
    (graph.nodes.map SankeyNode.id).Nodup ∧ ∃ n ∈ graph.nodes, n.id = units "d:AS" ++ intUnits g.asn ∧ n.label = asnLabel g := by
  have hnodes : (sortBy (nodeOrder (appOrder (placed (f :: rest) opts)) (mainApp (placed (f :: rest) opts)))
    (drawnNodes (placed (f :: rest) opts)).values).Perm (drawnNodes (placed (f :: rest) opts)).values := sortBy_perm _
  obtain ⟨-, hlabel, -, hasn⟩ := dest_of (place_of (f :: rest) opts f)
  rw [destEnd_as hg] at hlabel hasn
  have hmem : place (f :: rest) opts f ∈ placed (f :: rest) opts := by
    rw [placed_cons hf]
    exact List.mem_cons_self
  have hreal : units "d:" <+: (place (f :: rest) opts f).dest := by
    rw [hdest]
    exact real_as hg
  have hsome : (place (f :: rest) opts f).asn.isSome := by
    rw [hasn]
    rfl
  obtain ⟨n, hn, hid, hn'⟩ := label_drawn (hplain.sound (placed_of hmem)) ((carrying opts.dir rest).map (place (f :: rest) opts))
  rw [← placed_cons hf] at hn
  refine ⟨_, buildSankey_some hplain, ?_⟩
  dsimp only
  refine ⟨(hnodes.map _).nodup_iff.mpr (ids_nodup _), n, hnodes.mem_iff.mpr hn, ?_, ?_⟩
  · rw [hid, hdest, destOf, destEnd_as hg]
  · rw [hn', label_destNode hreal hsome, hlabel, Option.getD_some]

theorem Plain.perm (hplain : Plain flows) (h : flows.Perm flows') : Plain flows' := fun f hf => hplain f (h.mem_iff.mpr hf)

/-- The flow diagram does not depend on the order of the flows iff those shown under one AS name its organisation alike. -/
theorem buildSankey_perm_iff (flows : List FlowAgg) (opts : SankeyOptions)
    (hgeo : ∀ f ∈ flows, ∀ f' ∈ flows, f.ip = f'.ip → f.geo = f'.geo) (hplain : Plain flows) :
    (∀ flows', flows.Perm flows' → buildSankey flows' opts = buildSankey flows opts) ↔ OneOrg flows opts := by
  constructor
  · intro hsame f hf f' hf' g g' hg hg' hasn hshown hshown'
    have hlabelled : ∀ {f g}, f ∈ carrying opts.dir flows → asGeo opts.byAsn f = some g → Shown flows opts f →
        ∃ graph, buildSankey flows opts = some graph ∧ (graph.nodes.map SankeyNode.id).Nodup ∧
          ∃ n ∈ graph.nodes, n.id = units "d:AS" ++ intUnits g.asn ∧ n.label = asnLabel g := by
      intro f g hf hg hshown
      obtain ⟨before, after, hflows⟩ := List.append_of_mem (List.mem_of_mem_filter hf)
      have hperm : flows.Perm (f :: (before ++ after)) := hflows ▸ List.perm_middle
      rw [← hsame _ hperm]
      refine label_first (hplain.perm hperm) (of_decide_eq_true (List.mem_filter.mp hf).2) hg ?_
      rw [← place_perm hperm]
      exact (dest_place hplain hf (real_as hg)).mpr hshown
    obtain ⟨graph, hgraph, hnodup, n, hn, hid, hlabel⟩ := hlabelled hf hg hshown
    obtain ⟨graph', hgraph', -, n', hn', hid', hlabel'⟩ := hlabelled hf' hg' hshown'
    cases hgraph.symm.trans hgraph'
    have heq : n = n' := List.inj_on_of_nodup_map hnodup hn hn' (by rw [hid, hid', hasn])
    rw [heq, hlabel', asnLabel, asnLabel, hasn] at hlabel
    exact (List.append_cancel_left hlabel).symm
  · intro horg flows' hperm
    have hdraw : draw (placed flows opts) = draw (placed flows' opts) :=
      draw_perm (placed_perm hperm) (fun r hr => hplain.sound (placed_of hr)) (alike_placed hplain hgeo horg) fun r hr => value_pos hr
    rw [buildSankey, buildSankey, hdraw, total_perm (flowRows_perm hperm)]

def known (name ip org : String) : FlowAgg :=
  ⟨units name, units "TCP", units "HTTPS", units ip, 443, 1, 0, units "1:2", some ⟨15169, units org, units "US"⟩⟩

/-- Two entries of one AS, whose organisations differ in their legal form only. -/
theorem buildSankey_perm_two : buildSankey [known "curl" "8.8.4.4" "Google, Inc.", known "chrome" "8.8.8.8" "Google LLC"]
    { dir := .tx, byAsn := true } =
      buildSankey [known "chrome" "8.8.8.8" "Google LLC", known "curl" "8.8.4.4" "Google, Inc."] { dir := .tx, byAsn := true } := by
  have horgs : ∀ f ∈ [known "chrome" "8.8.8.8" "Google LLC", known "curl" "8.8.4.4" "Google, Inc."],
      ∀ g ∈ asGeo true f, shortOrg g.org = units "Google" := by decide +kernel
  refine (buildSankey_perm_iff [known "chrome" "8.8.8.8" "Google LLC", known "curl" "8.8.4.4" "Google, Inc."]
    { dir := .tx, byAsn := true } (by decide +kernel) (by unfold Plain; decide +kernel)).mpr ?_ _ (.swap _ _ _)
  intro f hf f' hf' g g' hg hg' _ _ _
  rw [horgs f (List.mem_of_mem_filter hf) g hg, horgs f' (List.mem_of_mem_filter hf') g' hg']

/-- Whichever flow of an AS comes first names its organisation. -/
theorem org_of_first : (∀ f ∈ [known "chrome" "8.8.8.8" "Google LLC", known "curl" "8.8.4.4" "YouTube"],
      ∀ f' ∈ [known "chrome" "8.8.8.8" "Google LLC", known "curl" "8.8.4.4" "YouTube"], f.ip = f'.ip → f.geo = f'.geo) ∧
    [known "chrome" "8.8.8.8" "Google LLC", known "curl" "8.8.4.4" "YouTube"].Perm
      [known "curl" "8.8.4.4" "YouTube", known "chrome" "8.8.8.8" "Google LLC"] ∧
    buildSankey [known "curl" "8.8.4.4" "YouTube", known "chrome" "8.8.8.8" "Google LLC"] { dir := .tx, byAsn := true } ≠
      buildSankey [known "chrome" "8.8.8.8" "Google LLC", known "curl" "8.8.4.4" "YouTube"] { dir := .tx, byAsn := true } := by
  refine ⟨by decide +kernel, .swap _ _ _, ?_⟩
  decide +kernel

end Nodes

end NetWatch.Charts.Sankey
