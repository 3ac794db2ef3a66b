import NetWatch.Charts.SankeyRows

namespace NetWatch.Charts.Sankey

open Lib.Assoc Lib.Buckets Lib.GroupFold Lib.JsText Lib.JsValue Lib.SortBy

section Ids

def layerOf (id : Units) : ℕ := if id.head? = some 0x70 then 0 else if id.head? = some 0x61 then 1 else 2

def kindOf (id : Units) : NodeKind := if id.head? = some 0x70 then .proc else if id.head? = some 0x61 then .app else .dest

def starred (id : Units) : Bool := id[1]? = some 0x2A

/-- What the id of a node says about it. -/
structure SankeyNode.Fits (n : SankeyNode) : Prop where
  depth : n.depth = layerOf n.id
  kind : n.kind = kindOf n.id
  bucket : n.bucket = starred n.id

variable {r r' : Row} {rows : List Row} {t t' : SankeyLink × Row}

@[simp] theorem id_procNode (r : Row) : r.procNode.id = r.proc := by
  rw [Row.procNode]
  split <;> rfl

@[simp] theorem id_appNode (r : Row) : r.appNode.id = r.app := rfl

@[simp] theorem id_destNode (r : Row) : r.destNode.id = r.dest := by
  rw [Row.destNode]
  split_ifs <;> rfl

theorem Row.Sound.head_proc (h : r.Sound) : r.proc.head? = some 0x70 := by
  obtain heq | heq := h.proc <;> rw [heq] <;> rfl

theorem Row.Sound.head_app (h : r.Sound) : r.app.head? = some 0x61 := by
  rw [h.app]
  rfl

theorem Row.Sound.head_dest (h : r.Sound) : r.dest.head? = some 0x64 := by
  obtain heq | heq | ⟨u, heq⟩ := h.dest
  · rw [heq]
    rfl
  · rw [heq]
    rfl
  · rw [← heq]
    rfl

theorem Row.Sound.procNode_fits (h : r.Sound) : r.procNode.Fits := by
  rw [Row.procNode]
  obtain heq | heq := h.proc
  · rw [if_pos heq]
    constructor <;> rw [heq] <;> rfl
  · rw [if_neg (heq ▸ (otherProcs_ne r.name).symm)]
    constructor <;> rw [heq] <;> rfl

theorem Row.Sound.appNode_fits (h : r.Sound) : r.appNode.Fits := by
  rw [Row.appNode]
  constructor <;> rw [h.app] <;> rfl

theorem Row.Sound.destNode_fits (h : r.Sound) : r.destNode.Fits := by
  rw [Row.destNode]
  obtain heq | heq | ⟨u, heq⟩ := h.dest
  · rw [if_pos heq]
    constructor <;> rw [heq] <;> rfl
  · rw [if_neg (heq ▸ (unknownPeer_ne _).symm), if_pos (heq ▸ ⟨units "other:" ++ r.appLabel, by rw [otherDest, ← List.append_assoc]; rfl⟩)]
    constructor <;> rw [heq] <;> rfl
  · have hpeer : r.dest ≠ unknownPeer := by
      rintro hpeer
      exact not_real_unknownPeer ⟨u, heq.trans hpeer⟩
    have hstar : ¬ units "d*" <+: r.dest := by
      rintro ⟨v, hv⟩
      exact absurd (congrArg (fun u => u[1]?) (hv.trans heq.symm)) (by simp [units, charUnits])
    rw [if_neg hpeer, if_neg hstar]
    split <;> constructor <;> rw [← heq] <;> rfl

theorem fits_nodes (hsound : ∀ r ∈ rows, r.Sound) {t : SankeyNode × Row} (ht : t ∈ rows.flatMap Row.nodes) : t.1.Fits := by
  obtain ⟨r, hr, ht⟩ := List.mem_flatMap.mp ht
  simp only [Row.nodes, List.mem_cons, List.not_mem_nil, or_false] at ht
  obtain rfl | rfl | rfl := ht
  · exact (hsound r hr).procNode_fits
  · exact (hsound r hr).appNode_fits
  · exact (hsound r hr).destNode_fits

theorem ends_inj (hsound : ∀ r ∈ rows, r.Sound) (ht : t ∈ rows.flatMap Row.links) (ht' : t' ∈ rows.flatMap Row.links)
    (h : joined t.1.source t.1.target = joined t'.1.source t'.1.target) : t.1.source = t'.1.source ∧ t.1.target = t'.1.target := by
  obtain ⟨r, hr, ht⟩ := List.mem_flatMap.mp ht
  obtain ⟨r', hr', ht'⟩ := List.mem_flatMap.mp ht'
  have hs := hsound r hr
  have hs' := hsound r' hr'
  have happ := hs.app_plain
  have happ' := hs'.app_plain
  have hhead : ∀ {a b : Units} {u}, a.head? = some u → (joined a b).head? = some u := by
    intro a b u ha
    rw [joined, List.head?_append, ha]
    rfl
  simp only [Row.links, List.mem_cons, List.not_mem_nil, or_false] at ht ht'
  obtain rfl | rfl := ht <;> obtain rfl | rfl := ht'
  · exact joined_inj_right happ happ' h
  · exact absurd ((hhead hs.head_proc).symm.trans ((congrArg List.head? h).trans (hhead hs'.head_app))) (by decide)
  · exact absurd ((hhead hs.head_app).symm.trans ((congrArg List.head? h).trans (hhead hs'.head_proc))) (by decide)
  · exact joined_inj_left happ happ' h

end Ids

section Totals

variable {rows : List Row}

theorem total_nodes (q : SankeyNode × Row → Bool) (rows : List Row) :
    total (fun t => t.2.value) ((rows.flatMap Row.nodes).filter q) =
      total Row.value (rows.filter fun r => q (r.procNode, r)) + total Row.value (rows.filter fun r => q (r.appNode, r)) +
        total Row.value (rows.filter fun r => q (r.destNode, r)) := by
  induction rows with
  | nil => simp
  | cons r rows ih =>
      rw [List.flatMap_cons, List.filter_append, total_append, ih]
      simp only [Row.nodes, List.filter_cons, List.filter_nil]
      split_ifs <;> simp only [total_cons, total_nil] <;> ring

theorem total_links (q : SankeyLink × Row → Bool) (rows : List Row) :
    total (fun t => t.2.value) ((rows.flatMap Row.links).filter q) =
      total Row.value (rows.filter fun r => q ({ source := r.proc, target := r.app }, r)) +
        total Row.value (rows.filter fun r => q ({ source := r.app, target := r.dest }, r)) := by
  induction rows with
  | nil => simp
  | cons r rows ih =>
      rw [List.flatMap_cons, List.filter_append, total_append, ih]
      simp only [Row.links, List.filter_cons, List.filter_nil]
      split_ifs <;> simp only [total_cons, total_nil] <;> ring

end Totals

section Nodes

variable {rows : List Row} {r : Row} {id : Units} {n : SankeyNode} {l : SankeyLink}

def face (n : SankeyNode) : Units × Units × ℕ × NodeKind × Bool × Option ℤ := (n.id, n.label, n.depth, n.kind, n.bucket, n.asn)

def SankeyLink.ends (l : SankeyLink) : Units × Units := (l.source, l.target)

def nodeId (t : SankeyNode × Row) : Units := t.1.id

def linkKey (t : SankeyLink × Row) : Units := joined t.1.source t.1.target

theorem get?_drawnNodes (h : (drawnNodes rows).get? id = some n) : ∃ m, (nodeMap rows).get? id = some m ∧ face n = face m ∧
    n.value = m.value ∧ n.tx = m.tx ∧ n.rx = m.rx := by
  rw [drawnNodes, withTargets, Dict.get?_mapVals] at h
  obtain ⟨m, hm, rfl⟩ := Option.map_eq_some_iff.mp h
  refine ⟨m, hm, ?_⟩
  cases (instances rows).get? id <;> exact ⟨rfl, rfl, rfl, rfl⟩

theorem keys_drawnNodes : id ∈ (drawnNodes rows).entries.map Prod.fst ↔ id ∈ (rows.flatMap Row.nodes).map nodeId := by
  have hkeys : id ∈ (nodeMap rows).entries.map Prod.fst ↔ id ∈ (rows.flatMap Row.nodes).map nodeId := mem_keys_groupFold
  rw [← hkeys, Dict.mem_keys, Dict.mem_keys]
  constructor
  · rintro ⟨n, hn⟩
    obtain ⟨m, hm, -⟩ := get?_drawnNodes hn
    exact ⟨m, hm⟩
  · rintro ⟨m, hm⟩
    refine ⟨((instances rows).get? id).elim m fun sums => { m with target := busiest m.target sums }, ?_⟩
    rw [drawnNodes, withTargets, Dict.get?_mapVals, hm]
    rfl

theorem node_spec (h : (drawnNodes rows).get? id = some n) : (∃ t ∈ rows.flatMap Row.nodes, t.1.id = id ∧ face n = face t.1) ∧
    n.value = total (fun t => t.2.value) (ofKey nodeId id (rows.flatMap Row.nodes)) := by
  obtain ⟨m, hm, hface, hvalue, -⟩ := get?_drawnNodes h
  constructor
  · have hadd : ∀ (n : SankeyNode) (t : SankeyNode × Row), face (n.add t.2) = face n := fun _ _ => rfl
    obtain ⟨t, ht, hid, heq⟩ := get?_groupFold_fresh hadd hm
    exact ⟨t, ht, hid, hface.trans heq⟩
  · have hadd : ∀ (n : SankeyNode) (t : SankeyNode × Row), (n.add t.2).value = n.value + t.2.value := fun _ _ => rfl
    rw [hvalue]
    refine get?_groupFold_total ?_ hadd hm
    intro t ht
    obtain ⟨r, -, ht⟩ := List.mem_flatMap.mp ht
    simp only [Row.nodes, List.mem_cons, List.not_mem_nil, or_false] at ht
    obtain rfl | rfl | rfl := ht
    · rw [Row.procNode]
      split <;> rfl
    · rfl
    · rw [Row.destNode]
      split_ifs <;> rfl

theorem link_spec (h : (linkMap rows).get? id = some l) :
    (∃ t ∈ rows.flatMap Row.links, linkKey t = id ∧ l.source = t.1.source ∧ l.target = t.1.target) ∧
      l.value = total (fun t => t.2.value) (ofKey linkKey id (rows.flatMap Row.links)) := by
  constructor
  · have hadd : ∀ (l : SankeyLink) (t : SankeyLink × Row), (l.add t.2).ends = l.ends := fun _ _ => rfl
    obtain ⟨t, ht, hid, heq⟩ := get?_groupFold_fresh hadd h
    exact ⟨t, ht, hid, (Prod.mk.inj heq).1, (Prod.mk.inj heq).2⟩
  · have hadd : ∀ (l : SankeyLink) (t : SankeyLink × Row), (l.add t.2).value = l.value + t.2.value := fun _ _ => rfl
    refine get?_groupFold_total ?_ hadd h
    intro t ht
    obtain ⟨r, -, ht⟩ := List.mem_flatMap.mp ht
    simp only [Row.links, List.mem_cons, List.not_mem_nil, or_false] at ht
    obtain rfl | rfl := ht <;> rfl

theorem mem_drawnNodes (h : n ∈ (drawnNodes rows).values) : (drawnNodes rows).get? n.id = some n := by
  obtain ⟨id, hid⟩ := ((drawnNodes rows).mem_values n).mp h
  obtain ⟨⟨t, -, ht, hface⟩, -⟩ := node_spec hid
  rwa [(Prod.mk.inj hface).1, ht]

theorem mem_linkMap (h : l ∈ (linkMap rows).values) : (linkMap rows).get? (joined l.source l.target) = some l := by
  obtain ⟨k, hk⟩ := ((linkMap rows).mem_values l).mp h
  obtain ⟨⟨t, -, ht, hsource, htarget⟩, -⟩ := link_spec hk
  rwa [hsource, htarget, ← linkKey, ht]

theorem ids_nodup (rows : List Row) : ((drawnNodes rows).values.map SankeyNode.id).Nodup := by
  rw [values_map (drawnNodes rows) SankeyNode.id id, List.map_id]
  · exact (drawnNodes rows).nodup
  · intro k n hk
    obtain ⟨⟨t, -, ht, hface⟩, -⟩ := node_spec hk
    exact (Prod.mk.inj hface).1.trans ht

theorem fits_drawn (hsound : ∀ r ∈ rows, r.Sound) (h : n ∈ (drawnNodes rows).values) : n.Fits := by
  obtain ⟨⟨t, ht, -, hface⟩, -⟩ := node_spec (mem_drawnNodes h)
  obtain ⟨hdepth, hkind, hbucket⟩ := fits_nodes hsound ht
  simp only [face, Prod.mk.injEq] at hface
  obtain ⟨hid, -, hd, hk, hb, -⟩ := hface
  exact ⟨hd.trans (hid ▸ hdepth), hk.trans (hid ▸ hkind), hb.trans (hid ▸ hbucket)⟩

theorem exists_node (hid : id ∈ [r.proc, r.app, r.dest]) (hr : r ∈ rows) : ∃ n ∈ (drawnNodes rows).values, n.id = id := by
  have hkey : id ∈ (rows.flatMap Row.nodes).map nodeId := by
    simp only [List.mem_cons, List.not_mem_nil, or_false] at hid
    obtain rfl | rfl | rfl := hid
    · exact List.mem_map.mpr ⟨(r.procNode, r), List.mem_flatMap.mpr ⟨r, hr, by simp [Row.nodes]⟩, id_procNode r⟩
    · exact List.mem_map.mpr ⟨(r.appNode, r), List.mem_flatMap.mpr ⟨r, hr, by simp [Row.nodes]⟩, rfl⟩
    · exact List.mem_map.mpr ⟨(r.destNode, r), List.mem_flatMap.mpr ⟨r, hr, by simp [Row.nodes]⟩, id_destNode r⟩
  obtain ⟨n, hn⟩ := ((drawnNodes rows).mem_keys id).mp (keys_drawnNodes.mpr hkey)
  obtain ⟨⟨t, -, ht, hface⟩, -⟩ := node_spec hn
  exact ⟨n, ((drawnNodes rows).mem_values n).mpr ⟨id, hn⟩, (Prod.mk.inj hface).1.trans ht⟩

theorem node_value (h : n ∈ (drawnNodes rows).values) : n.value =
    total Row.value (ofKey Row.proc n.id rows) + total Row.value (ofKey Row.app n.id rows) + total Row.value (ofKey Row.dest n.id rows) := by
  rw [(node_spec (mem_drawnNodes h)).2, ofKey, total_nodes]
  simp only [nodeId, id_procNode, id_appNode, id_destNode]
  rfl

theorem layer_total (hsound : ∀ r ∈ rows, r.Sound) {d : ℕ} (hd : d < 3) :
    total SankeyNode.value ((drawnNodes rows).values.filter fun n => n.depth = d) = total Row.value rows := by
  have hlayer : total SankeyNode.value ((drawnNodes rows).values.filter fun n => n.depth = d) =
      total (fun t => t.2.value) ((rows.flatMap Row.nodes).filter fun t => t.1.depth = d) := by
    refine total_values_filter (fun _ => keys_drawnNodes) (fun k n hn => (node_spec hn).2) fun t ht n hn => ?_
    have hfits := fits_drawn hsound (((drawnNodes rows).mem_values n).mpr ⟨_, hn⟩)
    obtain ⟨⟨t', -, ht', hface⟩, -⟩ := node_spec hn
    rw [hfits.depth, (fits_nodes hsound ht).depth, (Prod.mk.inj hface).1.trans ht']
    rfl
  have hall : ∀ {p : Row → Bool}, (∀ r ∈ rows, p r = true) → rows.filter p = rows := fun hp => List.filter_eq_self.mpr hp
  have hnone : ∀ {p : Row → Bool}, (∀ r ∈ rows, ¬ p r = true) → rows.filter p = [] := fun hp => List.filter_eq_nil_iff.mpr hp
  have hproc : ∀ r ∈ rows, r.procNode.depth = 0 := fun r hr => by
    rw [(hsound r hr).procNode_fits.depth, layerOf, id_procNode, if_pos (hsound r hr).head_proc]
  have happ : ∀ r ∈ rows, r.appNode.depth = 1 := fun _ _ => rfl
  have hdest : ∀ r ∈ rows, r.destNode.depth = 2 := fun r hr => by
    rw [(hsound r hr).destNode_fits.depth, layerOf, id_destNode, (hsound r hr).head_dest]
    rfl
  rw [hlayer, total_nodes]
  obtain rfl | rfl | rfl : d = 0 ∨ d = 1 ∨ d = 2 := by omega
  · rw [hall fun r hr => by simp [hproc r hr], hnone fun r hr => by simp [happ r hr], hnone fun r hr => by simp [hdest r hr],
      total_nil, add_zero, add_zero]
  · rw [hnone fun r hr => by simp [hproc r hr], hall fun r hr => by simp [happ r hr], hnone fun r hr => by simp [hdest r hr],
      total_nil, zero_add, add_zero]
  · rw [hnone fun r hr => by simp [hproc r hr], hnone fun r hr => by simp [happ r hr], hall fun r hr => by simp [hdest r hr],
      total_nil, zero_add, zero_add]

theorem total_linkMap (hsound : ∀ r ∈ rows, r.Sound) (p : Units × Units → Bool) :
    total SankeyLink.value ((linkMap rows).values.filter fun l => p (l.source, l.target)) =
      total Row.value (rows.filter fun r => p (r.proc, r.app)) + total Row.value (rows.filter fun r => p (r.app, r.dest)) := by
  have hlinks : total SankeyLink.value ((linkMap rows).values.filter fun l => p (l.source, l.target)) =
      total (fun t => t.2.value) ((rows.flatMap Row.links).filter fun t => p (t.1.source, t.1.target)) := by
    have hkeys : ∀ k, k ∈ (linkMap rows).entries.map Prod.fst ↔ k ∈ (rows.flatMap Row.links).map linkKey :=
      fun _ => mem_keys_groupFold
    refine total_values_filter hkeys (fun k l hl => (link_spec hl).2) fun t ht l hl => ?_
    obtain ⟨⟨t', ht', hkey, hsource, htarget⟩, -⟩ := link_spec hl
    obtain ⟨hs, ht⟩ := ends_inj hsound ht' ht hkey
    rw [hsource, htarget, hs, ht]
  rw [hlinks, total_links]

theorem inflow (hsound : ∀ r ∈ rows, r.Sound) (h : n ∈ (drawnNodes rows).values) (hkind : n.kind ≠ .proc) :
    total SankeyLink.value ((linkMap rows).values.filter fun l => l.target = n.id) = n.value := by
  have hnone : ofKey Row.proc n.id rows = [] := by
    apply List.filter_eq_nil_iff.mpr
    intro r hr heq
    rw [(fits_drawn hsound h).kind, kindOf, ← of_decide_eq_true heq, if_pos (hsound r hr).head_proc] at hkind
    exact hkind rfl
  rw [total_linkMap hsound fun e => e.2 = n.id, node_value h, hnone, total_nil, zero_add]
  rfl

theorem outflow (hsound : ∀ r ∈ rows, r.Sound) (h : n ∈ (drawnNodes rows).values) (hkind : n.kind ≠ .dest) :
    total SankeyLink.value ((linkMap rows).values.filter fun l => l.source = n.id) = n.value := by
  have hnone : ofKey Row.dest n.id rows = [] := by
    apply List.filter_eq_nil_iff.mpr
    intro r hr heq
    rw [(fits_drawn hsound h).kind, kindOf, ← of_decide_eq_true heq, (hsound r hr).head_dest] at hkind
    exact hkind rfl
  rw [total_linkMap hsound fun e => e.1 = n.id, node_value h, hnone, total_nil, add_zero]
  rfl

theorem joins (hsound : ∀ r ∈ rows, r.Sound) (h : l ∈ (linkMap rows).values) : ∃ m ∈ (drawnNodes rows).values,
    ∃ n ∈ (drawnNodes rows).values, l.source = m.id ∧ l.target = n.id ∧ n.depth = m.depth + 1 := by
  obtain ⟨⟨t, ht, -, hsource, htarget⟩, -⟩ := link_spec (mem_linkMap h)
  obtain ⟨r, hr, ht⟩ := List.mem_flatMap.mp ht
  have hs := hsound r hr
  obtain ⟨p, hp, hpid⟩ := exists_node (show r.proc ∈ [r.proc, r.app, r.dest] by simp) hr
  obtain ⟨a, ha, haid⟩ := exists_node (show r.app ∈ [r.proc, r.app, r.dest] by simp) hr
  obtain ⟨d, hd, hdid⟩ := exists_node (show r.dest ∈ [r.proc, r.app, r.dest] by simp) hr
  have hpd : p.depth = 0 := by rw [(fits_drawn hsound hp).depth, hpid, layerOf, if_pos hs.head_proc]
  have had : a.depth = 1 := by
    rw [(fits_drawn hsound ha).depth, haid, layerOf, hs.head_app]
    rfl
  have hdd : d.depth = 2 := by
    rw [(fits_drawn hsound hd).depth, hdid, layerOf, hs.head_dest]
    rfl
  simp only [Row.links, List.mem_cons, List.not_mem_nil, or_false] at ht
  obtain rfl | rfl := ht
  · exact ⟨p, hp, a, ha, hsource.trans hpid.symm, htarget.trans haid.symm, by omega⟩
  · exact ⟨a, ha, d, hd, hsource.trans haid.symm, htarget.trans hdid.symm, by omega⟩

end Nodes

end NetWatch.Charts.Sankey
