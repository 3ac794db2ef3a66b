import NetWatch.Charts.SankeyGraph
import NetWatch.Collector.Classify

namespace NetWatch.Charts.Sankey

open Lib.Assoc Lib.Buckets Lib.GroupFold Lib.JsText Lib.JsValue Lib.SortBy

section MainApps

variable {rows : List Row} {r : Row} {id : Units} {n : SankeyNode} {l : SankeyLink}

theorem mem_appOrder : id ∈ appOrder rows ↔ ∃ n ∈ (drawnNodes rows).values, n.kind = .app ∧ n.id = id := by
  rw [appOrder, appsByLabel, List.mem_map]
  constructor
  · rintro ⟨n, hn, hid⟩
    obtain ⟨hn, hkind⟩ := List.mem_filter.mp (mem_sortBy.mp hn)
    exact ⟨n, hn, of_decide_eq_true hkind, hid⟩
  · rintro ⟨n, hn, hkind, hid⟩
    exact ⟨n, mem_sortBy.mpr (List.mem_filter.mpr ⟨hn, decide_eq_true hkind⟩), hid⟩

theorem exists_link {t : SankeyLink × Row} (hr : r ∈ rows) (ht : t ∈ r.links) (hsound : ∀ r ∈ rows, r.Sound) :
    ∃ l ∈ (linkMap rows).values, l.source = t.1.source ∧ l.target = t.1.target := by
  have hmem : t ∈ rows.flatMap Row.links := List.mem_flatMap.mpr ⟨r, hr, ht⟩
  have hkeys : linkKey t ∈ (linkMap rows).entries.map Prod.fst := mem_keys_groupFold.mpr (List.mem_map_of_mem hmem)
  obtain ⟨l, hl⟩ := ((linkMap rows).mem_keys _).mp hkeys
  obtain ⟨⟨t', ht', hkey, hsource, htarget⟩, -⟩ := link_spec hl
  obtain ⟨hs, ht⟩ := ends_inj hsound ht' hmem hkey
  exact ⟨l, ((linkMap rows).mem_values l).mpr ⟨_, hl⟩, hsource.trans hs, htarget.trans ht⟩

theorem app_mem_appOrder (hsound : ∀ r ∈ rows, r.Sound) (hr : r ∈ rows) : r.app ∈ appOrder rows := by
  obtain ⟨n, hn, hid⟩ := exists_node (show r.app ∈ [r.proc, r.app, r.dest] by simp) hr
  refine mem_appOrder.mpr ⟨n, hn, ?_, hid⟩
  rw [(fits_drawn hsound hn).kind, hid, kindOf, (hsound r hr).head_app]
  rfl

theorem head_of_appOrder (hsound : ∀ r ∈ rows, r.Sound) (h : id ∈ appOrder rows) : kindOf id = .app := by
  obtain ⟨n, hn, hkind, rfl⟩ := mem_appOrder.mp h
  rw [← (fits_drawn hsound hn).kind, hkind]

theorem kindOf_dest (hsound : r.Sound) : kindOf r.dest = .dest := by
  rw [kindOf, hsound.head_dest]
  rfl

theorem kindOf_proc (hsound : r.Sound) : kindOf r.proc = .proc := by
  rw [kindOf, hsound.head_proc]
  rfl

theorem kindOf_app (hsound : r.Sound) : kindOf r.app = .app := by
  rw [kindOf, hsound.head_app]
  rfl

theorem linkEnds_row (hsound : ∀ r ∈ rows, r.Sound) (hr : r ∈ rows) :
    (∀ l : SankeyLink, l.source = r.proc → l.target = r.app → linkEnds (appOrder rows) l = (r.proc, r.app)) ∧
      ∀ l : SankeyLink, l.source = r.app → l.target = r.dest → linkEnds (appOrder rows) l = (r.dest, r.app) := by
  constructor
  · intro l hsource htarget
    rw [linkEnds, htarget, if_pos (app_mem_appOrder hsound hr), hsource]
  · intro l hsource htarget
    have hdest : r.dest ∉ appOrder rows := fun hmem =>
      absurd ((kindOf_dest (hsound r hr)).symm.trans (head_of_appOrder hsound hmem)) (by decide)
    rw [linkEnds, htarget, if_neg hdest, hsource]

theorem row_of_node (hsound : ∀ r ∈ rows, r.Sound) (h : n ∈ (drawnNodes rows).values) : ∃ r ∈ rows,
    (n.kind = .proc ∧ n.id = r.proc) ∨ (n.kind = .app ∧ n.id = r.app) ∨ n.kind = .dest ∧ n.id = r.dest := by
  obtain ⟨⟨t, ht, -, hface⟩, -⟩ := node_spec (mem_drawnNodes h)
  obtain ⟨r, hr, ht⟩ := List.mem_flatMap.mp ht
  have hid := (Prod.mk.inj hface).1
  have hs := hsound r hr
  have hkind := (fits_drawn hsound h).kind
  refine ⟨r, hr, ?_⟩
  simp only [Row.nodes, List.mem_cons, List.not_mem_nil, or_false] at ht
  obtain rfl | rfl | rfl := ht
  · rw [id_procNode] at hid
    exact .inl ⟨by rw [hkind, hid, kindOf_proc hs], hid⟩
  · rw [id_appNode] at hid
    exact .inr (.inl ⟨by rw [hkind, hid, kindOf_app hs], hid⟩)
  · rw [id_destNode] at hid
    exact .inr (.inr ⟨by rw [hkind, hid, kindOf_dest hs], hid⟩)

theorem has_main (hsound : ∀ r ∈ rows, r.Sound) (h : n ∈ (drawnNodes rows).values) (hkind : n.kind ≠ .app) :
    ((mainApp rows).get? n.id).isSome := by
  have hkey : ∀ {l : SankeyLink} {app : Units}, l ∈ (linkMap rows).values → linkEnds (appOrder rows) l = (n.id, app) →
      ((mainApp rows).get? n.id).isSome := by
    intro l app hl hends
    have hmem : n.id ∈ (mainApp rows).entries.map Prod.fst :=
      mem_keys_groupFold.mpr (List.mem_map.mpr ⟨l, hl, congrArg Prod.fst hends⟩)
    exact Option.isSome_iff_exists.mpr (((mainApp rows).mem_keys n.id).mp hmem)
  obtain ⟨r, hr, ⟨-, hid⟩ | ⟨happ, -⟩ | ⟨-, hid⟩⟩ := row_of_node hsound h
  · obtain ⟨l, hl, hsource, htarget⟩ := exists_link (t := ({ source := r.proc, target := r.app }, r)) hr (by simp [Row.links]) hsound
    exact hkey hl (hid ▸ (linkEnds_row hsound hr).1 l hsource htarget)
  · exact absurd happ hkind
  · obtain ⟨l, hl, hsource, htarget⟩ := exists_link (t := ({ source := r.app, target := r.dest }, r)) hr (by simp [Row.links]) hsound
    exact hkey hl (hid ▸ (linkEnds_row hsound hr).2 l hsource htarget)

theorem draw_some (hsound : ∀ r ∈ rows, r.Sound) : draw rows =
    some (sortBy (nodeOrder (appOrder rows) (mainApp rows)) (drawnNodes rows).values, sortBy linkOrder (linkMap rows).values) := by
  rw [draw, if_neg]
  rw [stray, List.any_eq_true]
  rintro ⟨n, hn, hstray⟩
  rw [Bool.and_eq_true, Bool.and_eq_true, decide_eq_true_iff] at hstray
  have hmain := has_main hsound hn hstray.1.1
  rw [Option.isNone_iff_eq_none.mp hstray.1.2] at hmain
  cases hmain

end MainApps

/-- A drawing in which nothing is lost: three layers with the same sums, in which every node passes on what it
receives, with few real nodes, no thin links to them, and buckets of their own. -/
structure Diagram (opts : SankeyOptions) (g : SankeyGraph) : Prop where
  layers : ∀ d < 3, total SankeyNode.value (g.nodes.filter fun n => n.depth = d) = g.total
  depth : ∀ n ∈ g.nodes, n.depth < 3
  inflow : ∀ n ∈ g.nodes, n.kind ≠ .proc → total SankeyLink.value (g.links.filter fun l => l.target = n.id) = n.value
  outflow : ∀ n ∈ g.nodes, n.kind ≠ .dest → total SankeyLink.value (g.links.filter fun l => l.source = n.id) = n.value
  ids : (g.nodes.map SankeyNode.id).Nodup
  joins : ∀ l ∈ g.links, ∃ m ∈ g.nodes, ∃ n ∈ g.nodes, l.source = m.id ∧ l.target = n.id ∧ n.depth = m.depth + 1
  procs : (g.nodes.filter fun n => n.kind = .proc ∧ n.bucket = false).length ≤ opts.topProcs
  dests : (g.nodes.filter fun n => n.kind = .dest ∧ n.bucket = false).length ≤ opts.topDests
  procLinks : ∀ l ∈ g.links, ∀ n ∈ g.nodes, n.id = l.source → n.kind = .proc → n.bucket = false → g.total * opts.minShare ≤ l.value
  destLinks : ∀ l ∈ g.links, units "d:" <+: l.target → g.total * opts.minShare ≤ l.value
  realProc : ∀ n ∈ g.nodes, n.bucket = true → ∀ name, n.id ≠ units "p:" ++ name
  realDest : ∀ n ∈ g.nodes, n.bucket = true → ∀ f, isUnknownPeer f.ip f.rport = false → n.id ≠ (destEnd opts.byAsn f).dest

section Drawn

variable {flows : List FlowAgg} {opts : SankeyOptions} {n : SankeyNode} {l : SankeyLink}

theorem starred_otherProcs : starred otherProcs = true := rfl

theorem not_starred_proc (name : Units) : starred (units "p:" ++ name) = false := rfl

theorem not_starred_real {u : Units} (h : units "d:" <+: u) : starred u = false := by
  obtain ⟨v, rfl⟩ := h
  rfl

theorem real_dest {f : FlowAgg} {byAsn : Bool} (h : isUnknownPeer f.ip f.rport = false) : units "d:" <+: (destEnd byAsn f).dest := by
  unfold destEnd
  rw [if_neg (by simp [h])]
  split
  · exact ⟨units "AS" ++ Sankey.intUnits _, by rw [← List.append_assoc]; rfl⟩
  · exact List.prefix_append _ _

theorem real_procs (hplain : Plain flows) : ((drawnNodes (placed flows opts)).values.filter fun n =>
    n.kind = .proc ∧ n.bucket = false).length ≤ opts.topProcs := by
  have hsound : ∀ r ∈ placed flows opts, r.Sound := fun r hr => hplain.sound (placed_of hr)
  refine (List.length_map SankeyNode.id).symm.le.trans (le_trans ?_ (length_topKeys (sumBy Row.proc Row.value (flowRows flows opts)) _))
  refine (List.Nodup.subperm ((ids_nodup _).sublist (List.filter_sublist.map _)) fun id hid => ?_).length_le
  obtain ⟨n, hn, rfl⟩ := List.mem_map.mp hid
  obtain ⟨hn, hreal⟩ := List.mem_filter.mp hn
  obtain ⟨hkind, hbucket⟩ := of_decide_eq_true hreal
  rw [(fits_drawn hsound hn).bucket] at hbucket
  obtain ⟨r, hr, ⟨-, hid⟩ | ⟨happ, -⟩ | ⟨hdest, -⟩⟩ := row_of_node hsound hn
  · rw [hid] at hbucket ⊢
    refine (kept_placed hr).1 fun hother => ?_
    rw [hother, starred_otherProcs] at hbucket
    cases hbucket
  · exact absurd (happ.symm.trans hkind) (by decide)
  · exact absurd (hdest.symm.trans hkind) (by decide)

theorem real_dests (hplain : Plain flows) : ((drawnNodes (placed flows opts)).values.filter fun n =>
    n.kind = .dest ∧ n.bucket = false).length ≤ opts.topDests := by
  have hsound : ∀ r ∈ placed flows opts, r.Sound := fun r hr => hplain.sound (placed_of hr)
  refine (List.length_map SankeyNode.id).symm.le.trans (le_trans ?_ (length_topKeys (sumBy Row.dest Row.value (flowRows flows opts)) _))
  refine (List.Nodup.subperm ((ids_nodup _).sublist (List.filter_sublist.map _)) fun id hid => ?_).length_le
  obtain ⟨n, hn, rfl⟩ := List.mem_map.mp hid
  obtain ⟨hn, hreal⟩ := List.mem_filter.mp hn
  obtain ⟨hkind, hbucket⟩ := of_decide_eq_true hreal
  rw [(fits_drawn hsound hn).bucket] at hbucket
  obtain ⟨r, hr, ⟨hproc, -⟩ | ⟨happ, -⟩ | ⟨-, hid⟩⟩ := row_of_node hsound hn
  · exact absurd (hproc.symm.trans hkind) (by decide)
  · exact absurd (happ.symm.trans hkind) (by decide)
  · rw [hid] at hbucket ⊢
    obtain hdest | hdest | hdest := (hsound r hr).dest
    · rw [hdest] at hbucket
      cases hbucket
    · rw [hdest] at hbucket
      cases hbucket
    · exact (kept_placed hr).2 hdest

theorem total_nonneg {rows : List Row} (h : ∀ r ∈ rows, 0 < r.value) (p : Row → Bool) : 0 ≤ total Row.value (rows.filter p) := by
  apply List.sum_nonneg
  intro v hv
  obtain ⟨r, hr, rfl⟩ := List.mem_map.mp hv
  exact (h r (List.mem_of_mem_filter hr)).le

theorem link_value (h : l ∈ (linkMap (placed flows opts)).values) {k : Units} (hk : joined l.source l.target = k) :
    total Row.value (ofKey (fun r => joined r.proc r.app) k (placed flows opts)) ≤ l.value ∧
      total Row.value (ofKey (fun r => joined r.app r.dest) k (placed flows opts)) ≤ l.value := by
  have hvalue := (link_spec (mem_linkMap h)).2
  rw [hk, ofKey, total_links] at hvalue
  rw [hvalue]
  have hpos : ∀ r ∈ placed flows opts, 0 < r.value := fun r hr => value_pos hr
  exact ⟨le_add_of_nonneg_right (total_nonneg hpos _), le_add_of_nonneg_left (total_nonneg hpos _)⟩

theorem thick_dest (hplain : Plain flows) (h : l ∈ (linkMap (placed flows opts)).values) (hreal : units "d:" <+: l.target) :
    minLink flows opts ≤ l.value := by
  obtain ⟨⟨t, ht, -, hsource, htarget⟩, -⟩ := link_spec (mem_linkMap h)
  obtain ⟨r, hr, ht⟩ := List.mem_flatMap.mp ht
  have hs := hplain.sound (placed_of hr)
  simp only [Row.links, List.mem_cons, List.not_mem_nil, or_false] at ht
  obtain rfl | rfl := ht
  · obtain ⟨u, hu⟩ := hreal
    rw [htarget] at hu
    have hhead : (units "d:" ++ u).head? = some 0x61 := hu ▸ hs.head_app
    cases hhead
  · rw [htarget] at hreal
    exact (min_le_dest hplain hr hreal).trans (link_value h (by rw [hsource, htarget])).2

theorem thick_proc (hplain : Plain flows) (h : l ∈ (linkMap (placed flows opts)).values) (hkind : kindOf l.source = .proc)
    (hbucket : starred l.source = false) : minLink flows opts ≤ l.value := by
  obtain ⟨⟨t, ht, -, hsource, htarget⟩, -⟩ := link_spec (mem_linkMap h)
  obtain ⟨r, hr, ht⟩ := List.mem_flatMap.mp ht
  have hs := hplain.sound (placed_of hr)
  simp only [Row.links, List.mem_cons, List.not_mem_nil, or_false] at ht
  obtain rfl | rfl := ht
  · rw [hsource] at hbucket
    have hreal : r.proc ≠ otherProcs := by
      intro hother
      dsimp only at hbucket
      rw [hother] at hbucket
      cases hbucket
    exact (min_le_proc hplain hr hreal).trans (link_value h (by rw [hsource, htarget])).1
  · rw [hsource] at hkind
    exact absurd ((kindOf_app hs).symm.trans hkind) (by decide)

theorem plain_collector (h : ∀ f ∈ flows, ∃ proto rport lport sniffed,
    f.app = units (Collector.Classify.app proto rport lport sniffed) ∧ f.proto = units (Collector.Classify.transport proto)) :
    Plain flows := by
  have hlabels : ∀ label ∈ Collector.Classify.labels, 0 ∉ units label := by decide +kernel
  intro f hf
  obtain ⟨proto, rport, lport, sniffed, happ, hproto⟩ := h f hf
  rw [happ, hproto]
  refine ⟨hlabels _ (Collector.Classify.app_mem proto rport lport sniffed), ?_⟩
  unfold Collector.Classify.transport
  split_ifs <;> decide

theorem buildSankey_some (hplain : Plain flows) : buildSankey flows opts = some
    { nodes := sortBy (nodeOrder (appOrder (placed flows opts)) (mainApp (placed flows opts))) (drawnNodes (placed flows opts)).values
      links := sortBy linkOrder (linkMap (placed flows opts)).values
      total := total Row.value (flowRows flows opts) } := by
  rw [buildSankey, draw_some fun r hr => hplain.sound (placed_of hr)]
  rfl

/-- The flow diagram conserves the traffic, for apps and transports without the separator in their texts. -/
theorem buildSankey_conserves (flows : List FlowAgg) (opts : SankeyOptions) (hnn : ∀ f ∈ flows, 0 ≤ f.tx ∧ 0 ≤ f.rx)
    (hplain : Plain flows) :
    ∃ g, buildSankey flows opts = some g ∧ g.total = total (pick opts.dir) flows ∧ Diagram opts g := by
  have hsound : ∀ r ∈ placed flows opts, r.Sound := fun r hr => hplain.sound (placed_of hr)
  have htotal : total Row.value (flowRows flows opts) = total Row.value (placed flows opts) := by
    rw [total_flowRows, total_placed]
  have hnodes : (sortBy (nodeOrder (appOrder (placed flows opts)) (mainApp (placed flows opts)))
    (drawnNodes (placed flows opts)).values).Perm (drawnNodes (placed flows opts)).values := sortBy_perm _
  have hlinks : (sortBy linkOrder (linkMap (placed flows opts)).values).Perm (linkMap (placed flows opts)).values := sortBy_perm _
  refine ⟨_, buildSankey_some hplain, ?_, ?_⟩
  · exact (total_flowRows flows opts).trans (total_carrying hnn opts.dir)
  · constructor <;> dsimp only
    · intro d hd
      exact (total_perm (hnodes.filter _) _).trans ((layer_total hsound hd).trans htotal.symm)
    · intro n hn
      rw [(fits_drawn hsound (hnodes.mem_iff.mp hn)).depth, layerOf]
      split_ifs <;> omega
    · intro n hn hkind
      exact (total_perm (hlinks.filter _) _).trans (inflow hsound (hnodes.mem_iff.mp hn) hkind)
    · intro n hn hkind
      exact (total_perm (hlinks.filter _) _).trans (outflow hsound (hnodes.mem_iff.mp hn) hkind)
    · exact (hnodes.map _).nodup_iff.mpr (ids_nodup _)
    · intro l hl
      obtain ⟨m, hm, n, hn, hends⟩ := joins hsound (hlinks.mem_iff.mp hl)
      exact ⟨m, hnodes.mem_iff.mpr hm, n, hnodes.mem_iff.mpr hn, hends⟩
    · exact (hnodes.filter _).length_eq.trans_le (real_procs hplain)
    · exact (hnodes.filter _).length_eq.trans_le (real_dests hplain)
    · intro l hl n hn hid hkind hbucket
      obtain ⟨-, hk, hb⟩ := fits_drawn hsound (hnodes.mem_iff.mp hn)
      exact thick_proc hplain (hlinks.mem_iff.mp hl) (hid ▸ hk.symm.trans hkind) (hid ▸ hb.symm.trans hbucket)
    · intro l hl hreal
      exact thick_dest hplain (hlinks.mem_iff.mp hl) hreal
    · intro n hn hbucket name hid
      rw [(fits_drawn hsound (hnodes.mem_iff.mp hn)).bucket, hid, not_starred_proc] at hbucket
      cases hbucket
    · intro n hn hbucket f hf hid
      rw [(fits_drawn hsound (hnodes.mem_iff.mp hn)).bucket, hid, not_starred_real (real_dest hf)] at hbucket
      cases hbucket

def flow (name app : String) : FlowAgg := ⟨units name, units "TCP", units app, units "1.1.1.1", 443, 1, 0, [], none⟩

def flowTo (name app ip : String) (rport : ℕ) (tx rx : ℚ) (geo : Option GeoIp.Asn.Geo) : FlowAgg :=
  ⟨units name, units "TCP", units app, units ip, rport, tx, rx, units name, geo⟩

/-- Of three processes and five destinations two and three are kept, and then one link
on each side is a hairline. -/
def foldedFlows : List FlowAgg :=
  [flowTo "curl" "HTTPS" "1.1.1.1" 443 50 10 (some ⟨13335, units "Cloudflare, Inc.", units "US"⟩),
    flowTo "firefox" "HTTPS" "2.2.2.2" 443 20 10 none, flowTo "sshd" "SSH" "3.3.3.3" 22 5 5 none,
    flowTo "curl" "DNS" "8.8.8.8" 53 1 1 none, flowTo "firefox" "HTTPS" "" 0 3 0 none]

def foldedOptions : SankeyOptions := { dir := .both, topProcs := 2, topDests := 3, minShare := 1 / 10, byAsn := true }

theorem buildSankey_conserves_folded : ∃ g, buildSankey foldedFlows foldedOptions = some g ∧
    ((g.nodes.filter SankeyNode.bucket).map fun n => (n.id, n.value)) =
      [(otherProcs, 12), (otherDest (units "DNS"), 2), (otherDest (units "HTTPS"), 3), (otherDest (units "SSH"), 10)] ∧
    g.total = total (pick .both) foldedFlows ∧ Diagram foldedOptions g := by
  have hbuckets : (buildSankey foldedFlows foldedOptions).all (fun g =>
      ((g.nodes.filter SankeyNode.bucket).map fun n => (n.id, n.value)) =
        [(otherProcs, 12), (otherDest (units "DNS"), 2), (otherDest (units "HTTPS"), 3), (otherDest (units "SSH"), 10)]) = true := by
    decide +kernel
  obtain ⟨g, hg, htotal, hdiagram⟩ := buildSankey_conserves foldedFlows foldedOptions (by decide +kernel)
    (by unfold Plain; decide +kernel)
  rw [hg] at hbuckets
  exact ⟨g, hg, of_decide_eq_true hbuckets, htotal, hdiagram⟩

/-- With the separator in the text of an app, two links may have one key, and a node loses what comes in. -/
theorem separator_unbalanced : (∀ f ∈ [flow "n\x00a:x" "y", flow "n" "x\x00a:y", flow "n" "z"], 0 ≤ f.tx ∧ 0 ≤ f.rx) ∧
    ∃ g, buildSankey [flow "n\x00a:x" "y", flow "n" "x\x00a:y", flow "n" "z"] { dir := .tx } = some g ∧
      ¬ Diagram { dir := .tx } g := by
  have hloses : (buildSankey [flow "n\x00a:x" "y", flow "n" "x\x00a:y", flow "n" "z"] { dir := .tx }).any (fun g =>
      decide (¬ ∀ n ∈ g.nodes, n.kind ≠ .proc → total SankeyLink.value (g.links.filter fun l => l.target = n.id) = n.value)) =
        true := by
    decide +kernel
  obtain ⟨g, hg, hloses⟩ := (Option.any_eq_true _ _).mp hloses
  exact ⟨by simp [flow], g, hg, fun hdiagram => of_decide_eq_true hloses hdiagram.inflow⟩

end Drawn

end NetWatch.Charts.Sankey
