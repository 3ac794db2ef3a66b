import NetWatch.Charts.Sankey
import NetWatch.Lib.Texts

namespace NetWatch.Charts.Sankey

open Lib.Assoc Lib.Buckets Lib.GroupFold Lib.JsText Lib.JsValue Lib.SortBy

def Row.Of (r₀ r : Row) : Prop :=
  ∃ p d, (p = r₀.proc ∨ p = otherProcs) ∧ (d = r₀.dest ∨ d = otherDest r₀.appLabel) ∧ r = { r₀ with proc := p, dest := d }

structure Row.Sound (r : Row) : Prop where
  proc : r.proc = otherProcs ∨ r.proc = units "p:" ++ r.name
  app : r.app = units "a:" ++ r.appLabel
  dest : r.dest = unknownPeer ∨ r.dest = otherDest r.appLabel ∨ units "d:" <+: r.dest
  plain : 0 ∉ r.appLabel

section Texts

variable {s t a b c d : Units}

theorem joined_inj_left (ha : 0 ∉ a) (hc : 0 ∉ c) (h : joined a b = joined c d) : a = c ∧ b = d :=
  Lib.Texts.append_sep_inj ha hc h

theorem joined_inj_right (hb : 0 ∉ b) (hd : 0 ∉ d) (h : joined a b = joined c d) : a = c ∧ b = d :=
  Lib.Texts.append_sep_inj_last hb hd h

theorem otherProcs_ne (name : Units) : otherProcs ≠ units "p:" ++ name := by
  intro h
  exact absurd (congrArg (fun u => u[1]?) h) (by simp [otherProcs, units, charUnits])

theorem not_real_otherDest (label : Units) : ¬ units "d:" <+: otherDest label := by
  rintro ⟨u, h⟩
  exact absurd (congrArg (fun u => u[1]?) h) (by simp [otherDest, units, charUnits])

theorem not_real_unknownPeer : ¬ units "d:" <+: unknownPeer := by decide

theorem unknownPeer_ne (label : Units) : unknownPeer ≠ otherDest label := by
  intro h
  exact absurd (congrArg (fun u => u[2]?) h) (by simp [unknownPeer, otherDest, units, charUnits])

end Texts

section Rows

variable {flows : List FlowAgg} {opts : SankeyOptions} {f : FlowAgg} {r r₀ : Row}
  {min : ℚ} {sums : Dict Units ℚ} {label : FlowAgg → Units}

theorem Row.Of.refl (r : Row) : Row.Of r r := ⟨r.proc, r.dest, .inl rfl, .inl rfl, rfl⟩

theorem Row.Of.otherProc (h : Row.Of r₀ r) : Row.Of r₀ r.otherProc := by
  obtain ⟨p, d, -, hd, rfl⟩ := h
  exact ⟨otherProcs, d, .inr rfl, hd, rfl⟩

theorem Row.Of.toOther (h : Row.Of r₀ r) : Row.Of r₀ r.toOther := by
  obtain ⟨p, d, hp, -, rfl⟩ := h
  exact ⟨p, otherDest r₀.appLabel, hp, .inr rfl, rfl⟩

theorem Row.Of.cap (h : Row.Of r₀ r) (keptProcs keptDests : List Units) : Row.Of r₀ (cap keptProcs keptDests r) := by
  have hdest : ∀ {r}, Row.Of r₀ r → Row.Of r₀ (if r.dest ∈ keptDests then r else r.toOther) := by
    intro r h
    split
    · exact h
    · exact h.toOther
  apply hdest
  split
  · exact h
  · exact h.otherProc

theorem Row.Of.foldDest (h : Row.Of r₀ r) : Row.Of r₀ (foldDest min sums r) := by
  rw [Sankey.foldDest]
  split
  · exact h.toOther
  · exact h

theorem Row.Of.foldProc (h : Row.Of r₀ r) : Row.Of r₀ (foldProc min sums r) := by
  rw [Sankey.foldProc]
  split
  · exact h.otherProc
  · exact h

def place (flows : List FlowAgg) (opts : SankeyOptions) (f : FlowAgg) : Row :=
  foldProc (minLink flows opts) (linkSums Row.proc Row.app (destRows flows opts))
    (foldDest (minLink flows opts) (linkSums Row.app Row.dest (cappedRows flows opts))
      (cap (topKeys (sumBy Row.proc Row.value (flowRows flows opts)) opts.topProcs)
        (topKeys (sumBy Row.dest Row.value (flowRows flows opts)) opts.topDests)
        (flowRow opts (appLabel (protos (carrying opts.dir flows))) f)))

theorem placed_eq (flows : List FlowAgg) (opts : SankeyOptions) :
    placed flows opts = (carrying opts.dir flows).map (place flows opts) := by
  rw [placed, destRows, cappedRows, flowRows, List.map_map, List.map_map, List.map_map]
  rfl

theorem place_of (flows : List FlowAgg) (opts : SankeyOptions) (f : FlowAgg) :
    Row.Of (flowRow opts (appLabel (protos (carrying opts.dir flows))) f) (place flows opts f) :=
  ((((Row.Of.refl _).cap _ _).foldDest).foldProc)

theorem real_destEnd (byAsn : Bool) (f : FlowAgg) : (destEnd byAsn f).dest = unknownPeer ∨ units "d:" <+: (destEnd byAsn f).dest := by
  unfold destEnd
  split
  · exact .inl rfl
  · split
    · exact .inr ⟨_, by simp [units, charUnits]; rfl⟩
    · exact .inr (List.prefix_append _ _)

theorem plain_appLabel {protos : Dict Units (Finset Units)} (happ : 0 ∉ f.app) (hproto : 0 ∉ f.proto) : 0 ∉ appLabel protos f := by
  rw [appLabel]
  split
  · rw [List.mem_append, List.mem_append, not_or, not_or]
    exact ⟨⟨happ, by decide⟩, hproto⟩
  · exact happ

theorem sound_of (h : Row.Of (flowRow opts label f) r) (hplain : 0 ∉ label f) : r.Sound := by
  obtain ⟨p, d, hp, hd, rfl⟩ := h
  refine ⟨?_, rfl, ?_, hplain⟩
  · obtain rfl | rfl := hp
    · exact .inr rfl
    · exact .inl rfl
  · obtain rfl | rfl := hd
    · obtain hdest | hdest := real_destEnd opts.byAsn f
      · exact .inl hdest
      · exact .inr (.inr hdest)
    · exact .inr (.inl rfl)

theorem flowRows_of (hr : r ∈ flowRows flows opts) : ∃ f ∈ carrying opts.dir flows,
    Row.Of (flowRow opts (appLabel (protos (carrying opts.dir flows))) f) r := by
  obtain ⟨f, hf, rfl⟩ := List.mem_map.mp hr
  exact ⟨f, hf, Row.Of.refl _⟩

theorem cappedRows_of (hr : r ∈ cappedRows flows opts) : ∃ f ∈ carrying opts.dir flows,
    Row.Of (flowRow opts (appLabel (protos (carrying opts.dir flows))) f) r := by
  obtain ⟨r₁, hr₁, rfl⟩ := List.mem_map.mp hr
  obtain ⟨f, hf, hof⟩ := flowRows_of hr₁
  exact ⟨f, hf, hof.cap _ _⟩

theorem destRows_of (hr : r ∈ destRows flows opts) : ∃ f ∈ carrying opts.dir flows,
    Row.Of (flowRow opts (appLabel (protos (carrying opts.dir flows))) f) r := by
  obtain ⟨r₁, hr₁, rfl⟩ := List.mem_map.mp hr
  obtain ⟨f, hf, hof⟩ := cappedRows_of hr₁
  exact ⟨f, hf, hof.foldDest⟩

theorem placed_of (hr : r ∈ placed flows opts) : ∃ f ∈ carrying opts.dir flows,
    Row.Of (flowRow opts (appLabel (protos (carrying opts.dir flows))) f) r := by
  obtain ⟨r₁, hr₁, rfl⟩ := List.mem_map.mp hr
  obtain ⟨f, hf, hof⟩ := destRows_of hr₁
  exact ⟨f, hf, hof.foldProc⟩

/-- No app or transport has the separator in its text. -/
def Plain (flows : List FlowAgg) : Prop := ∀ f ∈ flows, 0 ∉ f.app ∧ 0 ∉ f.proto

theorem Plain.sound (hplain : Plain flows) {protos : Dict Units (Finset Units)}
    (h : ∃ f ∈ carrying opts.dir flows, Row.Of (flowRow opts (appLabel protos) f) r) : r.Sound := by
  obtain ⟨f, hf, hof⟩ := h
  obtain ⟨happ, hproto⟩ := hplain f (List.mem_of_mem_filter hf)
  exact sound_of hof (plain_appLabel happ hproto)

theorem Row.Sound.app_plain (h : r.Sound) : 0 ∉ r.app := by
  rw [h.app, List.mem_append, not_or]
  exact ⟨by decide, h.plain⟩

theorem value_of (h : Row.Of r₀ r) : r.value = r₀.value := by
  obtain ⟨p, d, -, -, rfl⟩ := h
  rfl

theorem total_placed (flows : List FlowAgg) (opts : SankeyOptions) :
    total Row.value (placed flows opts) = total (pick opts.dir) (carrying opts.dir flows) := by
  rw [placed_eq, total_map]
  exact congrArg List.sum (List.map_congr_left fun f _ => value_of (place_of flows opts f))

theorem total_flowRows (flows : List FlowAgg) (opts : SankeyOptions) :
    total Row.value (flowRows flows opts) = total (pick opts.dir) (carrying opts.dir flows) := by
  rw [flowRows, total_map]
  rfl

theorem total_carrying (h : ∀ f ∈ flows, 0 ≤ f.tx ∧ 0 ≤ f.rx) (dir : FlowDir) :
    total (pick dir) (carrying dir flows) = total (pick dir) flows := by
  induction flows with
  | nil => rfl
  | cons f flows ih =>
      have hrest := ih fun g hg => h g (List.mem_cons_of_mem f hg)
      rw [carrying] at hrest ⊢
      by_cases hf : 0 < pick dir f
      · rw [List.filter_cons, if_pos (decide_eq_true hf), total_cons, total_cons, hrest]
      · have hnn : 0 ≤ pick dir f := by
          obtain ⟨htx, hrx⟩ := h f List.mem_cons_self
          cases dir with
          | tx => exact htx
          | rx => exact hrx
          | both => exact add_nonneg htx hrx
        have hzero : pick dir f = 0 := le_antisymm (not_lt.mp hf) hnn
        rw [List.filter_cons_of_neg (by simpa using hf), total_cons, hrest, hzero, zero_add]

theorem value_pos (hr : r ∈ placed flows opts) : 0 < r.value := by
  rw [placed_eq] at hr
  obtain ⟨f, hf, rfl⟩ := List.mem_map.mp hr
  rw [value_of (place_of flows opts f)]
  exact of_decide_eq_true (List.mem_filter.mp hf).2

end Rows

section Sums

variable {K : Type} [DecidableEq K] {flows : List FlowAgg} {opts : SankeyOptions} {r : Row} {rows : List Row} {key : Row → K} {k : K}
  {source target : Row → Units} {φ : Row → Row} {n : ℕ} {u : Units}

theorem length_topKeys (sums : Dict Units ℚ) (n : ℕ) : (topKeys sums n).length ≤ n := by
  rw [topKeys, List.length_map]
  exact List.length_take_le _ _

theorem sumOf_linkSums (u : Units) :
    sumOf (linkSums source target rows) u = total Row.value (ofKey (fun r => joined (source r) (target r)) u rows) := by
  rw [sumOf, linkSums, get?_sumBy]
  split
  · rename_i hnil
    rw [hnil]
    rfl
  · rfl

theorem ofKey_map (hkey : ∀ r ∈ rows, key (φ r) = k ↔ key r = k) : ofKey key k (rows.map φ) = (ofKey key k rows).map φ := by
  rw [ofKey, List.filter_map, ofKey]
  congr 1
  apply List.filter_congr
  intro r hr
  exact decide_eq_decide.mpr (hkey r hr)

theorem total_ofKey_map (hkey : ∀ r ∈ rows, key (φ r) = k ↔ key r = k) (hvalue : ∀ r, (φ r).value = r.value) :
    total Row.value (ofKey key k (rows.map φ)) = total Row.value (ofKey key k rows) := by
  rw [ofKey_map hkey, total_map]
  exact congrArg List.sum (List.map_congr_left fun r _ => hvalue r)

theorem value_foldDest {min : ℚ} {sums : Dict Units ℚ} (r : Row) : (foldDest min sums r).value = r.value := by
  rw [foldDest]
  split <;> rfl

theorem value_foldProc {min : ℚ} {sums : Dict Units ℚ} (r : Row) : (foldProc min sums r).value = r.value := by
  rw [foldProc]
  split <;> rfl

theorem app_foldProc {min : ℚ} {sums : Dict Units ℚ} (r : Row) :
    (foldProc min sums r).app = r.app ∧ (foldProc min sums r).dest = r.dest := by
  rw [foldProc]
  split <;> exact ⟨rfl, rfl⟩

/-- Where the thin links with a real end are moved away, to links that no real end has, those
with a real end that are left are not thin. -/
theorem min_le_kept (real : Row → Prop) [DecidablePred real] {move : Row → Row} {min : ℚ}
    (hφ : ∀ r, φ r = if real r ∧ sumOf (linkSums source target rows) (joined (source r) (target r)) < min then move r else r)
    (hvalue : ∀ r, (φ r).value = r.value) (hmove : ∀ r, ¬ real (move r))
    (happ : ∀ r₁ ∈ rows, ∀ r ∈ rows, real r → joined (source (move r₁)) (target (move r₁)) ≠ joined (source r) (target r))
    (hr : r ∈ rows) (hreal : real (φ r)) : min ≤
      total Row.value (ofKey (fun r => joined (source r) (target r)) (joined (source (φ r)) (target (φ r))) (rows.map φ)) := by
  have hkept : ¬ (real r ∧ sumOf (linkSums source target rows) (joined (source r) (target r)) < min) := by
    intro hthin
    rw [hφ, if_pos hthin] at hreal
    exact hmove r hreal
  rw [hφ, if_neg hkept] at hreal ⊢
  have hle := not_lt.mp fun hlt => hkept ⟨hreal, hlt⟩
  rw [sumOf_linkSums] at hle
  rw [total_ofKey_map _ hvalue]
  · exact hle
  · intro r₁ hr₁
    by_cases hthin : real r₁ ∧ sumOf (linkSums source target rows) (joined (source r₁) (target r₁)) < min
    · rw [hφ, if_pos hthin]
      refine iff_of_false (happ r₁ hr₁ r hr hreal) fun hkey => ?_
      exact hkept ⟨hreal, hkey ▸ hthin.2⟩
    · rw [hφ, if_neg hthin]

theorem min_le_dest (hplain : Plain flows) (hr : r ∈ placed flows opts) (hreal : units "d:" <+: r.dest) :
    minLink flows opts ≤ total Row.value (ofKey (fun r => joined r.app r.dest) (joined r.app r.dest) (placed flows opts)) := by
  obtain ⟨r₂, hr₂, rfl⟩ := List.mem_map.mp hr
  obtain ⟨r₁, hr₁, rfl⟩ := List.mem_map.mp hr₂
  rw [(app_foldProc _).1, (app_foldProc _).2] at *
  rw [placed, total_ofKey_map (fun r _ => by rw [(app_foldProc r).1, (app_foldProc r).2]) value_foldProc, destRows]
  refine min_le_kept (fun r => units "d:" <+: r.dest) (fun _ => rfl) value_foldDest (fun r => not_real_otherDest _) ?_ hr₁ hreal
  intro r hr r' hr' hreal hkey
  have happ := (hplain.sound (cappedRows_of hr)).app_plain
  have happ' := (hplain.sound (cappedRows_of hr')).app_plain
  exact not_real_otherDest _ ((joined_inj_left happ happ' hkey).2 ▸ hreal)

theorem min_le_proc (hplain : Plain flows) (hr : r ∈ placed flows opts) (hreal : r.proc ≠ otherProcs) :
    minLink flows opts ≤ total Row.value (ofKey (fun r => joined r.proc r.app) (joined r.proc r.app) (placed flows opts)) := by
  obtain ⟨r₂, hr₂, rfl⟩ := List.mem_map.mp hr
  refine min_le_kept (fun r => r.proc ≠ otherProcs) (fun _ => rfl) value_foldProc (fun r hne => hne rfl) ?_ hr₂ hreal
  intro r hr r' hr' hreal hkey
  have happ := (hplain.sound (destRows_of hr)).app_plain
  have happ' := (hplain.sound (destRows_of hr')).app_plain
  exact hreal (joined_inj_right happ happ' hkey).1.symm

theorem proc_cap (kp kd : List Units) (r : Row) : (cap kp kd r).proc = if r.proc ∈ kp then r.proc else otherProcs := by
  rw [cap]
  by_cases hp : r.proc ∈ kp
  · simp only [if_pos hp]
    split <;> rfl
  · simp only [if_neg hp]
    split <;> rfl

theorem dest_cap (kp kd : List Units) (r : Row) : (cap kp kd r).dest = if r.dest ∈ kd then r.dest else otherDest r.appLabel := by
  have hdest : ∀ {r' : Row}, r'.dest = r.dest → r'.appLabel = r.appLabel →
      (if r'.dest ∈ kd then r' else r'.toOther).dest = if r.dest ∈ kd then r.dest else otherDest r.appLabel := by
    intro r' hd hl
    rw [← hd, ← hl]
    split <;> rfl
  apply hdest
  · split <;> rfl
  · split <;> rfl

theorem kept_capped (hr : r ∈ cappedRows flows opts) :
    (r.proc ≠ otherProcs → r.proc ∈ topKeys (sumBy Row.proc Row.value (flowRows flows opts)) opts.topProcs) ∧
      (units "d:" <+: r.dest → r.dest ∈ topKeys (sumBy Row.dest Row.value (flowRows flows opts)) opts.topDests) := by
  obtain ⟨r₀, -, rfl⟩ := List.mem_map.mp hr
  rw [proc_cap, dest_cap]
  constructor
  · intro hproc
    split at hproc
    · rename_i hp
      rwa [if_pos hp]
    · exact absurd rfl hproc
  · intro hdest
    split at hdest
    · rename_i hd
      rwa [if_pos hd]
    · exact absurd hdest (not_real_otherDest _)

theorem dest_foldDest {min : ℚ} {sums : Dict Units ℚ} (h : units "d:" <+: (foldDest min sums r).dest) :
    (foldDest min sums r).dest = r.dest := by
  rw [foldDest] at h ⊢
  split at h
  · exact absurd h (not_real_otherDest _)
  · rename_i hthick
    rw [if_neg hthick]

theorem proc_foldProc {min : ℚ} {sums : Dict Units ℚ} (h : (foldProc min sums r).proc ≠ otherProcs) :
    (foldProc min sums r).proc = r.proc := by
  rw [foldProc] at h ⊢
  split at h
  · exact absurd rfl h
  · rename_i hthick
    rw [if_neg hthick]

theorem kept_placed (hr : r ∈ placed flows opts) :
    (r.proc ≠ otherProcs → r.proc ∈ topKeys (sumBy Row.proc Row.value (flowRows flows opts)) opts.topProcs) ∧
      (units "d:" <+: r.dest → r.dest ∈ topKeys (sumBy Row.dest Row.value (flowRows flows opts)) opts.topDests) := by
  obtain ⟨r₂, hr₂, rfl⟩ := List.mem_map.mp hr
  obtain ⟨r₁, hr₁, rfl⟩ := List.mem_map.mp hr₂
  obtain ⟨hproc, hdest⟩ := kept_capped hr₁
  constructor
  · intro hreal
    have hp₁ : (foldDest (minLink flows opts) (linkSums Row.app Row.dest (cappedRows flows opts)) r₁).proc = r₁.proc := by
      rw [foldDest]
      split <;> rfl
    have hkept := (proc_foldProc hreal).trans hp₁
    rw [hkept] at hreal ⊢
    exact hproc hreal
  · intro hreal
    rw [(app_foldProc _).2] at hreal ⊢
    have hkept := dest_foldDest hreal
    rw [hkept] at hreal ⊢
    exact hdest hreal

end Sums

end NetWatch.Charts.Sankey
