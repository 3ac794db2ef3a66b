import NetWatch.GeoIp.Ip

namespace NetWatch.GeoIp.IpGrammar

open Lib.JsText Lib.JsValue Ip
open Lib.Texts (intercalate_append)

section Grammar

def Group (w : Units) (x : ℕ) : Prop := w.length ≤ 4 ∧ Digits 16 w x

def Octet (w : Units) (x : ℕ) : Prop := w.length ≤ 3 ∧ Digits 10 w x ∧ x ≤ 255

inductive Quad : Units → ℕ → Prop
  | mk {a b c d x y z w} : Octet a x → Octet b y → Octet c z → Octet d w →
      Quad (a ++ dot :: (b ++ dot :: (c ++ dot :: d))) (((x * 256 + y) * 256 + z) * 256 + w)

/-- Groups, of which the last two may be written as a dotted quad. -/
inductive Parts : List Units → List ℕ → Prop
  | groups {ps vs} : List.Forall₂ Group ps vs → Parts ps vs
  | quad {ps vs q n} : List.Forall₂ Group ps vs → Quad q n → Parts (ps ++ [q]) (vs ++ [n / 65536, n % 65536])

def value (vs : List ℕ) : ℕ := vs.foldl (fun n v => n * 65536 + v) 0

/-- The text of an IPv6 address and its number. -/
inductive V6 : Units → ℕ → Prop
  | full {ps vs} : Parts ps vs → vs.length = 8 → V6 ([colon].intercalate ps) (value vs)
  | compressed {hs us ps vs} : List.Forall₂ Group hs us → Parts ps vs → us.length + vs.length ≤ 7 →
      V6 ([colon].intercalate hs ++ ([colon, colon] ++ [colon].intercalate ps))
        (value (us ++ List.replicate (8 - (us.length + vs.length)) 0 ++ vs))

end Grammar

section Words

variable {w : Units} {x n : ℕ} {ws ts : List Units} {vs us : List ℕ}

theorem hexWord?_iff : hexWord? w = some x ↔ Group w x := by
  rw [hexWord?, Option.ite_none_right_eq_some, digits?_iff (by omega)]
  rfl

theorem quadPart?_iff : quadPart? w = some x ↔ w.length ≤ 3 ∧ Digits 10 w x := by
  rw [quadPart?, Option.ite_none_right_eq_some, digits?_iff (by omega)]

theorem Group.unique {y : ℕ} (hx : Group w x) (hy : Group w y) : x = y :=
  Option.some.inj ((hexWord?_iff.mpr hx).symm.trans (hexWord?_iff.mpr hy))

theorem colon_notMem {base : ℕ} (h : Digits base w n) : colon ∉ w := by
  intro hmem
  obtain ⟨d, hd, -, hu⟩ := h.mem hmem
  have hcolon : colon.toNat = 0x3A := rfl
  omega

theorem dot_notMem {base : ℕ} (h : Digits base w n) : dot ∉ w := by
  intro hmem
  obtain ⟨d, -, -, hu⟩ := h.mem hmem
  have hdot : dot.toNat = 0x2E := rfl
  omega

theorem group_of_mem (h : List.Forall₂ Group ws vs) (hw : w ∈ ws) : ∃ x, Group w x := by
  obtain ⟨i, hi, rfl⟩ := List.mem_iff_getElem.mp hw
  exact ⟨_, h.get hi (h.length_eq ▸ hi)⟩

theorem colon_notMem_groups (h : List.Forall₂ Group ws vs) : ∀ w ∈ ws, colon ∉ w := by
  intro w hw
  obtain ⟨x, -, hx⟩ := group_of_mem h hw
  exact colon_notMem hx

theorem nil_notMem_groups (h : List.Forall₂ Group ws vs) : [] ∉ ws := by
  intro hw
  obtain ⟨x, -, hx⟩ := group_of_mem h hw
  exact hx.ne_nil rfl

theorem words_groups (h : List.Forall₂ Group ws vs) : words ([colon].intercalate ws) = ws := by
  cases ws with
  | nil => rfl
  | cons w ws =>
      have hsplit := List.splitOn_intercalate colon (colon_notMem_groups h) (List.cons_ne_nil w ws)
      rw [words, hsplit]
      split
      · rename_i hnil
        rw [hnil, List.splitOn_nil] at hsplit
        rw [← hsplit] at h
        exact absurd List.mem_cons_self (nil_notMem_groups h)
      · rfl

theorem intercalate_words (h : Units) : [colon].intercalate (words h) = h := by
  rw [words]
  split
  · rename_i hnil
    rw [hnil]
    rfl
  · exact List.intercalate_splitOn colon

theorem joinWords_from (h : List.Forall₂ Group ws vs) (n : ℕ) :
    ws.foldlM (fun n w => (hexWord? w).map fun x => (n <<< 16) ||| x) n = some (vs.foldl (fun n v => n * 65536 + v) n) := by
  induction h generalizing n with
  | nil => rfl
  | @cons w x ws vs hx _ ih =>
      have hlt := hexWord?_lt (hexWord?_iff.mpr hx)
      rw [List.foldlM_cons, hexWord?_iff.mpr hx, Option.map_some, ← Nat.shiftLeft_add_eq_or_of_lt hlt, Nat.shiftLeft_eq]
      exact ih _

theorem joinWords_iff : joinWords ws = some n ↔ ∃ vs, List.Forall₂ Group ws vs ∧ n = value vs := by
  constructor
  · intro h
    have hgroups : ∀ ws : List Units, ∀ m, ws.foldlM (fun n w => (hexWord? w).map fun x => (n <<< 16) ||| x) m = some n →
        ∃ vs, List.Forall₂ Group ws vs := by
      intro ws
      induction ws with
      | nil => exact fun _ _ => ⟨[], .nil⟩
      | cons w ws ih =>
          intro m hm
          rw [List.foldlM_cons] at hm
          obtain ⟨m', hm', hrest⟩ := Option.bind_eq_some_iff.mp hm
          obtain ⟨x, hx, -⟩ := Option.map_eq_some_iff.mp hm'
          obtain ⟨vs, hvs⟩ := ih m' hrest
          exact ⟨x :: vs, .cons (hexWord?_iff.mp hx) hvs⟩
    obtain ⟨vs, hvs⟩ := hgroups ws 0 h
    exact ⟨vs, hvs, Option.some.inj (h.symm.trans (joinWords_from hvs 0))⟩
  · rintro ⟨vs, hvs, rfl⟩
    exact joinWords_from hvs 0

end Words

section Plain

/-- The text of an address without a dotted quad. -/
inductive Plain : Units → ℕ → Prop
  | full {ws vs} : List.Forall₂ Group ws vs → vs.length = 8 → Plain ([colon].intercalate ws) (value vs)
  | compressed {hs us ts vs} : List.Forall₂ Group hs us → List.Forall₂ Group ts vs → us.length + vs.length ≤ 7 →
      Plain ([colon].intercalate hs ++ ([colon, colon] ++ [colon].intercalate ts))
        (value (us ++ List.replicate (8 - (us.length + vs.length)) 0 ++ vs))

variable {s h t : Units} {n : ℕ} {ws hs ts : List Units} {vs us : List ℕ}

theorem nil_notMem_splitOn (hg : List.Forall₂ Group ws vs) : ws = [] ∨ [] ∉ ([colon].intercalate ws).splitOn colon := by
  cases ws with
  | nil => exact .inl rfl
  | cons w ws =>
      rw [List.splitOn_intercalate colon (colon_notMem_groups hg) (List.cons_ne_nil w ws)]
      exact .inr (nil_notMem_groups hg)

theorem no_double (hg : List.Forall₂ Group ws vs) : ¬ [colon, colon] <:+: [colon].intercalate ws := by
  rintro ⟨a, b, hab⟩
  obtain rfl | hnil := nil_notMem_splitOn hg
  · have hlen := congrArg List.length hab
    rw [List.length_append, List.length_append] at hlen
    exact absurd hlen (by rw [List.intercalate_nil]; simp)
  · apply hnil
    rw [← hab, List.append_assoc, List.cons_append, List.splitOn_append_cons_self, List.cons_append, List.nil_append,
      ← List.nil_append (colon :: b), List.splitOn_append_cons_self, List.splitOn_nil]
    exact List.mem_append_right _ (List.mem_append_left _ List.mem_cons_self)

theorem no_last_colon (hg : List.Forall₂ Group ws vs) (a : Units) : [colon].intercalate ws ≠ a ++ [colon] := by
  intro ha
  obtain rfl | hnil := nil_notMem_splitOn hg
  · exact List.append_ne_nil_of_right_ne_nil a (List.cons_ne_nil _ _) ha.symm
  · apply hnil
    rw [ha, List.splitOn_append_cons_self, List.splitOn_nil]
    exact List.mem_append_right _ List.mem_cons_self

theorem split_groups (hg : List.Forall₂ Group ws vs) : split [colon, colon] ([colon].intercalate ws) = [[colon].intercalate ws] :=
  split_of_not_infix (no_double hg)

theorem split_compressed (hh : List.Forall₂ Group hs us) (ht : List.Forall₂ Group ts vs) :
    split [colon, colon] ([colon].intercalate hs ++ ([colon, colon] ++ [colon].intercalate ts)) =
      [[colon].intercalate hs, [colon].intercalate ts] := by
  have hidx : indexOf? [colon, colon] ([colon].intercalate hs ++ ([colon, colon] ++ [colon].intercalate ts)) =
      some ([colon].intercalate hs).length := by
    apply indexOf?_append
    intro k hk hpre
    have hsplit := List.take_append_drop k ([colon].intercalate hs)
    obtain ⟨c, rest, hrest⟩ := List.exists_cons_of_ne_nil (List.drop_eq_nil_iff.not.mpr (Nat.not_le.mpr hk))
    rw [hrest] at hpre hsplit
    obtain ⟨rfl, hmore⟩ := List.cons_prefix_cons.mp hpre
    cases rest with
    | nil => exact no_last_colon hh _ hsplit.symm
    | cons d rest =>
        obtain ⟨rfl, -⟩ := List.cons_prefix_cons.mp hmore
        apply no_double hh
        refine ⟨([colon].intercalate hs).take k, rest, ?_⟩
        rw [List.append_assoc]
        exact hsplit
  rw [split_first (List.cons_ne_nil _ _) hidx, List.take_left]
  have hdrop : ([colon].intercalate hs ++ ([colon, colon] ++ [colon].intercalate ts)).drop
      (([colon].intercalate hs).length + [colon, colon].length) = [colon].intercalate ts := by
    rw [← List.append_assoc]
    exact List.drop_left' (List.length_append)
  rw [hdrop, split_groups ht]

theorem group_zero : Group (units "0") 0 := hexWord?_iff.mp (by decide)

theorem groups_zeros (k : ℕ) : List.Forall₂ Group (List.replicate k (units "0")) (List.replicate k 0) := by
  induction k with
  | zero => exact .nil
  | succ k ih =>
      rw [List.replicate_succ, List.replicate_succ]
      exact .cons group_zero ih

theorem forall₂_append {ps qs : List Units} {vs : List ℕ} (hg : List.Forall₂ Group (ps ++ qs) vs) :
    ∃ us ws, vs = us ++ ws ∧ List.Forall₂ Group ps us ∧ List.Forall₂ Group qs ws := by
  induction ps generalizing vs with
  | nil => exact ⟨[], vs, rfl, .nil, hg⟩
  | cons p ps ih =>
      cases hg with
      | cons hp hrest =>
          obtain ⟨us, ws, rfl, hus, hws⟩ := ih hrest
          exact ⟨_ :: us, ws, rfl, .cons hp hus, hws⟩

theorem zeros_unique {k : ℕ} {zs : List ℕ} (hg : List.Forall₂ Group (List.replicate k (units "0")) zs) : zs = List.replicate k 0 := by
  induction k generalizing zs with
  | zero =>
      cases hg
      rfl
  | succ k ih =>
      cases hg with
      | cons hz hrest => rw [ih hrest, hz.unique group_zero, List.replicate_succ]

theorem parseWords_iff : parseWords s = some n ↔ Plain s n := by
  rw [parseWords_eq_some]
  constructor
  · rintro (⟨h, hsplit, hlen, hjoin⟩ | ⟨h, t, hsplit, hlen, hjoin⟩)
    · have hs : h = s := by
        have h := intercalate_split [colon, colon] s
        rwa [hsplit, List.intercalate_singleton] at h
      obtain ⟨vs, hvs, rfl⟩ := joinWords_iff.mp hjoin
      have hplain := Plain.full hvs (hvs.length_eq.symm.trans hlen)
      rwa [intercalate_words, hs] at hplain
    · have hs : h ++ ([colon, colon] ++ t) = s := by
        have h := intercalate_split [colon, colon] s
        rwa [hsplit, List.intercalate_cons_cons, List.intercalate_singleton, List.append_assoc] at h
      obtain ⟨all, hall, rfl⟩ := joinWords_iff.mp hjoin
      obtain ⟨front, vs, rfl, hfront, hvs⟩ := forall₂_append hall
      obtain ⟨us, zs, rfl, hus, hzs⟩ := forall₂_append hfront
      obtain rfl := zeros_unique hzs
      rw [hus.length_eq, hvs.length_eq] at hlen ⊢
      have hplain := Plain.compressed hus hvs hlen
      rwa [intercalate_words, intercalate_words, hs] at hplain
  · intro hplain
    cases hplain with
    | @full ws vs hvs hlen =>
        refine .inl ⟨_, split_groups hvs, ?_, ?_⟩
        · rw [words_groups hvs, hvs.length_eq, hlen]
        · rw [words_groups hvs]
          exact joinWords_iff.mpr ⟨vs, hvs, rfl⟩
    | @compressed hs us ts vs hus hvs hlen =>
        refine .inr ⟨_, _, split_compressed hus hvs, ?_, ?_⟩
        · rw [words_groups hus, words_groups hvs, hus.length_eq, hvs.length_eq]
          exact hlen
        · rw [words_groups hus, words_groups hvs, hus.length_eq, hvs.length_eq]
          exact joinWords_iff.mpr ⟨_, List.rel_append (List.rel_append hus (groups_zeros _)) hvs, rfl⟩

end Plain

section Dotted

variable {s q pre h l : Units} {n v : ℕ} {ws gs : List Units} {vs us : List ℕ}

theorem parseV4_iff : parseV4 s = some n ↔ Quad s n := by
  rw [parseV4_eq_some]
  constructor
  · rintro ⟨a, b, c, d, x, y, z, w, hparts, ⟨ha, hb, hc, hd⟩, ⟨hx, hy, hz, hw⟩, rfl⟩
    have hs : [dot].intercalate (s.splitOn dot) = s := List.intercalate_splitOn dot
    rw [hparts] at hs
    simp only [List.intercalate_cons_cons, List.intercalate_singleton, List.append_assoc, List.singleton_append] at hs
    rw [← hs]
    rw [quadPart?_iff] at ha hb hc hd
    exact .mk ⟨ha.1, ha.2, hx⟩ ⟨hb.1, hb.2, hy⟩ ⟨hc.1, hc.2, hz⟩ ⟨hd.1, hd.2, hw⟩
  · rintro ⟨ha, hb, hc, hd⟩
    refine ⟨_, _, _, _, _, _, _, _, ?_, ⟨quadPart?_iff.mpr ⟨ha.1, ha.2.1⟩, quadPart?_iff.mpr ⟨hb.1, hb.2.1⟩,
      quadPart?_iff.mpr ⟨hc.1, hc.2.1⟩, quadPart?_iff.mpr ⟨hd.1, hd.2.1⟩⟩, ⟨ha.2.2, hb.2.2, hc.2.2, hd.2.2⟩, rfl⟩
    rw [List.splitOn_append_cons_self_of_not_mem (dot_notMem ha.2.1), List.splitOn_append_cons_self_of_not_mem (dot_notMem hb.2.1),
      List.splitOn_append_cons_self_of_not_mem (dot_notMem hc.2.1), List.splitOn_eq_singleton (dot_notMem hd.2.1)]

theorem Quad.dot_mem (hq : Quad q v) : dot ∈ q := by
  cases hq with
  | mk _ _ _ _ => exact List.mem_append_right _ List.mem_cons_self

theorem Quad.colon_notMem (hq : Quad q v) : colon ∉ q := by
  have hdot : colon ≠ dot := by decide
  cases hq with
  | mk ha hb hc hd =>
      simp only [List.mem_append, List.mem_cons, not_or]
      exact ⟨IpGrammar.colon_notMem ha.2.1, hdot, IpGrammar.colon_notMem hb.2.1, hdot, IpGrammar.colon_notMem hc.2.1, hdot,
        IpGrammar.colon_notMem hd.2.1⟩

theorem group_hexText {x : ℕ} (hx : x < 65536) : Group (hexText x) x :=
  ⟨length_digitUnits (by omega) (by omega) hx, digits_digitUnits (by omega) (by omega) x⟩

theorem intercalate_pair (w w' : Units) : [colon].intercalate [w, w'] = w ++ colon :: w' := by
  rw [List.intercalate_cons_cons, List.intercalate_singleton, List.append_assoc]
  rfl

theorem dot_notMem_groups (hg : List.Forall₂ Group ws vs) : dot ∉ [colon].intercalate ws := by
  have hdot : dot ≠ colon := by decide
  intro hmem
  obtain heq | ⟨w, hw, hin⟩ := Lib.Texts.mem_intercalate hmem
  · exact hdot heq
  · obtain ⟨x, -, hx⟩ := group_of_mem hg hw
    exact dot_notMem hx hin

theorem Plain.dot_notMem (hs : Plain s n) : dot ∉ s := by
  have hdot : dot ≠ colon := by decide
  cases hs with
  | full hg _ => exact dot_notMem_groups hg
  | compressed hh ht _ =>
      simp only [List.mem_append, List.mem_cons, List.not_mem_nil, not_or]
      exact ⟨dot_notMem_groups hh, ⟨hdot, hdot, not_false⟩, dot_notMem_groups ht⟩

/-- The words of a text with `::`, of which the last ones are set apart. -/
theorem compressed_text (hs gs : List Units) {ts : List Units} (hts : ts ≠ []) :
    [colon].intercalate hs ++ ([colon, colon] ++ [colon].intercalate (gs ++ ts)) =
      [colon].intercalate (([colon].intercalate hs).splitOn colon ++ [] :: gs) ++ colon :: [colon].intercalate ts := by
  have hne : gs ++ ts ≠ [] := List.append_ne_nil_of_right_ne_nil gs hts
  have hcons : ([] : Units) :: gs ++ ts = [] :: (gs ++ ts) := List.cons_append
  have hhead : [colon].intercalate (([colon].intercalate hs).splitOn colon) = [colon].intercalate hs :=
    List.intercalate_splitOn colon
  rw [← intercalate_append (List.append_ne_nil_of_right_ne_nil _ (List.cons_ne_nil [] gs)) hts, List.append_assoc, hcons,
    intercalate_append (List.splitOn_ne_nil _ _) (List.cons_ne_nil [] (gs ++ ts)), hhead, List.intercalate_cons_of_ne_nil hne]
  rfl

theorem v6_cases (hs : V6 s n) : Plain s n ∨ ∃ pre q v, s = pre ++ colon :: q ∧ Quad q v ∧
    ∀ h l, Group h (v / 65536) → Group l (v % 65536) → Plain (pre ++ colon :: (h ++ colon :: l)) n := by
  cases hs with
  | full hparts hlen =>
      cases hparts with
      | groups hg => exact .inl (.full hg hlen)
      | @quad gs us q v hg hq =>
          have hne : gs ≠ [] := by
            rintro rfl
            cases hg
            cases hlen
          refine .inr ⟨_, q, v, by rw [intercalate_append hne (List.cons_ne_nil q []), List.intercalate_singleton], hq, fun h l hh hl => ?_⟩
          rw [← intercalate_pair h l, ← intercalate_append hne (List.cons_ne_nil h [l])]
          exact .full (List.rel_append hg (.cons hh (.cons hl .nil))) hlen
  | @compressed hs us ps vs hus hparts hlen =>
      cases hparts with
      | groups hg => exact .inl (.compressed hus hg hlen)
      | @quad gs us' q v hg hq =>
          refine .inr ⟨[colon].intercalate (([colon].intercalate hs).splitOn colon ++ [] :: gs), q, v, ?_, hq, fun h l hh hl => ?_⟩
          · rw [compressed_text hs gs (List.cons_ne_nil q []), List.intercalate_singleton]
          · have hplain := Plain.compressed hus (List.rel_append hg (.cons hh (.cons hl .nil))) hlen
            rw [← intercalate_pair h l, ← compressed_text hs gs (List.cons_ne_nil h [l])]
            exact hplain

theorem splitOn_pair {a b : Units} (ha : colon ∉ a) (hb : colon ∉ b) :
    (pre ++ colon :: (a ++ colon :: b)).splitOn colon = pre.splitOn colon ++ [a, b] := by
  rw [List.splitOn_append_cons_self, List.splitOn_append_cons_self_of_not_mem ha, List.splitOn_eq_singleton hb]

theorem last_two (hh : Group h (v / 65536)) (hl : Group l (v % 65536)) (hg : List.Forall₂ Group (gs ++ [h, l]) vs) :
    ∃ us, vs = us ++ [v / 65536, v % 65536] ∧ List.Forall₂ Group gs us := by
  obtain ⟨us, ws, rfl, hus, hws⟩ := forall₂_append hg
  cases hws with
  | cons hx hrest =>
      cases hrest with
      | cons hy hnil =>
          cases hnil
          rw [hx.unique hh, hy.unique hl]
          exact ⟨us, rfl, hus⟩

/-- Two groups at the end of a text may be written as a dotted quad. -/
theorem v6_of_plain (hq : Quad q v) (hh : Group h (v / 65536)) (hl : Group l (v % 65536))
    (hplain : Plain (pre ++ colon :: (h ++ colon :: l)) n) : V6 (pre ++ colon :: q) n := by
  have hsplit := @splitOn_pair pre h l (colon_notMem hh.2) (colon_notMem hl.2)
  have hpre : [colon].intercalate (pre.splitOn colon) = pre := List.intercalate_splitOn colon
  generalize htext : pre ++ colon :: (h ++ colon :: l) = s at hplain hsplit
  cases hplain with
  | @full ws vs hg hlen =>
      have hne : ws ≠ [] := by
        rintro rfl
        exact List.append_ne_nil_of_right_ne_nil _ (List.cons_ne_nil _ _) htext
      rw [List.splitOn_intercalate colon (colon_notMem_groups hg) hne] at hsplit
      subst hsplit
      obtain ⟨us, rfl, hus⟩ := last_two hh hl hg
      have hv6 := V6.full (.quad hus hq) hlen
      rwa [intercalate_append (List.splitOn_ne_nil _ _) (List.cons_ne_nil q []), List.intercalate_singleton, hpre] at hv6
  | @compressed hs us gs vs hus hg hlen =>
      -- the last two words of the text are the last two groups behind the `::`
      have hwords : ([colon].intercalate hs).splitOn colon ++ [] :: ([colon].intercalate gs).splitOn colon =
          pre.splitOn colon ++ [h, l] := by
        rw [← hsplit, List.cons_append, List.splitOn_append_cons_self, List.cons_append, List.nil_append,
          ← List.nil_append (colon :: [colon].intercalate gs), List.splitOn_append_cons_self, List.splitOn_nil]
        rfl
      obtain rfl | ⟨gs, y, rfl⟩ := gs.eq_nil_or_concat'
      · rw [List.intercalate_nil, List.splitOn_nil] at hwords
        cases (List.append_inj' hwords rfl).2
        exact absurd rfl hl.2.ne_nil
      rw [List.splitOn_intercalate colon (colon_notMem_groups hg) (List.append_ne_nil_of_right_ne_nil gs (List.cons_ne_nil y []))]
        at hwords
      obtain rfl | ⟨gs, x, rfl⟩ := gs.eq_nil_or_concat'
      · cases (List.append_inj' hwords rfl).2
        exact absurd rfl hh.2.ne_nil
      rw [List.append_assoc, ← List.cons_append, ← List.append_assoc] at hwords
      obtain ⟨hfront, hback⟩ := List.append_inj' hwords rfl
      cases hback
      rw [List.append_assoc] at hg
      obtain ⟨ws, rfl, hws⟩ := last_two hh hl hg
      have hv6 := V6.compressed hus (.quad hws hq) hlen
      rwa [compressed_text hs gs (List.cons_ne_nil q []), hfront, hpre, List.intercalate_singleton] at hv6

end Dotted

section Address

variable {s a b : Units} {n : ℕ}

theorem last_colon_unique {a' b' : Units} (hb : colon ∉ b) (hb' : colon ∉ b') (h : a ++ colon :: b = a' ++ colon :: b') :
    a = a' ∧ b = b' := by
  have hidx := lastIndexOf?_append (a := a) hb
  rw [h, lastIndexOf?_append hb'] at hidx
  obtain ⟨ha, hrest⟩ := List.append_inj h (Option.some.inj hidx).symm
  exact ⟨ha, (List.cons.inj hrest).2⟩

theorem V6.colon_mem (h : V6 s n) : colon ∈ s := by
  cases h with
  | @full ps vs hparts hlen =>
      have htwo : 2 ≤ ps.length := by
        cases hparts with
        | groups hg =>
            rw [hg.length_eq, hlen]
            omega
        | quad hg _ =>
            rw [List.length_append] at hlen ⊢
            rw [hg.length_eq]
            simp only [List.length_cons, List.length_nil] at hlen ⊢
            omega
      match ps, htwo with
      | p :: p' :: ps, _ =>
          rw [List.intercalate_cons_cons]
          exact List.mem_append_left _ (List.mem_append_right _ List.mem_cons_self)
  | compressed _ _ _ => exact List.mem_append_right _ List.mem_cons_self

theorem Plain.v6 (h : Plain s n) : V6 s n := by
  cases h with
  | full hg hlen => exact .full (.groups hg) hlen
  | compressed hh ht hlen => exact .compressed hh (.groups ht) hlen

theorem parseV6_last (hb : colon ∉ b) : parseV6 (a ++ colon :: b) =
    if dot ∈ b then
      match parseV4 b with
      | none => none
      | some v4 => parseWords (a ++ colon :: (hexText (v4 >>> 16) ++ colon :: hexText (v4 &&& 0xffff)))
    else parseWords (a ++ colon :: b) := by
  have hdot : dot ∈ colon :: b ↔ dot ∈ b := by
    rw [List.mem_cons]
    exact or_iff_right (by decide)
  have hdrop : (a ++ colon :: b).drop (a.length + 1) = b := by
    rw [List.append_cons]
    exact List.drop_left' (by rw [List.length_append, List.length_singleton])
  have htake : (a ++ colon :: b).take (a.length + 1) = a ++ [colon] := by
    rw [List.append_cons]
    exact List.take_left' (by rw [List.length_append, List.length_singleton])
  rw [parseV6, lastIndexOf?_append hb]
  simp only [List.drop_left, hdrop, htake, List.append_assoc, List.singleton_append]
  exact if_congr hdot rfl rfl

theorem parseV6_iff : parseV6 s = some n ↔ V6 s n := by
  by_cases hcolon : colon ∈ s
  · obtain ⟨a, b, rfl, hb⟩ := exists_last hcolon
    rw [parseV6_last hb]
    by_cases hdot : dot ∈ b
    · rw [if_pos hdot]
      constructor
      · intro h
        split at h
        · cases h
        · rename_i v hv
          have hlt := parseV4_lt hv
          rw [Nat.shiftRight_eq_div_pow, Nat.and_two_pow_sub_one_eq_mod v 16] at h
          exact v6_of_plain (parseV4_iff.mp hv) (group_hexText (by omega)) (group_hexText (by omega)) (parseWords_iff.mp h)
      · intro h
        obtain hplain | ⟨pre, q, v, heq, hq, hwords⟩ := v6_cases h
        · exact absurd (List.mem_append_right a (List.mem_cons_of_mem colon hdot)) hplain.dot_notMem
        · obtain ⟨rfl, rfl⟩ := last_colon_unique hb hq.colon_notMem heq
          have hv := parseV4_iff.mpr hq
          have hlt := parseV4_lt hv
          have hplain := hwords _ _ (@group_hexText (v / 65536) (by omega)) (@group_hexText (v % 65536) (by omega))
          rw [hv]
          change parseWords (a ++ colon :: (hexText (v >>> 16) ++ colon :: hexText (v &&& 0xffff))) = some n
          rw [Nat.shiftRight_eq_div_pow, Nat.and_two_pow_sub_one_eq_mod v 16]
          exact parseWords_iff.mpr hplain
    · rw [if_neg hdot, parseWords_iff]
      constructor
      · exact Plain.v6
      · intro h
        obtain hplain | ⟨pre, q, v, heq, hq, -⟩ := v6_cases h
        · exact hplain
        · obtain ⟨rfl, rfl⟩ := last_colon_unique hb hq.colon_notMem heq
          exact absurd hq.dot_mem hdot
  · rw [parseV6, lastIndexOf?_none hcolon]
    exact ⟨fun h => (by cases h), fun h => absurd h.colon_mem hcolon⟩

end Address

end NetWatch.GeoIp.IpGrammar
