import Mathlib.Data.UInt
import NetWatch.GeoIp.Ip
import NetWatch.Lib.Assoc
import NetWatch.Lib.BinarySearch

namespace NetWatch.GeoIp.Asn

open Lib.Assoc Lib.BinarySearch Lib.JsText Lib.JsValue Ip

structure Geo where
  asn : ℤ
  org : Units
  cc : Units
  deriving DecidableEq

/-- The part of a description behind the first `" - "`, or all of it. -/
def orgName (desc : Units) : Units :=
  let d := trim desc
  match indexOf? (units " - ") d with
  | some i => if 0 < i ∧ i + 3 < d.length then trim (d.drop (i + 3)) else d
  | none => d

def isCapital (u : UInt16) : Bool := 0x41 ≤ u && u ≤ 0x5A

def countryCode (raw : Units) : Units := if raw.length = 2 ∧ raw.all isCapital then raw else []

/-- The ranges by their starts, in columns. An index into `infos` fits its column, and the
sum of two indices fits 32 bits, since a text has fewer than 2^30 units. -/
structure AsnTable where
  v4Start : List UInt32
  v4End : List UInt32
  v4Info : List ℕ
  v6StartHi : List UInt64
  v6StartLo : List UInt64
  v6EndHi : List UInt64
  v6EndLo : List UInt64
  v6Info : List ℕ
  infos : List Geo

abbrev Entry := ℕ × ℕ × ℕ

def sortEntries (es : List Entry) : List Entry := es.mergeSort fun a b => a.1 ≤ b.1

def m64 : ℕ := 2 ^ 64 - 1

def AsnTable.build (v4 v6 : List Entry) (infos : List Geo) : AsnTable :=
  let v4 := sortEntries v4
  let v6 := sortEntries v6
  { v4Start := v4.map fun r => UInt32.ofNat r.1
    v4End := v4.map fun r => UInt32.ofNat r.2.1
    v4Info := v4.map fun r => r.2.2
    v6StartHi := v6.map fun r => UInt64.ofNat (r.1 >>> 64)
    v6StartLo := v6.map fun r => UInt64.ofNat (r.1 &&& m64)
    v6EndHi := v6.map fun r => UInt64.ofNat (r.2.1 >>> 64)
    v6EndLo := v6.map fun r => UInt64.ofNat (r.2.1 &&& m64)
    v6Info := v6.map fun r => r.2.2
    infos := infos }

def AsnTable.size (t : AsnTable) : ℕ := t.v4Start.length + t.v6Info.length

def at32 (l : List UInt32) (i : ℕ) : ℕ := (l[i]?.getD 0).toNat

def at64 (l : List UInt64) (i : ℕ) : ℕ := (l[i]?.getD 0).toNat

def AsnTable.info (t : AsnTable) (l : List ℕ) (i : ℕ) : Option Geo := l[i]?.bind (t.infos[·]?)

def AsnTable.lookupParsed (t : AsnTable) : ParsedIp → Option Geo
  | .v4 n =>
      let last := searchLast (fun mid => at32 t.v4Start mid ≤ n) 0 ((t.v4Start.length : ℤ) - 1) (-1)
      if 0 ≤ last ∧ n ≤ at32 t.v4End last.toNat then t.info t.v4Info last.toNat else none
  | .v6 n =>
      let h := n >>> 64
      let l := n &&& m64
      let last := searchLast
        (fun mid => at64 t.v6StartHi mid < h ∨ (at64 t.v6StartHi mid = h ∧ at64 t.v6StartLo mid ≤ l)) 0 ((t.v6Info.length : ℤ) - 1) (-1)
      if last < 0 then none
      else if h < at64 t.v6EndHi last.toNat ∨ (h = at64 t.v6EndHi last.toNat ∧ l ≤ at64 t.v6EndLo last.toNat) then
        t.info t.v6Info last.toNat
      else none

def AsnTable.lookup (t : AsnTable) (ip : Units) : Option Geo :=
  match parseIp ip with
  | some p => t.lookupParsed p
  | none => none

def newline : UInt16 := 0xA

def tab : UInt16 := 9

def rows (text : Units) : List Units :=
  if text = [] then []
  else text.takeWhile (· ≠ newline) :: rows ((text.dropWhile (· ≠ newline)).drop 1)
termination_by text.length
decreasing_by
  have hlen := (List.dropWhile_sublist (p := (· ≠ newline)) (l := text)).length_le
  have hpos := List.length_pos_of_ne_nil (by assumption)
  rw [List.length_drop]
  omega

def stripCr (row : Units) : Units := if row.getLast? = some 0xD then row.dropLast else row

structure Loading where
  v4 : List Entry
  v6 : List Entry
  infos : List Geo
  infoIdx : Dict Units ℕ
  skipped : ℕ

/-- The text by which the infos are told apart. (A number from 10^21 on is written with an
exponent, which tells it apart as its digits do.) -/
def infoKey (g : Geo) : Units :=
  digitUnits 10 g.asn.toNat ++ 0 :: (g.cc ++ 0 :: g.org)

def Loading.intern (s : Loading) (g : Geo) : Loading × ℕ :=
  match s.infoIdx.get? (infoKey g) with
  | some idx => (s, idx)
  | none =>
      ({ s with infos := s.infos ++ [g], infoIdx := s.infoIdx.insert (infoKey g) s.infos.length }, s.infos.length)

def Loading.skip (s : Loading) : Loading := { s with skipped := s.skipped + 1 }

def Loading.addRange (s : Loading) (first last : Units) (idx : ℕ) : Loading :=
  match parseV4 first with
  | some a4 =>
      match parseV4 last with
      | some b4 => if b4 < a4 then s.skip else { s with v4 := s.v4 ++ [(a4, b4, idx)] }
      | none => s.skip
  | none =>
      match parseV6 first, parseV6 last with
      | some a6, some b6 => if b6 < a6 then s.skip else { s with v6 := s.v6 ++ [(a6, b6, idx)] }
      | _, _ => s.skip

def Loading.readRow (s : Loading) (row : Units) : Loading :=
  if row = [] ∨ row.head? = some 0x23 then s
  else
    match row.splitOn tab with
    | first :: last :: num :: cc :: desc :: more =>
        match (toNumber num).bind integer? with
        | none => s
        | some asn =>
            if asn ≤ 0 then s
            else
              let (s, idx) := s.intern ⟨asn, orgName ([tab].intercalate (desc :: more)), countryCode cc⟩
              s.addRange first last idx
    | _ => s.skip

def Loading.start : Loading := ⟨[], [], [], .empty, 0⟩

def parseTable (text : Units) : AsnTable × ℕ :=
  let s := ((rows text).map stripCr).foldl Loading.readRow .start
  (.build s.v4 s.v6 s.infos, s.skipped)

section Meaning

structure Range where
  six : Bool
  first : ℕ
  last : ℕ
  geo : Geo
  deriving DecidableEq

def Range.Contains (r : Range) : ParsedIp → Prop
  | .v4 n => r.six = false ∧ r.first ≤ n ∧ n ≤ r.last
  | .v6 n => r.six = true ∧ r.first ≤ n ∧ n ≤ r.last

def Range.Disjoint (r s : Range) : Prop := r.six = s.six → r.last < s.first ∨ s.last < r.first

def boundsOf (first last : Units) : Option (Bool × ℕ × ℕ) :=
  match parseV4 first with
  | some a => (parseV4 last).bind fun b => if a ≤ b then some (false, a, b) else none
  | none => (parseV6 first).bind fun a => (parseV6 last).bind fun b => if a ≤ b then some (true, a, b) else none

def rangeOf (row : Units) : Option Range :=
  if row.head? = some 0x23 then none
  else
    match row.splitOn tab with
    | first :: last :: num :: cc :: desc :: more => do
        let asn ← (toNumber num).bind integer?
        let (six, a, b) ← boundsOf first last
        if 0 < asn then some ⟨six, a, b, asn, orgName ([tab].intercalate (desc :: more)), countryCode cc⟩ else none
    | _ => none

def ranges (text : Units) : List Range := (text.splitOn newline).filterMap fun row => rangeOf (stripCr row)

end Meaning

section Reading

variable {s : Loading} {g g' : Geo} {rs : List Range}

def resolve (infos : List Geo) (e : Entry) : ℕ × ℕ × Option Geo := (e.1, e.2.1, infos[e.2.2]?)

def Range.entry (r : Range) : ℕ × ℕ × Option Geo := (r.first, r.last, some r.geo)

def family (rs : List Range) (six : Bool) : List Range := rs.filter fun r => r.six = six

theorem family_append (rs rs' : List Range) (six : Bool) : family (rs ++ rs') six = family rs six ++ family rs' six :=
  List.filter_append _ _

theorem length_family (rs : List Range) : (family rs false).length + (family rs true).length = rs.length := by
  induction rs with
  | nil => rfl
  | cons r rs ih =>
      rw [← List.singleton_append, family_append, family_append, List.length_append, List.length_append, List.length_append,
        ← ih]
      cases hsix : r.six with
      | false =>
          have hf : family [r] false = [r] := List.filter_cons_of_pos (decide_eq_true hsix)
          have ht : family [r] true = [] := List.filter_cons_of_neg (by rw [hsix]; decide)
          rw [hf, ht, List.length_singleton, List.length_nil]
          omega
      | true =>
          have hf : family [r] false = [] := List.filter_cons_of_neg (by rw [hsix]; decide)
          have ht : family [r] true = [r] := List.filter_cons_of_pos (decide_eq_true hsix)
          rw [hf, ht, List.length_singleton, List.length_nil]
          omega

def Keyed (g : Geo) : Prop := 0 ≤ g.asn ∧ 0 ∉ g.cc

structure Reads (s : Loading) (rs : List Range) : Prop where
  v4 : s.v4.map (resolve s.infos) = (family rs false).map Range.entry
  v6 : s.v6.map (resolve s.infos) = (family rs true).map Range.entry
  idx : ∀ k i, s.infoIdx.get? k = some i → ∃ g, s.infos[i]? = some g ∧ Keyed g ∧ k = infoKey g

theorem countryCode_keyed (raw : Units) : 0 ∉ countryCode raw := by
  rw [countryCode]
  split
  · rename_i h
    intro hz
    exact absurd (List.all_eq_true.mp h.2 0 hz) (by decide)
  · exact List.not_mem_nil

theorem zero_notMem_digitUnits (n : ℕ) : 0 ∉ digitUnits 10 n := by
  intro h
  obtain ⟨d, -, -, hd⟩ := (digits_digitUnits (by omega) (by omega) n).mem h
  have hz : (0 : UInt16).toNat = 0 := rfl
  omega

theorem infoKey_injective (hg : Keyed g) (hg' : Keyed g') (h : infoKey g = infoKey g') : g = g' := by
  obtain ⟨hnum, hrest⟩ := Lib.Texts.append_sep_inj (zero_notMem_digitUnits _) (zero_notMem_digitUnits _) h
  obtain ⟨hcc, horg⟩ := Lib.Texts.append_sep_inj hg.2 hg'.2 hrest
  have hasn := digitUnits_injective (by omega) (by omega) hnum
  have hpos := hg.1
  have hpos' := hg'.1
  cases g with
  | mk asn org cc =>
      cases g' with
      | mk asn' org' cc' =>
          obtain rfl : asn = asn' := by
            dsimp only at hasn hpos hpos'
            omega
          cases hcc
          cases horg
          rfl

theorem resolve_append {infos more : List Geo} {e : Entry} {r : Range} (h : resolve infos e = r.entry) :
    resolve (infos ++ more) e = r.entry := by
  have hinfo : infos[e.2.2]? = some r.geo := congrArg (fun t => t.2.2) h
  have hlt := (List.getElem?_eq_some_iff.mp hinfo).1
  rw [← h, resolve, resolve, List.getElem?_append_left hlt]

/-- New infos are put behind the others, so that the entries keep theirs. -/
theorem map_resolve_append {infos more : List Geo} {es : List Entry} (h : es.map (resolve infos) = rs.map Range.entry) :
    es.map (resolve (infos ++ more)) = rs.map Range.entry := by
  induction es generalizing rs with
  | nil => exact h
  | cons e es ih =>
      cases rs with
      | nil => cases h
      | cons r rs =>
          rw [List.map_cons, List.map_cons, List.cons.injEq] at h
          rw [List.map_cons, List.map_cons, resolve_append h.1, ih h.2]

theorem intern_reads (h : Reads s rs) (hg : Keyed g) :
    Reads (s.intern g).1 rs ∧ (s.intern g).1.infos[(s.intern g).2]? = some g := by
  rw [Loading.intern]
  split
  · rename_i idx hidx
    obtain ⟨g', hg', hkeyed, hkey⟩ := h.idx _ _ hidx
    rw [infoKey_injective hg hkeyed hkey]
    exact ⟨h, hg'⟩
  · have hnew : (s.infos ++ [g])[s.infos.length]? = some g := List.getElem?_concat_length
    refine ⟨⟨map_resolve_append h.v4, map_resolve_append h.v6, ?_⟩, hnew⟩
    intro k i hi
    rw [Dict.get?_insert] at hi
    split at hi
    · rename_i hk
      cases hi
      exact ⟨g, hnew, hg, hk⟩
    · obtain ⟨g', hg', hkeyed⟩ := h.idx k i hi
      exact ⟨g', (List.getElem?_append_left (List.getElem?_eq_some_iff.mp hg').1).trans hg', hkeyed⟩

theorem Reads.skip (h : Reads s rs) : Reads s.skip (rs ++ []) := by
  rw [List.append_nil]
  exact ⟨h.v4, h.v6, h.idx⟩

theorem addRange_reads {idx : ℕ} (h : Reads s rs) (hidx : s.infos[idx]? = some g) (first last : Units) :
    Reads (s.addRange first last idx) (rs ++ ((boundsOf first last).map fun b => Range.mk b.1 b.2.1 b.2.2 g).toList) := by
  rw [Loading.addRange, boundsOf]
  cases ha : parseV4 first with
  | some a =>
      cases hb : parseV4 last with
      | none => exact h.skip
      | some b =>
          dsimp only [Option.bind_some]
          by_cases hlt : b < a
          · rw [if_pos hlt, if_neg (Nat.not_le.mpr hlt)]
            exact h.skip
          · rw [if_neg hlt, if_pos (Nat.not_lt.mp hlt)]
            refine ⟨?_, ?_, h.idx⟩
            · rw [List.map_append, h.v4, family_append, List.map_append, List.map_singleton, resolve, hidx]
              rfl
            · rw [family_append, List.map_append, h.v6]
              exact (List.append_nil _).symm
  | none =>
      cases ha6 : parseV6 first with
      | none => exact h.skip
      | some a =>
          cases hb6 : parseV6 last with
          | none => exact h.skip
          | some b =>
              dsimp only [Option.bind_some]
              by_cases hlt : b < a
              · rw [if_pos hlt, if_neg (Nat.not_le.mpr hlt)]
                exact h.skip
              · rw [if_neg hlt, if_pos (Nat.not_lt.mp hlt)]
                refine ⟨?_, ?_, h.idx⟩
                · rw [family_append, List.map_append, h.v4]
                  exact (List.append_nil _).symm
                · rw [List.map_append, h.v6, family_append, List.map_append, List.map_singleton, resolve, hidx]
                  rfl

theorem Reads.same (h : Reads s rs) : Reads s (rs ++ []) := by
  rwa [List.append_nil]

theorem readRow_reads (h : Reads s rs) (row : Units) : Reads (s.readRow row) (rs ++ (rangeOf row).toList) := by
  unfold Loading.readRow rangeOf
  by_cases hhash : row.head? = some 0x23
  · rw [if_pos (.inr hhash), if_pos hhash]
    exact h.same
  by_cases hempty : row = []
  · subst hempty
    exact h.same
  rw [if_neg (by rintro (hrow | hrow); exacts [hempty hrow, hhash hrow]), if_neg hhash]
  obtain _ | ⟨first, _ | ⟨last, _ | ⟨num, _ | ⟨cc, _ | ⟨desc, more⟩⟩⟩⟩⟩ := row.splitOn tab
  · exact h.skip
  · exact h.skip
  · exact h.skip
  · exact h.skip
  · exact h.skip
  · dsimp only
    cases hasn : (toNumber num).bind integer? with
    | none => exact h.same
    | some asn =>
        dsimp only [Option.bind_eq_bind, Option.bind_some]
        by_cases hle : asn ≤ 0
        · simp only [if_pos hle, if_neg (Int.not_lt.mpr hle), Option.bind_fun_none]
          exact h.same
        · simp only [if_neg hle, if_pos (Int.not_le.mp hle)]
          obtain ⟨hreads, hidx⟩ := intern_reads (g := ⟨asn, orgName ([tab].intercalate (desc :: more)), countryCode cc⟩) h
            ⟨Int.le_of_lt (Int.not_le.mp hle), countryCode_keyed cc⟩
          have hadd := addRange_reads hreads hidx first last
          rwa [Option.map_eq_bind] at hadd

theorem foldl_reads (h : Reads s rs) (lines : List Units) :
    Reads (lines.foldl Loading.readRow s) (rs ++ lines.filterMap rangeOf) := by
  induction lines generalizing s rs with
  | nil => rwa [List.filterMap_nil, List.append_nil]
  | cons row lines ih =>
      have hrest := ih (readRow_reads h row)
      rw [List.append_assoc] at hrest
      rw [List.foldl_cons]
      cases hrow : rangeOf row with
      | none =>
          rw [hrow] at hrest
          rwa [List.filterMap_cons_none hrow]
      | some r =>
          rw [hrow] at hrest
          rwa [List.filterMap_cons_some hrow]

theorem reads_start : Reads .start [] := ⟨rfl, rfl, fun _ _ h => by cases h⟩

theorem splitOn_eq_rows (text : Units) : ∃ more, (more = [] ∨ more = [[]]) ∧ text.splitOn newline = rows text ++ more := by
  induction hn : text.length using Nat.strong_induction_on generalizing text with
  | _ n ih =>
      rw [rows]
      split
      · rename_i hempty
        subst hempty
        exact ⟨[[]], .inr rfl, rfl⟩
      · rename_i hne
        by_cases hnl : newline ∈ text
        · obtain ⟨a, b, rfl, ha⟩ := List.eq_append_cons_of_mem hnl
          have hplain : ∀ u ∈ a, decide (u ≠ newline) = true := fun u hu => decide_eq_true (ne_of_mem_of_not_mem hu ha)
          have htake : (a ++ newline :: b).takeWhile (· ≠ newline) = a := by
            rw [List.takeWhile_append_of_pos hplain, List.takeWhile_cons_of_neg (by decide), List.append_nil]
          have hdrop : (a ++ newline :: b).dropWhile (· ≠ newline) = newline :: b := by
            rw [List.dropWhile_append_of_pos hplain, List.dropWhile_cons_of_neg (by decide)]
          have hlen : b.length < n := by
            rw [← hn, List.length_append, List.length_cons]
            omega
          obtain ⟨more, hmore, hrest⟩ := ih _ hlen b rfl
          refine ⟨more, hmore, ?_⟩
          rw [htake, hdrop, List.drop_one, List.tail_cons, List.cons_append, ← hrest]
          exact List.splitOn_append_cons_self_of_not_mem ha b
        · have htake : text.takeWhile (· ≠ newline) = text := by
            rw [List.takeWhile_eq_self_iff]
            intro u hu
            exact decide_eq_true (ne_of_mem_of_not_mem hu hnl)
          have hdrop : text.dropWhile (· ≠ newline) = [] := by
            rw [List.dropWhile_eq_nil_iff]
            intro u hu
            exact decide_eq_true (ne_of_mem_of_not_mem hu hnl)
          refine ⟨[], .inl rfl, ?_⟩
          rw [htake, hdrop, List.drop_nil, rows, if_pos rfl, List.splitOn_eq_singleton hnl]
          rfl

theorem filterMap_rows (text : Units) : ((rows text).map stripCr).filterMap rangeOf = ranges text := by
  obtain ⟨more, hmore, hsplit⟩ := splitOn_eq_rows text
  rw [ranges, hsplit, List.filterMap_append, List.filterMap_map]
  have hnone : more.filterMap (fun row => rangeOf (stripCr row)) = [] := by
    obtain rfl | rfl := hmore
    · rfl
    · rfl
  rw [hnone, List.append_nil]
  rfl

end Reading

section Searching

variable {es : List Entry}

def Apart (e f : Entry) : Prop := e.2.1 < f.1 ∨ f.2.1 < e.1

theorem sortEntries_perm (es : List Entry) : (sortEntries es).Perm es := List.mergeSort_perm _ _

theorem sortEntries_sorted (es : List Entry) : (sortEntries es).Pairwise fun a b => a.1 ≤ b.1 :=
  List.pairwise_mergeSort' (Order.Preimage Prod.fst (· ≤ ·)) es

theorem sortEntries_apart (hle : ∀ e ∈ es, e.1 ≤ e.2.1) (hapart : es.Pairwise Apart) :
    (sortEntries es).Pairwise fun a b => a.2.1 < b.1 := by
  have hsymm : ∀ {a b : Entry}, Apart a b → Apart b a := fun h => h.symm
  have hall := (sortEntries_perm es).pairwise_iff hsymm |>.mpr hapart
  have hboth := (sortEntries_sorted es).and hall
  refine hboth.imp_of_mem ?_
  rintro a b ha hb ⟨hsorted, hlt | hlt⟩
  · exact hlt
  · have hb' := hle b ((sortEntries_perm es).mem_iff.mp hb)
    omega

/-- The search by the starts finds the range that contains a number, if there is one. -/
theorem search_sorted {start stop : ℕ → ℕ} (hle : ∀ e ∈ es, e.1 ≤ e.2.1) (hapart : es.Pairwise Apart)
    (hcols : ∀ i e, (sortEntries es)[i]? = some e → start i = e.1 ∧ stop i = e.2.1) (x : ℕ) :
    ∃ k : ℤ, searchLast (fun i => start i ≤ x) 0 ((es.length : ℤ) - 1) (-1) = k ∧
      (∀ e ∈ es, e.1 ≤ x → x ≤ e.2.1 → 0 ≤ k ∧ x ≤ stop k.toNat ∧ (sortEntries es)[k.toNat]? = some e) ∧
      (0 ≤ k → x ≤ stop k.toNat → ∃ e ∈ es, e.1 ≤ x ∧ x ≤ e.2.1) := by
  have hlen : (sortEntries es).length = es.length := (sortEntries_perm es).length_eq
  have hget : ∀ i < es.length, ∃ e, (sortEntries es)[i]? = some e ∧ e ∈ es ∧ start i = e.1 ∧ stop i = e.2.1 := by
    intro i hi
    have hi' : i < (sortEntries es).length := by rwa [hlen]
    have he := List.getElem?_eq_getElem hi'
    exact ⟨_, he, (sortEntries_perm es).mem_iff.mp (List.getElem_mem hi'), hcols i _ he⟩
  obtain ⟨k, hk, hkn, hspec⟩ := searchLast_interval (n := es.length) start stop
    (fun i hi => by
      obtain ⟨e, -, hmem, hstart, hstop⟩ := hget i hi
      rw [hstart, hstop]
      exact hle e hmem)
    (fun i j hij hj => by
      obtain ⟨e, he, -, -, hstop⟩ := hget i (by omega)
      obtain ⟨f, hf, -, hstart, -⟩ := hget j hj
      rw [hstop, hstart]
      obtain ⟨hi', rfl⟩ := List.getElem?_eq_some_iff.mp he
      obtain ⟨hj', rfl⟩ := List.getElem?_eq_some_iff.mp hf
      exact List.pairwise_iff_getElem.mp (sortEntries_apart hle hapart) i j hi' hj' hij) x
  refine ⟨k, hk, ?_, ?_⟩
  · intro e hmem hstart hstop
    obtain ⟨i, hi', rfl⟩ := List.mem_iff_getElem.mp ((sortEntries_perm es).mem_iff.mpr hmem)
    have hi : i < es.length := by rwa [hlen] at hi'
    have hcol := hcols i _ (List.getElem?_eq_getElem hi')
    obtain ⟨rfl, hle'⟩ := (hspec i hi).mp ⟨hcol.1.trans_le hstart, hstop.trans_eq hcol.2.symm⟩
    exact ⟨Int.natCast_nonneg i, hle', List.getElem?_eq_getElem hi'⟩
  · intro hk0 hstop
    have hlt : k.toNat < es.length := by omega
    obtain ⟨e, -, hmem, hs, he⟩ := hget k.toNat hlt
    have hboth := (hspec k.toNat hlt).mpr ⟨by omega, hstop⟩
    exact ⟨e, hmem, by rw [← hs]; exact hboth.1, by rw [← he]; exact hstop⟩

end Searching

section Lookup

variable {s : Loading} {rs : List Range}

theorem at32_map {l : List Entry} {f : Entry → ℕ} {i : ℕ} {e : Entry} (h : l[i]? = some e) (hlt : f e < 2 ^ 32) :
    at32 (l.map fun r => UInt32.ofNat (f r)) i = f e := by
  rw [at32, List.getElem?_map, h]
  exact UInt32.toNat_ofNat_of_lt' hlt

theorem at64_map {l : List Entry} {f : Entry → ℕ} {i : ℕ} {e : Entry} (h : l[i]? = some e) (hlt : f e < 2 ^ 64) :
    at64 (l.map fun r => UInt64.ofNat (f r)) i = f e := by
  rw [at64, List.getElem?_map, h]
  exact UInt64.toNat_ofNat_of_lt' hlt

theorem halves (n : ℕ) : (n >>> 64) * 2 ^ 64 + (n &&& m64) = n := by
  rw [Nat.shiftRight_eq_div_pow, m64, Nat.and_two_pow_sub_one_eq_mod]
  omega

theorem low_lt (n : ℕ) : n &&& m64 < 2 ^ 64 := by
  rw [m64, Nat.and_two_pow_sub_one_eq_mod]
  omega

theorem high_lt {n : ℕ} (h : n < 2 ^ 128) : n >>> 64 < 2 ^ 64 := by
  rw [Nat.shiftRight_eq_div_pow]
  omega

variable {es : List Entry} {infos : List Geo}

theorem fields_of_resolve {e : Entry} {r : Range} (h : resolve infos e = r.entry) :
    e.1 = r.first ∧ e.2.1 = r.last ∧ infos[e.2.2]? = some r.geo :=
  ⟨congrArg (fun t => t.1) h, congrArg (fun t => t.2.1) h, congrArg (fun t => t.2.2) h⟩

theorem mem_of_resolve (hes : es.map (resolve infos) = rs.map Range.entry) :
    (∀ e ∈ es, ∃ r ∈ rs, resolve infos e = r.entry) ∧ ∀ r ∈ rs, ∃ e ∈ es, resolve infos e = r.entry := by
  constructor
  · intro e he
    have hmem : resolve infos e ∈ rs.map Range.entry := hes ▸ List.mem_map_of_mem he
    obtain ⟨r, hr, heq⟩ := List.mem_map.mp hmem
    exact ⟨r, hr, heq.symm⟩
  · intro r hr
    have hmem : r.entry ∈ es.map (resolve infos) := hes ▸ List.mem_map_of_mem hr
    obtain ⟨e, he, heq⟩ := List.mem_map.mp hmem
    exact ⟨e, he, heq⟩

theorem apart_of_resolve (hes : es.map (resolve infos) = rs.map Range.entry)
    (hapart : rs.Pairwise fun r s => r.last < s.first ∨ s.last < r.first) : es.Pairwise Apart := by
  have hentries : (rs.map Range.entry).Pairwise fun a b => a.2.1 < b.1 ∨ b.2.1 < a.1 :=
    List.pairwise_map.mpr hapart
  rw [← hes, List.pairwise_map] at hentries
  exact hentries

theorem search_family (start stop : ℕ → ℕ) (hes : es.map (resolve infos) = rs.map Range.entry)
    (hle : ∀ r ∈ rs, r.first ≤ r.last) (hapart : rs.Pairwise fun r s => r.last < s.first ∨ s.last < r.first)
    (hcols : ∀ i e, (sortEntries es)[i]? = some e → start i = e.1 ∧ stop i = e.2.1) (x : ℕ) :
    ∃ k : ℤ, searchLast (fun i => start i ≤ x) 0 ((es.length : ℤ) - 1) (-1) = k ∧
      (∀ r ∈ rs, r.first ≤ x → x ≤ r.last → 0 ≤ k ∧ x ≤ stop k.toNat ∧
        ((sortEntries es).map fun e => e.2.2)[k.toNat]?.bind (infos[·]?) = some r.geo) ∧
      (0 ≤ k → x ≤ stop k.toNat → ∃ r ∈ rs, r.first ≤ x ∧ x ≤ r.last) := by
  obtain ⟨hrange, hentry⟩ := mem_of_resolve hes
  have hle' : ∀ e ∈ es, e.1 ≤ e.2.1 := by
    intro e he
    obtain ⟨r, hr, heq⟩ := hrange e he
    obtain ⟨hf, hl, -⟩ := fields_of_resolve heq
    rw [hf, hl]
    exact hle r hr
  obtain ⟨k, hk, hfound, hnone⟩ := search_sorted hle' (apart_of_resolve hes hapart) hcols x
  refine ⟨k, hk, ?_, ?_⟩
  · intro r hr hfirst hlast
    obtain ⟨e, he, heq⟩ := hentry r hr
    obtain ⟨hf, hl, hinfo⟩ := fields_of_resolve heq
    obtain ⟨hk0, hstop, hget⟩ := hfound e he (hf.trans_le hfirst) (hlast.trans_eq hl.symm)
    refine ⟨hk0, hstop, ?_⟩
    rw [List.getElem?_map, hget]
    exact hinfo
  · intro hk0 hstop
    obtain ⟨e, he, hfirst, hlast⟩ := hnone hk0 hstop
    obtain ⟨r, hr, heq⟩ := hrange e he
    obtain ⟨hf, hl, -⟩ := fields_of_resolve heq
    exact ⟨r, hr, hf.symm.trans_le hfirst, hlast.trans_eq hl⟩

theorem rangeOf_bounds {row : Units} {r : Range} (h : rangeOf row = some r) :
    r.first ≤ r.last ∧ r.last < if r.six then 2 ^ 128 else 2 ^ 32 := by
  have hbounds : ∀ first last b, boundsOf first last = some b →
      b.2.1 ≤ b.2.2 ∧ b.2.2 < if b.1 then 2 ^ 128 else 2 ^ 32 := by
    intro first last b hb
    unfold boundsOf at hb
    cases ha : parseV4 first with
    | some a =>
        rw [ha] at hb
        obtain ⟨c, hc, hb⟩ := Option.bind_eq_some_iff.mp hb
        rw [Option.ite_none_right_eq_some] at hb
        obtain ⟨hle, heq⟩ := hb
        cases heq
        exact ⟨hle, parseV4_lt hc⟩
    | none =>
        rw [ha] at hb
        obtain ⟨a, -, hb⟩ := Option.bind_eq_some_iff.mp hb
        obtain ⟨c, hc, hb⟩ := Option.bind_eq_some_iff.mp hb
        rw [Option.ite_none_right_eq_some] at hb
        obtain ⟨hle, heq⟩ := hb
        cases heq
        exact ⟨hle, parseV6_lt hc⟩
  unfold rangeOf at h
  split at h
  · cases h
  · split at h
    · obtain ⟨asn, -, h⟩ := Option.bind_eq_some_iff.mp h
      obtain ⟨b, hb, h⟩ := Option.bind_eq_some_iff.mp h
      rw [Option.ite_none_right_eq_some] at h
      cases h.2
      exact hbounds _ _ _ hb
    · cases h

theorem mem_family {six : Bool} {r : Range} : r ∈ family rs six ↔ r ∈ rs ∧ r.six = six := by
  rw [family, List.mem_filter, decide_eq_true_iff]

theorem family_apart (hdisjoint : rs.Pairwise Range.Disjoint) (six : Bool) :
    (family rs six).Pairwise fun r s => r.last < s.first ∨ s.last < r.first := by
  refine (List.Pairwise.filter _ hdisjoint).imp_of_mem ?_
  intro r r' hr hr' hd
  exact hd ((mem_family.mp hr).2.trans (mem_family.mp hr').2.symm)

def Bounded (rs : List Range) : Prop := ∀ r ∈ rs, r.first ≤ r.last ∧ r.last < if r.six then 2 ^ 128 else 2 ^ 32

theorem entry_lt (hbounds : Bounded rs) {six : Bool} (hes : es.map (resolve infos) = (family rs six).map Range.entry)
    {i : ℕ} {e : Entry} (he : (sortEntries es)[i]? = some e) :
    e.1 < (if six then 2 ^ 128 else 2 ^ 32) ∧ e.2.1 < if six then 2 ^ 128 else 2 ^ 32 := by
  have hmem := (sortEntries_perm es).mem_iff.mp (List.mem_of_getElem? he)
  obtain ⟨r, hr, heq⟩ := (mem_of_resolve hes).1 e hmem
  obtain ⟨hin, rfl⟩ := mem_family.mp hr
  obtain ⟨hf, hl, -⟩ := fields_of_resolve heq
  obtain ⟨hle, hlt⟩ := hbounds r hin
  rw [hf, hl]
  exact ⟨hle.trans_lt hlt, hlt⟩

/-- What a lookup gives for an address: the info of the range that contains it. -/
def Finds (rs : List Range) (p : ParsedIp) (result : Option Geo) : Prop :=
  (∀ r ∈ rs, r.Contains p → result = some r.geo) ∧ ((∀ r ∈ rs, ¬ r.Contains p) → result = none)

theorem lookup_v4 (h : Reads s rs) (hbounds : Bounded rs) (hdisjoint : rs.Pairwise Range.Disjoint) (n : ℕ) :
    Finds rs (.v4 n) ((AsnTable.build s.v4 s.v6 s.infos).lookupParsed (.v4 n)) := by
  obtain ⟨k, hk, hfound, hnone⟩ := search_family
    (at32 (AsnTable.build s.v4 s.v6 s.infos).v4Start) (at32 (AsnTable.build s.v4 s.v6 s.infos).v4End) h.v4
    (fun r hr => (hbounds r (mem_family.mp hr).1).1) (family_apart hdisjoint false)
    (fun i e he => by
      have hlt := entry_lt hbounds h.v4 he
      exact ⟨at32_map (f := fun e => e.1) he hlt.1, at32_map (f := fun e => e.2.1) he hlt.2⟩) n
  have hlen : (AsnTable.build s.v4 s.v6 s.infos).v4Start.length = s.v4.length :=
    List.length_map _ |>.trans (sortEntries_perm s.v4).length_eq
  rw [AsnTable.lookupParsed, hlen, hk]
  constructor
  · rintro r hr ⟨hsix, hfirst, hlast⟩
    obtain ⟨hk0, hstop, hinfo⟩ := hfound r (mem_family.mpr ⟨hr, hsix⟩) hfirst hlast
    rw [if_pos ⟨hk0, hstop⟩]
    exact hinfo
  · intro hno
    rw [if_neg]
    rintro ⟨hk0, hstop⟩
    obtain ⟨r, hr, hfirst, hlast⟩ := hnone hk0 hstop
    obtain ⟨hr, hsix⟩ := mem_family.mp hr
    exact hno r hr ⟨hsix, hfirst, hlast⟩

theorem halves_le {hi lo n : ℕ} (hlo : lo < 2 ^ 64) :
    hi < n >>> 64 ∨ hi = n >>> 64 ∧ lo ≤ n &&& m64 ↔ hi * 2 ^ 64 + lo ≤ n := by
  have hn := halves n
  have hlow := low_lt n
  omega

theorem le_halves {hi lo n : ℕ} (hlo : lo < 2 ^ 64) :
    n >>> 64 < hi ∨ n >>> 64 = hi ∧ n &&& m64 ≤ lo ↔ n ≤ hi * 2 ^ 64 + lo := by
  have hn := halves n
  have hlow := low_lt n
  omega

theorem at64_lt (l : List UInt64) (i : ℕ) : at64 l i < 2 ^ 64 := UInt64.toNat_lt _

theorem lookup_v6 (h : Reads s rs) (hbounds : Bounded rs) (hdisjoint : rs.Pairwise Range.Disjoint) (n : ℕ) :
    Finds rs (.v6 n) ((AsnTable.build s.v4 s.v6 s.infos).lookupParsed (.v6 n)) := by
  obtain ⟨k, hk, hfound, hnone⟩ := search_family
    (fun i => at64 (AsnTable.build s.v4 s.v6 s.infos).v6StartHi i * 2 ^ 64 + at64 (AsnTable.build s.v4 s.v6 s.infos).v6StartLo i)
    (fun i => at64 (AsnTable.build s.v4 s.v6 s.infos).v6EndHi i * 2 ^ 64 + at64 (AsnTable.build s.v4 s.v6 s.infos).v6EndLo i)
    h.v6 (fun r hr => (hbounds r (mem_family.mp hr).1).1) (family_apart hdisjoint true)
    (fun i e he => by
      have hlt := entry_lt hbounds h.v6 he
      have hcol : ∀ f : Entry → ℕ, f e < 2 ^ 128 → at64 ((sortEntries s.v6).map fun r => UInt64.ofNat (f r >>> 64)) i * 2 ^ 64 +
          at64 ((sortEntries s.v6).map fun r => UInt64.ofNat (f r &&& m64)) i = f e := by
        intro f hf
        rw [at64_map (f := fun r => f r >>> 64) he (high_lt hf), at64_map (f := fun r => f r &&& m64) he (low_lt _), halves]
      exact ⟨hcol (fun e => e.1) hlt.1, hcol (fun e => e.2.1) hlt.2⟩) n
  have hlen : (AsnTable.build s.v4 s.v6 s.infos).v6Info.length = s.v6.length :=
    List.length_map _ |>.trans (sortEntries_perm s.v6).length_eq
  rw [AsnTable.lookupParsed, hlen]
  simp only [halves_le (at64_lt _ _), le_halves (at64_lt _ _)]
  rw [hk]
  constructor
  · rintro r hr ⟨hsix, hfirst, hlast⟩
    obtain ⟨hk0, hstop, hinfo⟩ := hfound r (mem_family.mpr ⟨hr, hsix⟩) hfirst hlast
    rw [if_neg (Int.not_lt.mpr hk0), if_pos hstop]
    exact hinfo
  · intro hno
    split
    · rfl
    · rename_i hk0
      rw [if_neg]
      intro hstop
      obtain ⟨r, hr, hfirst, hlast⟩ := hnone (Int.not_lt.mp hk0) hstop
      obtain ⟨hr, hsix⟩ := mem_family.mp hr
      exact hno r hr ⟨hsix, hfirst, hlast⟩

end Lookup

theorem reads_text (text : Units) : Reads (((rows text).map stripCr).foldl Loading.readRow .start) (ranges text) := by
  have h := foldl_reads reads_start ((rows text).map stripCr)
  rwa [filterMap_rows] at h

theorem ranges_bounded (text : Units) : Bounded (ranges text) := by
  intro r hr
  obtain ⟨row, -, hrow⟩ := List.mem_filterMap.mp hr
  exact rangeOf_bounds hrow

theorem size_ranges (text : Units) : (parseTable text).1.size = (ranges text).length := by
  have h := reads_text text
  have h4 := congrArg List.length h.v4
  have h6 := congrArg List.length h.v6
  rw [List.length_map, List.length_map] at h4 h6
  have hsort : ∀ es : List Entry, (sortEntries es).length = es.length := fun es => (sortEntries_perm es).length_eq
  rw [parseTable, AsnTable.size, AsnTable.build, List.length_map, List.length_map, hsort, hsort, h4, h6, length_family]

/-- A lookup gives what the line says whose range contains the address. -/
theorem lookup_membership (text : Units) (hdisjoint : (ranges text).Pairwise Range.Disjoint) :
    (parseTable text).1.size = (ranges text).length ∧ ∀ ip : Units,
      (parseIp ip = none → (parseTable text).1.lookup ip = none) ∧
      ∀ p, parseIp ip = some p → Finds (ranges text) p ((parseTable text).1.lookup ip) := by
  refine ⟨size_ranges text, fun ip => ⟨fun hip => ?_, fun p hip => ?_⟩⟩
  · rw [AsnTable.lookup, hip]
  · rw [AsnTable.lookup, hip]
    have h := reads_text text
    have hbounds := ranges_bounded text
    cases p with
    | v4 n => exact lookup_v4 h hbounds hdisjoint n
    | v6 n => exact lookup_v6 h hbounds hdisjoint n

/-- Two ranges out of order, one of each family, with a comment, a short line and a line that
is not routed. -/
def sampleText : Units :=
  units "# ranges\r\n2001::\t2001::ff\t8\tUnknown\tEIGHT\njunk\n1.0.0.0\t1.0.0.255\t1\tAU\tA - ONE\r\n3.0.0.0\t3.0.0.9\t0\tNone\tNot routed"

theorem ranges_sampleText : ranges sampleText =
    [⟨true, 0x2001 * 2 ^ 112, 0x2001 * 2 ^ 112 + 255, 8, units "EIGHT", []⟩, ⟨false, 0x01000000, 0x010000ff, 1, units "ONE", units "AU"⟩] := by
  decide +kernel

theorem lookup_membership_sample : (parseTable sampleText).1.size = 2 ∧
    (parseTable sampleText).1.lookup (units "::ffff:1.0.0.7") = some ⟨1, units "ONE", units "AU"⟩ := by
  have hdisjoint : (ranges sampleText).Pairwise Range.Disjoint := by
    rw [ranges_sampleText]
    refine .cons ?_ (List.pairwise_singleton _ _)
    intro r hr
    cases List.mem_singleton.mp hr
    exact fun h => by cases h
  obtain ⟨hsize, hlookup⟩ := lookup_membership sampleText hdisjoint
  have hip : parseIp (units "::ffff:1.0.0.7") = some (.v4 0x01000007) := by decide +kernel
  refine ⟨hsize.trans (congrArg List.length ranges_sampleText), ?_⟩
  refine ((hlookup _).2 _ hip).1 ⟨false, 0x01000000, 0x010000ff, 1, units "ONE", units "AU"⟩ ?_ ⟨rfl, by decide, by decide⟩
  rw [ranges_sampleText]
  exact List.mem_cons_of_mem _ List.mem_cons_self

end NetWatch.GeoIp.Asn
