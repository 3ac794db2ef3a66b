import NetWatch.GeoIp.Asn
import NetWatch.History.Ranges
import NetWatch.Lib.GroupFold
import NetWatch.Lib.LargestFirst

namespace NetWatch.History.AsnCountries

open Lib Lib.Assoc Lib.Buckets Lib.GroupFold Lib.JsValue Lib.LargestFirst
open GeoIp.Asn (Geo)
open GeoIp.Ip (ParsedIp parseIp ipScope)
open Ranges (Range Table)

inductive GeoDir
  | total
  | tx
  | rx
  deriving DecidableEq

def pick (dir : GeoDir) (tx rx : ℕ) : ℕ :=
  match dir with
  | .tx => tx
  | .rx => rx
  | .total => tx + rx

structure IpTotalRow where
  ip : Units
  tx : ℕ
  rx : ℕ

structure TotalsRow where
  tx : ℕ
  rx : ℕ
  ips : ℕ

/-- Sums over some addresses, which are added exactly here. -/
@[ext] structure GeoSum where
  tx : ℕ
  rx : ℕ
  bytes : ℕ
  ips : ℕ
  deriving DecidableEq

def zero : GeoSum := ⟨0, 0, 0, 0⟩

def addTo (s : GeoSum) (tx rx bytes : ℕ) : GeoSum := ⟨s.tx + tx, s.rx + rx, s.bytes + bytes, s.ips + 1⟩

abbrev Lookup := ParsedIp → Option Geo

/-- Where an address belongs. -/
structure Place where
  isLocal : Bool
  geo : Option Geo

def classify (ip : Units) (lookup : Option Lookup) : Place :=
  match parseIp ip with
  | none => ⟨false, none⟩
  | some p => if ipScope p ≠ .publicNet then ⟨true, none⟩ else ⟨false, lookup.bind fun f => f p⟩

structure AsnRow extends GeoSum where
  asn : ℤ
  org : Units
  country : Units
  deriving DecidableEq

structure AsnAcc extends AsnRow where
  byCc : Dict Units ℕ

structure CountryRow extends GeoSum where
  country : Units
  deriving DecidableEq

structure Tally where
  covered : ℕ
  localSum : GeoSum
  unmatched : GeoSum
  asns : Dict ℤ AsnAcc
  countries : Dict Units CountryRow

def freshAsn (m : Geo × IpTotalRow) : AsnAcc := ⟨⟨zero, m.1.asn, m.1.org, m.1.cc⟩, .empty⟩

def freshCountry (m : Geo × IpTotalRow) : CountryRow := ⟨zero, m.1.cc⟩

def addAsn (dir : GeoDir) (a : AsnAcc) (m : Geo × IpTotalRow) : AsnAcc :=
  let bytes := pick dir m.2.tx m.2.rx
  { a with
    toGeoSum := addTo a.toGeoSum m.2.tx m.2.rx bytes
    byCc := a.byCc.insert m.1.cc ((a.byCc.get? m.1.cc).getD 0 + bytes) }

def addCountry (dir : GeoDir) (c : CountryRow) (m : Geo × IpTotalRow) : CountryRow :=
  { c with toGeoSum := addTo c.toGeoSum m.2.tx m.2.rx (pick dir m.2.tx m.2.rx) }

def step (dir : GeoDir) (lookup : Option Lookup) (s : Tally) (row : IpTotalRow) : Tally :=
  let bytes := pick dir row.tx row.rx
  let s := { s with covered := s.covered + bytes }
  let c := classify row.ip lookup
  if c.isLocal then { s with localSum := addTo s.localSum row.tx row.rx bytes }
  else
    match c.geo with
    | none => { s with unmatched := addTo s.unmatched row.tx row.rx bytes }
    | some g =>
        let a := (s.asns.get? g.asn).getD (freshAsn (g, row))
        let s := { s with asns := s.asns.insert g.asn (addAsn dir a (g, row)) }
        if g.cc ≠ [] then
          let ct := (s.countries.get? g.cc).getD (freshCountry (g, row))
          { s with countries := s.countries.insert g.cc (addCountry dir ct (g, row)) }
        else s

def tally (dir : GeoDir) (lookup : Option Lookup) (perIp : List IpTotalRow) : Tally :=
  perIp.foldl (step dir lookup) ⟨0, zero, zero, .empty, .empty⟩

/-- The better of the best country so far and the next, each with its bytes. -/
def better (s : Units × ℤ) (e : Units × ℕ) : Units × ℤ := if s.2 < e.2 ∨ ((e.2 : ℤ) = s.2 ∧ e.1 < s.1) then (e.1, e.2) else s

def bestCountry (byCc : Dict Units ℕ) : Units := (byCc.entries.foldl better ([], -1)).1

def AsnAcc.row (a : AsnAcc) : AsnRow := { a.toAsnRow with country := bestCountry a.byCc }

structure Coverage where
  ips : ℕ
  totalIps : ℕ
  bytes : ℕ
  totalBytes : ℕ
  deriving DecidableEq

structure GeoBreakdown where
  fromMs : ℤ
  toMs : ℤ
  table : Table
  dir : GeoDir
  geo : Bool
  coverage : Coverage
  localSum : GeoSum
  unmatched : GeoSum
  deriving DecidableEq

structure Breakdown where
  base : GeoBreakdown
  asns : List AsnRow
  countries : List CountryRow

/-- No two of the rows that are sorted have one number, or one country. -/
def buildGeoBreakdown (perIp : List IpTotalRow) (totals : Option TotalsRow) (r : Range) (dir : GeoDir) (lookup : Option Lookup) :
    Breakdown :=
  let s := tally dir lookup perIp
  let tTx := (totals.map TotalsRow.tx).getD 0
  let tRx := (totals.map TotalsRow.rx).getD 0
  let ips := (totals.map TotalsRow.ips).getD 0
  { base :=
      { fromMs := r.fromMs
        toMs := r.toMs
        table := r.table
        dir := dir
        geo := lookup.isSome
        coverage := ⟨perIp.length, max perIp.length ips, s.covered, max s.covered (pick dir tTx tRx)⟩
        localSum := s.localSum
        unmatched := s.unmatched }
    asns := largestFirst (fun a => a.bytes) AsnRow.asn (s.asns.values.map AsnAcc.row)
    countries := largestFirst (fun c => c.bytes) CountryRow.country s.countries.values }

section Sums

instance : Zero GeoSum := ⟨zero⟩

instance : Add GeoSum := ⟨fun a b => ⟨a.tx + b.tx, a.rx + b.rx, a.bytes + b.bytes, a.ips + b.ips⟩⟩

instance : AddCommMonoid GeoSum where
  add_assoc a b c := by
    apply GeoSum.ext <;> exact Nat.add_assoc _ _ _
  zero_add a := by
    apply GeoSum.ext <;> exact Nat.zero_add _
  add_zero _ := rfl
  add_comm a b := by
    apply GeoSum.ext <;> exact Nat.add_comm _ _
  nsmul := nsmulRec

def rowSum (dir : GeoDir) (row : IpTotalRow) : GeoSum := ⟨row.tx, row.rx, pick dir row.tx row.rx, 1⟩

variable {dir : GeoDir} {rows : List IpTotalRow}

theorem addTo_eq (s : GeoSum) (row : IpTotalRow) : addTo s row.tx row.rx (pick dir row.tx row.rx) = s + rowSum dir row := rfl

theorem total_bytes : (total (rowSum dir) rows).bytes = total (fun row => pick dir row.tx row.rx) rows := by
  induction rows with
  | nil => rfl
  | cons row rows ih =>
      rw [total_cons, total_cons, ← ih]
      rfl

theorem total_ips : (total (rowSum dir) rows).ips = rows.length := by
  induction rows with
  | nil => rfl
  | cons row rows ih =>
      rw [total_cons, List.length_cons, ← ih, Nat.add_comm]
      rfl

end Sums

section Loop

variable {dir : GeoDir} {lookup : Option Lookup} {perIp perIp' : List IpTotalRow}

def isLocal (lookup : Option Lookup) (row : IpTotalRow) : Bool := (classify row.ip lookup).isLocal

def isUnmatched (lookup : Option Lookup) (row : IpTotalRow) : Bool :=
  !(classify row.ip lookup).isLocal && (classify row.ip lookup).geo.isNone

def matched (lookup : Option Lookup) (perIp : List IpTotalRow) : List (Geo × IpTotalRow) :=
  perIp.filterMap fun row => (classify row.ip lookup).geo.map (·, row)

def known (lookup : Option Lookup) (perIp : List IpTotalRow) : List (Geo × IpTotalRow) :=
  (matched lookup perIp).filter fun m => m.1.cc ≠ []

theorem geo_of_local {ip : Units} (h : (classify ip lookup).isLocal = true) : (classify ip lookup).geo = none := by
  unfold classify at h ⊢
  split at h
  · cases h
  · split at h
    · rename_i hscope
      rw [if_pos hscope]
    · cases h

/-- After each row, every address read so far is accounted for in one place. -/
theorem tally_eq (perIp : List IpTotalRow) : tally dir lookup perIp =
    { covered := total (fun row => pick dir row.tx row.rx) perIp
      localSum := total (rowSum dir) (perIp.filter (isLocal lookup))
      unmatched := total (rowSum dir) (perIp.filter (isUnmatched lookup))
      asns := groupFold (fun m => m.1.asn) freshAsn (addAsn dir) (matched lookup perIp)
      countries := groupFold (fun m => m.1.cc) freshCountry (addCountry dir) (known lookup perIp) } := by
  induction perIp using List.reverseRecOn with
  | nil => rfl
  | append_singleton perIp row ih =>
      have hstep : tally dir lookup (perIp ++ [row]) = step dir lookup (tally dir lookup perIp) row := by
        rw [tally, List.foldl_append]
        rfl
      rw [hstep, ih, step]
      simp only [List.filter_append, total_append, matched, known, List.filterMap_append, total_cons, total_nil, add_zero]
      by_cases hlocal : (classify row.ip lookup).isLocal = true
      · have hgeo := geo_of_local hlocal
        simp [isLocal, isUnmatched, hlocal, hgeo, addTo_eq]
      · cases hgeo : (classify row.ip lookup).geo with
        | none => simp [isLocal, isUnmatched, hlocal, hgeo, addTo_eq]
        | some g =>
            by_cases hcc : g.cc = []
            · simp [isLocal, isUnmatched, hlocal, hgeo, hcc, groupFold_snoc, into]
            · simp [isLocal, isUnmatched, hlocal, hgeo, hcc, groupFold_snoc, into]

theorem total_places (lookup : Option Lookup) (perIp : List IpTotalRow) : total (rowSum dir) (perIp.filter (isLocal lookup)) +
    total (rowSum dir) (perIp.filter (isUnmatched lookup)) + total (fun m => rowSum dir m.2) (matched lookup perIp) =
      total (rowSum dir) perIp := by
  induction perIp with
  | nil => rfl
  | cons row perIp ih =>
      rw [total_cons, ← ih]
      by_cases hlocal : (classify row.ip lookup).isLocal = true
      · have hgeo := geo_of_local hlocal
        simp [isLocal, isUnmatched, matched, hlocal, hgeo, add_assoc]
      · cases hgeo : (classify row.ip lookup).geo with
        | none => simp [isLocal, isUnmatched, matched, hlocal, hgeo, add_left_comm, add_assoc]
        | some g => simp [isLocal, isUnmatched, matched, hlocal, hgeo, add_left_comm, add_assoc]

theorem matched_perm (h : perIp.Perm perIp') : (matched lookup perIp).Perm (matched lookup perIp') := h.filterMap _

theorem known_perm (h : perIp.Perm perIp') : (known lookup perIp).Perm (known lookup perIp') := (matched_perm h).filter _

end Loop

section Best

/-- A key of the most, and of several the smallest. -/
def Leading (count : Units → Option ℕ) (cc : Units) : Prop :=
  ∃ most, count cc = some most ∧ ∀ cc' b, count cc' = some b → b < most ∨ b = most ∧ cc ≤ cc'

theorem Leading.unique {count : Units → Option ℕ} {cc cc' : Units} (h : Leading count cc) (h' : Leading count cc') : cc = cc' := by
  obtain ⟨most, hmost, hall⟩ := h
  obtain ⟨most', hmost', hall'⟩ := h'
  obtain hlt | ⟨heq, hle⟩ := hall cc' most' hmost'
  · obtain hlt' | ⟨heq', -⟩ := hall' cc most hmost
    · omega
    · omega
  · obtain hlt' | ⟨-, hle'⟩ := hall' cc most hmost
    · omega
    · exact List.le_antisymm hle hle'

theorem better_take {s : Units × ℤ} {e : Units × ℕ} (h : s.2 < e.2 ∨ ((e.2 : ℤ) = s.2 ∧ e.1 < s.1)) : better s e = (e.1, (e.2 : ℤ)) :=
  if_pos h

theorem better_keep {s : Units × ℤ} {e : Units × ℕ} (h : ¬ (s.2 < e.2 ∨ ((e.2 : ℤ) = s.2 ∧ e.1 < s.1))) : better s e = s :=
  if_neg h

theorem bestCountry_leading (d : Dict Units ℕ) (hne : d.entries ≠ []) : Leading d.get? (bestCountry d) := by
  have hfold : ∀ es : List (Units × ℕ), es ≠ [] → ∃ (cc : Units) (most : ℕ), es.foldl better ([], -1) = (cc, (most : ℤ)) ∧
      (cc, most) ∈ es ∧ ∀ e ∈ es, e.2 < most ∨ e.2 = most ∧ cc ≤ e.1 := by
    intro es
    induction es using List.reverseRecOn with
    | nil => exact fun h => absurd rfl h
    | append_singleton es e ih =>
        intro _
        rw [List.foldl_append, List.foldl_cons, List.foldl_nil]
        by_cases hes : es = []
        · subst hes
          have hfirst : (-1 : ℤ) < e.2 := by omega
          refine ⟨e.1, e.2, better_take (.inl hfirst), List.mem_append_right _ List.mem_cons_self, fun e' he' => ?_⟩
          · cases List.mem_singleton.mp he'
            exact .inr ⟨rfl, List.le_refl _⟩
        · obtain ⟨cc, most, hbest, hmem, hall⟩ := ih hes
          rw [hbest]
          by_cases htake : most < e.2 ∨ e.2 = most ∧ e.1 < cc
          · refine ⟨e.1, e.2, better_take (by simpa using htake), List.mem_append_right _ List.mem_cons_self, fun e' he' => ?_⟩
            obtain he' | he' := List.mem_append.mp he'
            · obtain hlt | ⟨heq, hle⟩ := hall e' he'
              · exact .inl (by omega)
              · obtain hmore | ⟨hsame, hsmall⟩ := htake
                · exact .inl (by omega)
                · exact .inr ⟨by omega, List.le_trans (List.le_of_lt hsmall) hle⟩
            · cases List.mem_singleton.mp he'
              exact .inr ⟨rfl, List.le_refl _⟩
          · refine ⟨cc, most, better_keep (by simpa using htake), List.mem_append_left _ hmem, fun e' he' => ?_⟩
            obtain he' | he' := List.mem_append.mp he'
            · exact hall e' he'
            · cases List.mem_singleton.mp he'
              obtain ⟨hmore, hsame⟩ := not_or.mp htake
              by_cases heq : e.2 = most
              · exact .inr ⟨heq, List.not_lt.mp fun hlt => hsame ⟨heq, hlt⟩⟩
              · exact .inl (by omega)
  obtain ⟨cc, most, hbest, hmem, hall⟩ := hfold d.entries hne
  have hcc : bestCountry d = cc := congrArg Prod.fst hbest
  rw [hcc]
  exact ⟨most, (d.mem_iff_get? cc most).mp hmem, fun cc' b hb => hall (cc', b) ((d.mem_iff_get? cc' b).mpr hb)⟩

end Best

section Rows

variable {dir : GeoDir} {lookup : Option Lookup} {ms : List (Geo × IpTotalRow)} {n : ℤ} {cc : Units} {a : AsnAcc} {c : CountryRow}

def byCountry (dir : GeoDir) (ms : List (Geo × IpTotalRow)) : Dict Units ℕ :=
  sumBy (fun m => m.1.cc) (fun m => pick dir m.2.tx m.2.rx) ms

theorem foldl_addAsn (dir : GeoDir) (ms : List (Geo × IpTotalRow)) (a : AsnAcc) : (ms.foldl (addAsn dir) a).toGeoSum =
      a.toGeoSum + total (fun m => rowSum dir m.2) ms ∧ (ms.foldl (addAsn dir) a).asn = a.asn ∧
    (ms.foldl (addAsn dir) a).byCc =
      ms.foldl (into (fun m => m.1.cc) (fun _ => 0) fun b m => b + pick dir m.2.tx m.2.rx) a.byCc := by
  induction ms generalizing a with
  | nil => exact ⟨(add_zero _).symm, rfl, rfl⟩
  | cons m ms ih =>
      obtain ⟨hsum, hasn, hcc⟩ := ih (addAsn dir a m)
      rw [List.foldl_cons, List.foldl_cons, hsum, hasn, hcc, total_cons, ← add_assoc]
      exact ⟨rfl, rfl, rfl⟩

theorem asn_of_get? (h : (groupFold (fun m => m.1.asn) freshAsn (addAsn dir) ms).get? n = some a) : a.asn = n ∧
    a.toGeoSum = total (fun m => rowSum dir m.2) (ofKey (fun m => m.1.asn) n ms) ∧
    a.byCc = byCountry dir (ofKey (fun m => m.1.asn) n ms) := by
  rw [get?_groupFold] at h
  cases hof : ofKey (fun m : Geo × IpTotalRow => m.1.asn) n ms with
  | nil =>
      rw [hof] at h
      cases h
  | cons m ms' =>
      rw [hof] at h
      cases h
      obtain ⟨hsum, hasn, hcc⟩ := foldl_addAsn dir (m :: ms') (freshAsn m)
      have hm : m ∈ ofKey (fun m : Geo × IpTotalRow => m.1.asn) n ms := hof ▸ List.mem_cons_self
      rw [hsum, hasn, hcc]
      exact ⟨(mem_ofKey.mp hm).2, zero_add _, rfl⟩

theorem foldl_addCountry (ms : List (Geo × IpTotalRow)) (c : CountryRow) :
    ms.foldl (addCountry dir) c = ⟨c.toGeoSum + total (fun m => rowSum dir m.2) ms, c.country⟩ := by
  induction ms generalizing c with
  | nil => rfl
  | cons m ms ih =>
      rw [List.foldl_cons, ih, total_cons, ← add_assoc]
      rfl

theorem country_of_get? (h : (groupFold (fun m => m.1.cc) freshCountry (addCountry dir) ms).get? cc = some c) :
    c = ⟨total (fun m => rowSum dir m.2) (ofKey (fun m => m.1.cc) cc ms), cc⟩ := by
  rw [get?_groupFold] at h
  cases hof : ofKey (fun m : Geo × IpTotalRow => m.1.cc) cc ms with
  | nil =>
      rw [hof] at h
      cases h
  | cons m ms' =>
      rw [hof] at h
      cases h
      have hm : m ∈ ofKey (fun m : Geo × IpTotalRow => m.1.cc) cc ms := hof ▸ List.mem_cons_self
      have hcc : m.1.cc = cc := (mem_ofKey.mp hm).2
      rw [foldl_addCountry, freshCountry, hcc]
      exact congrArg (CountryRow.mk · cc) (zero_add _)

def AsnRow.withoutOrg (a : AsnRow) : AsnRow := { a with org := [] }

def asnRow (dir : GeoDir) (ms : List (Geo × IpTotalRow)) (n : ℤ) : AsnRow :=
  let own := ofKey (fun m => m.1.asn) n ms
  ⟨total (fun m => rowSum dir m.2) own, n, [], bestCountry (byCountry dir own)⟩

def countryRow (dir : GeoDir) (ms : List (Geo × IpTotalRow)) (cc : Units) : CountryRow :=
  ⟨total (fun m => rowSum dir m.2) (ofKey (fun m => m.1.cc) cc ms), cc⟩

theorem asn_rows (ms : List (Geo × IpTotalRow)) :
    (((groupFold (fun m => m.1.asn) freshAsn (addAsn dir) ms).values.map AsnAcc.row).map AsnRow.withoutOrg).Perm
      ((ms.map fun m => m.1.asn).dedup.map (asnRow dir ms)) := by
  rw [List.map_map]
  apply values_perm
  intro n a ha
  obtain ⟨hasn, hsum, hcc⟩ := asn_of_get? ha
  simp only [Function.comp_apply, AsnAcc.row, AsnRow.withoutOrg, asnRow, hasn, hsum, hcc]

theorem country_rows (dir : GeoDir) (ms : List (Geo × IpTotalRow)) :
    (groupFold (fun m => m.1.cc) freshCountry (addCountry dir) ms).values.Perm
      ((ms.map fun m => m.1.cc).dedup.map (countryRow dir ms)) := by
  have h : ((groupFold (fun m => m.1.cc) freshCountry (addCountry dir) ms).values.map id).Perm _ :=
    values_perm id (countryRow dir ms) fun cc c hc => country_of_get? hc
  rwa [List.map_id] at h

end Rows

section Breakdown

variable {perIp perIp' : List IpTotalRow} {totals : Option TotalsRow} {r : Range} {dir : GeoDir} {lookup : Option Lookup}

theorem build_asns : (buildGeoBreakdown perIp totals r dir lookup).asns = largestFirst (fun a => a.bytes) AsnRow.asn
    ((groupFold (fun m => m.1.asn) freshAsn (addAsn dir) (matched lookup perIp)).values.map AsnAcc.row) := by
  rw [buildGeoBreakdown, tally_eq]

theorem build_countries : (buildGeoBreakdown perIp totals r dir lookup).countries =
    largestFirst (fun c => c.bytes) CountryRow.country
      (groupFold (fun m => m.1.cc) freshCountry (addCountry dir) (known lookup perIp)).values := by
  rw [buildGeoBreakdown, tally_eq]

theorem asns_withoutOrg : (buildGeoBreakdown perIp totals r dir lookup).asns.map AsnRow.withoutOrg =
    largestFirst (fun a => a.bytes) AsnRow.asn
      (((matched lookup perIp).map fun m => m.1.asn).dedup.map (asnRow dir (matched lookup perIp))) := by
  have hmap : ∀ l : List AsnRow, (largestFirst (fun a => a.bytes) AsnRow.asn l).map AsnRow.withoutOrg =
      largestFirst (fun a => a.bytes) AsnRow.asn (l.map AsnRow.withoutOrg) :=
    map_largestFirst AsnRow.withoutOrg (fun _ => rfl) (fun _ => rfl)
  rw [build_asns, hmap]
  apply largestFirst_congr (asn_rows _)
  rw [((asn_rows (matched lookup perIp)).map AsnRow.asn).nodup_iff, List.map_map]
  exact (List.nodup_dedup _).map fun _ _ h => h

theorem mem_asns {a : AsnRow} (ha : a ∈ (buildGeoBreakdown perIp totals r dir lookup).asns) :
    a.asn ∈ (matched lookup perIp).map (fun m => m.1.asn) ∧ a.withoutOrg = asnRow dir (matched lookup perIp) a.asn := by
  have hmem := List.mem_map_of_mem (f := AsnRow.withoutOrg) ha
  rw [asns_withoutOrg, (largestFirst_perm _).mem_iff] at hmem
  obtain ⟨n, hn, heq⟩ := List.mem_map.mp hmem
  have hasn : n = a.asn := congrArg AsnRow.asn heq
  subst hasn
  exact ⟨List.mem_dedup.mp hn, heq.symm⟩

theorem asns_nodup : ((buildGeoBreakdown perIp totals r dir lookup).asns.map AsnRow.asn).Nodup := by
  have hkeys : (buildGeoBreakdown perIp totals r dir lookup).asns.map AsnRow.asn =
      ((buildGeoBreakdown perIp totals r dir lookup).asns.map AsnRow.withoutOrg).map AsnRow.asn := by
    rw [List.map_map]
    rfl
  rw [hkeys, asns_withoutOrg, ((largestFirst_perm _).map AsnRow.asn).nodup_iff, List.map_map]
  exact (List.nodup_dedup _).map fun _ _ h => h

theorem asns_total : total AsnRow.toGeoSum (buildGeoBreakdown perIp totals r dir lookup).asns =
    total (fun m => rowSum dir m.2) (matched lookup perIp) := by
  have hmap := total_map AsnRow.toGeoSum AsnRow.withoutOrg (buildGeoBreakdown perIp totals r dir lookup).asns
  rw [asns_withoutOrg, total_perm (largestFirst_perm _), total_map] at hmap
  exact hmap.symm.trans (sum_keys _)

theorem countries_total : total CountryRow.toGeoSum (buildGeoBreakdown perIp totals r dir lookup).countries =
    total (fun m => rowSum dir m.2) (known lookup perIp) := by
  rw [build_countries, total_perm (largestFirst_perm _), total_perm (country_rows _ _), total_map]
  exact sum_keys _

theorem byCountry_leading {ms : List (Geo × IpTotalRow)} (hms : ms ≠ []) :
    Leading (byCountry dir ms).get? (bestCountry (byCountry dir ms)) := by
  apply bestCountry_leading
  obtain ⟨m, hm⟩ := List.exists_mem_of_ne_nil _ hms
  have hkey : m.1.cc ∈ (byCountry dir ms).entries.map Prod.fst := mem_keys_groupFold.mpr (List.mem_map_of_mem hm)
  intro hnil
  rw [hnil] at hkey
  cases hkey

/-- A number's country is the leading one of its addresses. -/
theorem asn_country {a : AsnRow} (ha : a ∈ (buildGeoBreakdown perIp totals r dir lookup).asns) :
    Leading (byCountry dir (ofKey (fun m => m.1.asn) a.asn (matched lookup perIp))).get? a.country := by
  obtain ⟨hasn, heq⟩ := mem_asns ha
  have hcountry : a.country = bestCountry (byCountry dir (ofKey (fun m => m.1.asn) a.asn (matched lookup perIp))) :=
    congrArg AsnRow.country heq
  rw [hcountry]
  exact byCountry_leading (ofKey_ne_nil.mpr hasn)

theorem byCountry_perm {ms ms' : List (Geo × IpTotalRow)} (h : ms.Perm ms') :
    (byCountry dir ms).get? = (byCountry dir ms').get? := by
  funext cc
  have hof : (ofKey (fun m => m.1.cc) cc ms).Perm (ofKey (fun m => m.1.cc) cc ms') := ofKey_perm h
  rw [byCountry, byCountry, get?_sumBy, get?_sumBy, total_perm hof]
  exact if_congr (by rw [← List.length_eq_zero_iff, hof.length_eq, List.length_eq_zero_iff]) rfl rfl

theorem asnRow_perm {ms ms' : List (Geo × IpTotalRow)} (h : ms.Perm ms') {n : ℤ} (hn : n ∈ ms.map fun m => m.1.asn) :
    asnRow dir ms n = asnRow dir ms' n := by
  have hn' := (h.map fun m => m.1.asn).mem_iff.mp hn
  have hof : (ofKey (fun m => m.1.asn) n ms).Perm (ofKey (fun m => m.1.asn) n ms') := ofKey_perm h
  have hlead : Leading (byCountry dir (ofKey (fun m => m.1.asn) n ms)).get? _ := byCountry_leading (ofKey_ne_nil.mpr hn)
  have hlead' : Leading (byCountry dir (ofKey (fun m => m.1.asn) n ms')).get? _ := byCountry_leading (ofKey_ne_nil.mpr hn')
  rw [← byCountry_perm hof] at hlead'
  rw [asnRow, asnRow, total_perm hof, hlead.unique hlead']

theorem build_perm (h : perIp.Perm perIp') :
    (buildGeoBreakdown perIp totals r dir lookup).base = (buildGeoBreakdown perIp' totals r dir lookup).base ∧
    (buildGeoBreakdown perIp totals r dir lookup).asns.map AsnRow.withoutOrg =
      (buildGeoBreakdown perIp' totals r dir lookup).asns.map AsnRow.withoutOrg ∧
    (buildGeoBreakdown perIp totals r dir lookup).countries = (buildGeoBreakdown perIp' totals r dir lookup).countries := by
  have hms : (matched lookup perIp).Perm (matched lookup perIp') := matched_perm h
  have hknown : (known lookup perIp).Perm (known lookup perIp') := known_perm h
  refine ⟨?_, ?_, ?_⟩
  · simp only [buildGeoBreakdown, tally_eq, h.length_eq, total_perm h, total_perm (h.filter _)]
  · have hrows : ((matched lookup perIp).map fun m => m.1.asn).dedup.map (asnRow dir (matched lookup perIp)) =
        ((matched lookup perIp).map fun m => m.1.asn).dedup.map (asnRow dir (matched lookup perIp')) :=
      List.map_congr_left fun n hn => asnRow_perm hms (List.mem_dedup.mp hn)
    rw [asns_withoutOrg, asns_withoutOrg, hrows]
    apply largestFirst_congr ((hms.map _).dedup.map _)
    rw [List.map_map]
    exact (List.nodup_dedup _).map fun _ _ h => h
  · have hrow : countryRow dir (known lookup perIp) = countryRow dir (known lookup perIp') := by
      funext cc
      rw [countryRow, countryRow, total_perm (ofKey_perm hknown)]
    have hperm := ((country_rows dir (known lookup perIp)).trans
      (hrow ▸ (hknown.map _).dedup.map _)).trans (country_rows dir (known lookup perIp')).symm
    rw [build_countries, build_countries]
    apply largestFirst_congr hperm
    rw [((country_rows _ _).map CountryRow.country).nodup_iff, List.map_map]
    exact (List.nodup_dedup _).map fun _ _ h => h

/-- Every byte is in one place: in the sums apart or in the row of one number. The numbers are in
order, each with its leading country; the countries have the bytes of the addresses whose country is
known; and but for the organisations, nothing depends on the order of the rows. -/
theorem breakdown_accounts (perIp : List IpTotalRow) (totals : Option TotalsRow) (r : Range) (dir : GeoDir) (lookup : Option Lookup) :
    let b := buildGeoBreakdown perIp totals r dir lookup
    (b.base.localSum + b.base.unmatched + total AsnRow.toGeoSum b.asns = total (rowSum dir) perIp ∧
      b.base.coverage.bytes = (total (rowSum dir) perIp).bytes ∧ b.base.coverage.ips = (total (rowSum dir) perIp).ips) ∧
    ((b.asns.map AsnRow.asn).Nodup ∧ b.asns.Pairwise fun a a' => a'.bytes < a.bytes ∨ a.bytes = a'.bytes ∧ a.asn < a'.asn) ∧
    total CountryRow.toGeoSum b.countries = total (fun m => rowSum dir m.2) (known lookup perIp) ∧
    (∀ a ∈ b.asns, a.toGeoSum = total (fun m => rowSum dir m.2) (ofKey (fun m => m.1.asn) a.asn (matched lookup perIp)) ∧
      Leading (byCountry dir (ofKey (fun m => m.1.asn) a.asn (matched lookup perIp))).get? a.country) ∧
    ∀ perIp' : List IpTotalRow, perIp.Perm perIp' →
      let b' := buildGeoBreakdown perIp' totals r dir lookup
      b.base = b'.base ∧ b.asns.map AsnRow.withoutOrg = b'.asns.map AsnRow.withoutOrg ∧ b.countries = b'.countries := by
  intro b
  refine ⟨⟨?_, ?_, ?_⟩, ⟨asns_nodup, ?_⟩, countries_total, fun a ha => ⟨?_, asn_country ha⟩, fun perIp' => build_perm⟩
  · rw [asns_total, ← total_places lookup perIp]
    simp only [b, buildGeoBreakdown, tally_eq]
  · rw [total_bytes]
    simp only [b, buildGeoBreakdown, tally_eq]
  · rw [total_ips]
    rfl
  · have hasns : b.asns = _ := build_asns
    have hsorted : b.asns.Pairwise _ := hasns ▸ largestFirst_pairwise _
    have hne : b.asns.Pairwise fun a a' => a.asn ≠ a'.asn := List.pairwise_map.mp asns_nodup
    exact (hsorted.and hne).imp fun h => h.1.imp id fun heq => ⟨heq.1, lt_of_le_of_ne heq.2 h.2⟩
  · exact congrArg AsnRow.toGeoSum (mem_asns ha).2

end Breakdown

end NetWatch.History.AsnCountries
