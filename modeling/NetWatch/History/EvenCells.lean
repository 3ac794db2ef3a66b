import Mathlib.Algebra.BigOperators.Group.Finset.Basic
import Mathlib.Data.Int.CardIntervalMod
import Mathlib.Tactic.Linarith
import NetWatch.History.Heatmap

namespace NetWatch.History.EvenCells

open Heatmap Lib.Assoc

theorem cellOf_eq (h : Int) : (cellOf h : Int) = (h + 72) % 168 := by
  rw [cellOf]
  omega

theorem cellOf_lt (h : Int) : cellOf h < heatmapCells := by
  have := cellOf_eq h
  simp only [heatmapCells]
  omega

theorem cellOf_add_iff {a : Int} {c j : Nat} (hc : c < 168) :
    cellOf (a + j) = c ↔ j ≡ ((c - a - 72) % 168).toNat [MOD 168] := by
  have hcell := cellOf_eq (a + j)
  rw [Nat.ModEq]
  omega

def tally (a : Int) (m : Nat) : List Nat :=
  (List.range m).foldl (fun out (j : Nat) => out.modify (cellOf (a + j)) (· + 1)) (List.replicate heatmapCells 0)

theorem tally_succ (a : Int) (m : Nat) : tally a (m + 1) = (tally a m).modify (cellOf (a + m)) (· + 1) := by
  rw [tally, List.range_succ, List.foldl_append]
  rfl

theorem getElem?_tally (a : Int) (m : Nat) {c : Nat} (hc : c < 168) :
    (tally a m)[c]? = some (Nat.count (fun j => cellOf (a + j) = c) m) := by
  induction m with
  | zero =>
      rw [tally, List.range_zero, List.foldl_nil, List.getElem?_replicate]
      exact if_pos hc
  | succ m ih =>
      rw [tally_succ, List.getElem?_modify, ih, Nat.count_succ]
      split_ifs <;> simp

theorem length_tally (a : Int) (m : Nat) : (tally a m).length = 168 := by
  induction m with
  | zero => exact List.length_replicate
  | succ m ih => rw [tally_succ, List.length_modify, ih]

theorem count_cell (a : Int) (m : Nat) {c : Nat} (hc : c < 168) :
    Nat.count (fun j => cellOf (a + j) = c) m =
      m / 168 + if ((c - a - 72) % 168).toNat < m % 168 then 1 else 0 := by
  have hiff : ∀ j : Nat, (cellOf (a + j) = c) = (j ≡ ((c - a - 72) % 168).toNat [MOD 168]) :=
    fun j => propext (cellOf_add_iff hc)
  have hv : ((c - a - 72) % 168).toNat % 168 = ((c - a - 72) % 168).toNat := by omega
  simp only [hiff]
  rw [Nat.count_modEq_card m (by omega), hv]

theorem tally_weeks (a : Int) (w : Nat) : tally a (168 * w) = List.replicate 168 w := by
  apply List.ext_getElem?
  intro c
  by_cases hc : c < 168
  · rw [getElem?_tally a _ hc, count_cell a _ hc, List.getElem?_replicate, if_pos hc, if_neg (by omega)]
    congr 1
    omega
  · rw [List.getElem?_eq_none (by rw [length_tally]; omega), List.getElem?_eq_none (by rw [List.length_replicate]; omega)]

theorem tally_hour_more (a : Int) (w : Nat) : (tally a (168 * w + 1))[cellOf a]? = some (w + 1) := by
  have hc : cellOf a < 168 := cellOf_lt a
  have hfirst : ((cellOf a - a - 72) % 168).toNat = 0 := by
    have := cellOf_eq a
    omega
  rw [getElem?_tally a _ hc, count_cell a _ hc, hfirst, if_pos (by omega)]
  congr 1
  omega

/-- The loop over quarters of an hour counts each local hour once. -/
theorem count_quarters {tz : Zone} {a first : Int} {r : Nat} (hr : r < 4)
    (hour : ∀ i : Nat, localHour tz (first + i * quarterMs) = a + ((i + r) / 4 : Nat)) (n : Nat) :
    ((List.range (n + 1)).map fun i : Nat => first + i * quarterMs).foldl (Counting.step tz) .start =
      ⟨some (a + ((n + r) / 4 : Nat)), tally a ((n + r) / 4 + 1)⟩ := by
  induction n with
  | zero =>
      have hzero : (0 + r) / 4 = 0 := by omega
      rw [List.range_one, List.map_singleton, List.foldl_cons, List.foldl_nil, Counting.step, hour 0, hzero, if_neg nofun]
      rfl
  | succ n ih =>
      rw [List.range_succ, List.map_append, List.foldl_append, ih, List.map_singleton, List.foldl_cons, List.foldl_nil,
        Counting.step, hour (n + 1)]
      by_cases hsame : (n + 1 + r) / 4 = (n + r) / 4
      · rw [hsame, if_pos rfl]
      · have hnext : (n + 1 + r) / 4 = (n + r) / 4 + 1 := by omega
        have hne : (some (a + ((n + r) / 4 : Nat)) : Option Int) ≠ some (a + ((n + 1 + r) / 4 : Nat)) := by
          intro h
          have := Option.some.inj h
          omega
        rw [if_neg hne, hnext, tally_succ a ((n + r) / 4 + 1)]

/-- A timezone whose offset is always the same number of quarters of an hour. -/
def fixedZone (k : Int) : Zone := fun _ => k * quarterMs

theorem localHour_fixed (g k : Int) (i : Nat) :
    localHour (fixedZone k) (g * hourMs + i * quarterMs) = g + k / 4 + ((i + (k % 4).toNat) / 4 : Nat) := by
  simp only [localHour, fixedZone, hourMs, quarterMs]
  omega

theorem quarters_window {w : Nat} (now : Int) :
    quarters (heatWindow w now).1 (heatWindow w now).2 =
      (List.range (672 * w)).map fun i : Nat => (now / hourMs - 168 * w) * hourMs + i * quarterMs := by
  have hfirst : (heatWindow w now).1 / quarterMs * quarterMs = (now / hourMs - 168 * w) * hourMs := by
    simp only [heatWindow, hourMs, quarterMs, weekMs]
    omega
  have hcount : (((heatWindow w now).2 - (now / hourMs - 168 * w) * hourMs + quarterMs - 1) / quarterMs).toNat =
      672 * w := by
    simp only [heatWindow, hourMs, quarterMs]
    omega
  rw [quarters, hfirst, hcount]

/-- An offset of whole hours gives the local hours of the window, any other one
more, of which the first and the last are cut. -/
theorem samples_window {w : Nat} (hw : 0 < w) (now k : Int) :
    sampleCounts (heatWindow w now).1 (heatWindow w now).2 (fixedZone k) =
      tally (now / hourMs - 168 * w + k / 4) (168 * w + if k % 4 = 0 then 0 else 1) := by
  obtain ⟨n, hn⟩ : ∃ n, 672 * w = n + 1 := ⟨672 * w - 1, by omega⟩
  have hlast : (n + (k % 4).toNat) / 4 + 1 = 168 * w + if k % 4 = 0 then 0 else 1 := by
    split_ifs
    · omega
    · omega
  rw [sampleCounts, quarters_window, hn, count_quarters (by omega) (localHour_fixed (now / hourMs - 168 * w) k) n, hlast]

def cellMs (tz : Zone) (window : Int × Int) (c : Nat) : Nat :=
  Nat.count (fun t : Nat => cellOf (localHour tz (window.1 + t)) = c) (window.2 - window.1).toNat

theorem card_residue (v w : Nat) : ((Finset.range (w * 604800000)).filter fun t => t ≡ v [MOD 604800000]).card = w := by
  rw [← Nat.count_eq_card_filter_range, Nat.count_modEq_card _ (by norm_num), Nat.mul_div_cancel _ (by norm_num),
    Nat.mul_mod_left, if_neg (Nat.not_lt_zero _), Nat.add_zero]

theorem cellMs_window (w : Nat) (now k : Int) {c : Nat} (hc : c < 168) :
    cellMs (fixedZone k) (heatWindow w now) c = w * 3600000 := by
  have hlong : ((heatWindow w now).2 - (heatWindow w now).1).toNat = w * 604800000 := by
    simp only [heatWindow, weekMs, hourMs]
    omega
  rw [cellMs, hlong, Nat.count_eq_card_filter_range]
  generalize (heatWindow w now).1 = a
  -- how far a time is into the hour of the cell
  let past (t : Nat) : Nat := ((a + t + k * quarterMs - (c - 72) * hourMs) % weekMs).toNat
  have hmaps : ∀ t ∈ (Finset.range (w * 604800000)).filter fun t : Nat => cellOf (localHour (fixedZone k) (a + t)) = c,
      past t ∈ Finset.range 3600000 := by
    intro t ht
    have hcell := cellOf_eq (localHour (fixedZone k) (a + t))
    rw [(Finset.mem_filter.mp ht).2] at hcell
    simp only [localHour, fixedZone, hourMs, quarterMs] at hcell
    simp only [past, Finset.mem_range, weekMs, hourMs, quarterMs]
    omega
  have hfiber : ∀ p ∈ Finset.range 3600000,
      (((Finset.range (w * 604800000)).filter fun t : Nat => cellOf (localHour (fixedZone k) (a + t)) = c).filter
        fun t => past t = p).card = w := by
    intro p hp
    have hresidue := card_residue ((p - a - k * quarterMs + (c - 72) * hourMs) % weekMs).toNat w
    rw [Finset.filter_filter]
    refine (congrArg Finset.card (Finset.filter_congr fun t _ => ?_)).trans hresidue
    have hcell := cellOf_eq (localHour (fixedZone k) (a + t))
    have hlt := cellOf_lt (localHour (fixedZone k) (a + t))
    simp only [localHour, fixedZone, hourMs, quarterMs, heatmapCells] at hcell hlt
    simp only [Finset.mem_range] at hp
    simp only [past, Nat.ModEq, weekMs, hourMs, quarterMs, localHour, fixedZone]
    omega
  rw [Finset.card_eq_sum_card_fiberwise hmaps, Finset.sum_const_nat hfiber, Finset.card_range, mul_comm]

def cellBytes (rows : List HeatmapRow) (key : String) (c : Nat) : ℚ :=
  (rows.filter fun r => r.key = key ∧ r.cell = (c : Int)).foldl (fun b r => Lib.Binary64.add b (Lib.Binary64.round r.bytes)) 0

theorem cellBytes_snoc (rows : List HeatmapRow) (r : HeatmapRow) (key : String) (c : Nat) :
    cellBytes (rows ++ [r]) key c = if r.key = key ∧ r.cell = (c : Int)
      then Lib.Binary64.add (cellBytes rows key c) (Lib.Binary64.round r.bytes) else cellBytes rows key c := by
  rw [cellBytes, List.filter_append, List.foldl_append, ← cellBytes]
  split_ifs with h
  · rw [List.filter_cons_of_pos (by simpa using h)]
    rfl
  · rw [List.filter_cons_of_neg (by simpa using h)]
    rfl

theorem summed (rows : List HeatmapRow) (key : String) {c : Nat} (hc : c < 168) :
    (((rows.foldl addRow .empty).get? key).getD .empty).bytes[c]? = some (cellBytes rows key c) := by
  induction rows using List.reverseRecOn with
  | nil =>
      rw [List.foldl_nil, Dict.get?_empty, Option.getD_none, Cells.empty, List.getElem?_replicate]
      exact if_pos hc
  | append_singleton rows r ih =>
      rw [List.foldl_append, List.foldl_cons, List.foldl_nil, cellBytes_snoc, addRow]
      by_cases hvalid : 0 ≤ r.cell ∧ r.cell < heatmapCells
      · rw [if_pos hvalid, Dict.get?_insert]
        by_cases hkey : key = r.key
        · subst hkey
          rw [if_pos rfl, Option.getD_some, Cells.add, List.getElem?_modify, ih, Option.map_eq_map, Option.map_some]
          by_cases hcell : r.cell = (c : Int)
          · have hnat : r.cell.toNat = c := by omega
            rw [if_pos hnat, if_pos ⟨rfl, hcell⟩]
          · have hnat : r.cell.toNat ≠ c := by omega
            rw [if_neg hnat, if_neg fun h => hcell h.2]
        · rw [if_neg hkey, ih, if_neg fun h => hkey h.1.symm]
      · rw [if_neg hvalid, ih, if_neg]
        rintro ⟨-, hcell⟩
        simp only [heatmapCells] at hvalid
        omega

/-- Every cell of the window gets one sample a week, and its bytes are divided by
the hours that the window has of it. -/
structure Even (weeks : HeatWeeks) (now : Int) (tz : Zone) : Prop where
  samples : sampleCounts (heatWindow weeks.num now).1 (heatWindow weeks.num now).2 tz =
    List.replicate heatmapCells weeks.num
  divides : ∀ (compare : Option String → Option String → Bool) (rows : List HeatmapRow) (byApp : Bool),
    ∀ g ∈ buildHeatmap compare rows byApp (sampleCounts (heatWindow weeks.num now).1 (heatWindow weeks.num now).2 tz),
      ∃ key, g.key = (if byApp then some key else none) ∧ ∀ c < heatmapCells, g.kbps[c]? =
        some (some (rate (cellBytes rows key c) (cellMs tz (heatWindow weeks.num now) c / hourMs : ℚ)))

theorem HeatWeeks.pos (weeks : HeatWeeks) : 0 < weeks.num := by
  cases weeks with
  | one | four | twelve => decide

/-- The cells are even just when the offset of the timezone is whole hours. -/
theorem even_iff (weeks : HeatWeeks) (now k : Int) : Even weeks now (fixedZone k) ↔ k * quarterMs % hourMs = 0 := by
  have hwhole : k * quarterMs % hourMs = 0 ↔ k % 4 = 0 := by
    simp only [quarterMs, hourMs]
    omega
  have hsamples := samples_window (HeatWeeks.pos weeks) now k
  rw [hwhole]
  constructor
  · intro h
    by_contra hk
    rw [h.samples, if_neg hk] at hsamples
    have hmore := tally_hour_more (now / hourMs - 168 * weeks.num + k / 4) weeks.num
    rw [← hsamples, List.getElem?_replicate, if_pos (cellOf_lt _)] at hmore
    have := Option.some.inj hmore
    omega
  · intro hk
    rw [if_pos hk, Nat.add_zero, tally_weeks] at hsamples
    refine ⟨hsamples, ?_⟩
    intro compare rows byApp g hg
    rw [hsamples, buildHeatmap, List.mem_mergeSort] at hg
    obtain ⟨⟨key, cells⟩, he, rfl⟩ := List.mem_map.mp hg
    refine ⟨key, rfl, fun c hlt => ?_⟩
    have hc : c < 168 := hlt
    have hget : (rows.foldl addRow .empty).get? key = some cells := (Dict.mem_iff_get? _ _ _).mp he
    have hbytes := summed rows key hc
    rw [hget, Option.getD_some] at hbytes
    have hhours : (cellMs (fixedZone k) (heatWindow weeks.num now) c / hourMs : ℚ) = weeks.num := by
      rw [cellMs_window weeks.num now k hc, hourMs]
      push_cast
      ring
    rw [hhours, grid, List.getElem?_zipWith, hbytes, List.getElem?_replicate, if_pos hc]
    simp only [if_pos (HeatWeeks.pos weeks)]

/-- India, on 2026-09-19 at 10:42 UTC. -/
theorem half_hour_uneven : ¬ ∀ (weeks : HeatWeeks) (now k : Int), Even weeks now (fixedZone k) := by
  intro h
  have hsamples := (h .four 1789814533000 22).samples
  have hmore := tally_hour_more (1789814533000 / hourMs - 168 * (HeatWeeks.four.num : Int) + 22 / 4) HeatWeeks.four.num
  rw [samples_window (HeatWeeks.pos .four)] at hsamples
  change tally _ (168 * HeatWeeks.four.num + 1) = _ at hsamples
  rw [hsamples] at hmore
  exact absurd hmore (by decide +kernel)

end NetWatch.History.EvenCells
