import NetWatch.Lib.Assoc
import NetWatch.Lib.JsValue
import Mathlib.Data.List.Induction
import Mathlib.Data.List.Perm.Subperm

namespace NetWatch.Charts.Palette

open Lib.Assoc Lib.JsValue

def slotCount : ℕ := 8

def releaseMs : ℤ := 60000

structure Held where
  slot : ℕ
  lastSeen : ℤ
  deriving DecidableEq

abbrev Slots := Dict Units Held

/-- The least number that is not used; one of the first `used.length + 1` is free. -/
def lowestFree (used : List ℕ) : ℕ := ((List.range (used.length + 1)).find? (· ∉ used)).getD used.length

structure Pass where
  slots : Slots
  used : List ℕ
  out : Dict Units ℤ

def start (now : ℤ) (slots : Slots) : Pass :=
  let kept := slots.filter fun _ s => ¬ releaseMs < now - s.lastSeen
  ⟨kept, kept.values.map Held.slot, .empty⟩

def reach (now : ℤ) (p : Pass) (name : Units) : Pass :=
  match p.slots.get? name with
  | some s => ⟨p.slots.insert name ⟨s.slot, now⟩, p.used, p.out.insert name s.slot⟩
  | none =>
      let slot := lowestFree p.used
      if slotCount ≤ slot then { p with out := p.out.insert name (-1) }
      else ⟨p.slots.insert name ⟨slot, now⟩, slot :: p.used, p.out.insert name slot⟩

def assign (names : List Units) (now : ℤ) (slots : Slots) : Pass := names.foldl (reach now) (start now slots)

def release (names : List Units) (slots : Slots) : Slots := slots.filter fun name _ => name ∉ names

def slot (slots : Slots) (name : Units) : ℤ := ((slots.get? name).map fun s => (s.slot : ℤ)).getD (-1)

inductive Call
  | assign (names : List Units) (now : ℤ)
  | release (names : List Units)

def call (slots : Slots) : Call → Slots
  | .assign names now => (assign names now slots).slots
  | .release names => release names slots

def run (calls : List Call) : Slots := calls.foldl call .empty

section Free

variable {used : List ℕ}

theorem exists_free (used : List ℕ) : ∃ j ∈ List.range (used.length + 1), j ∉ used := by
  by_contra hall
  have hsub : List.range (used.length + 1) ⊆ used := fun j hj => not_not.mp fun hn => hall ⟨j, hj, hn⟩
  have hlen := (List.nodup_range.subperm hsub).length_le
  rw [List.length_range] at hlen
  exact Nat.not_succ_le_self _ hlen

theorem lowestFree_spec (used : List ℕ) : lowestFree used ∉ used ∧ ∀ j < lowestFree used, j ∈ used := by
  obtain ⟨j, hj, hfree⟩ := exists_free used
  have hsome : ((List.range (used.length + 1)).find? (· ∉ used)).isSome := List.find?_isSome.mpr ⟨j, hj, decide_eq_true hfree⟩
  obtain ⟨k, hk⟩ := Option.isSome_iff_exists.mp hsome
  have heq : lowestFree used = k := by rw [lowestFree, hk, Option.getD_some]
  obtain ⟨hnot, i, hi, hik, hbelow⟩ := List.find?_eq_some_iff_getElem.mp hk
  rw [List.getElem_range] at hik
  subst hik
  rw [heq]
  refine ⟨of_decide_eq_true hnot, fun j hj => ?_⟩
  have hused := hbelow j hj
  rw [List.getElem_range] at hused
  simpa using hused

end Free

section Pass

variable {now : ℤ} {p : Pass} {name a b : Units} {h h' : Held} {slots : Slots}

/-- A name that holds a slot keeps it; another takes the least free one, if that is a slot. -/
theorem reach_cases (now : ℤ) (p : Pass) (name : Units) :
    (∃ h, p.slots.get? name = some h ∧
      reach now p name = ⟨p.slots.insert name ⟨h.slot, now⟩, p.used, p.out.insert name h.slot⟩) ∨
    (p.slots.get? name = none ∧ lowestFree p.used < slotCount ∧ reach now p name =
      ⟨p.slots.insert name ⟨lowestFree p.used, now⟩, lowestFree p.used :: p.used, p.out.insert name (lowestFree p.used)⟩) ∨
    p.slots.get? name = none ∧ slotCount ≤ lowestFree p.used ∧ reach now p name = { p with out := p.out.insert name (-1) } := by
  unfold reach
  cases hget : p.slots.get? name with
  | some h => exact .inl ⟨h, rfl, rfl⟩
  | none =>
      by_cases hfull : slotCount ≤ lowestFree p.used
      · exact .inr (.inr ⟨rfl, hfull, if_pos hfull⟩)
      · exact .inr (.inl ⟨rfl, Nat.lt_of_not_le hfull, if_neg hfull⟩)

structure Distinct (slots : Slots) : Prop where
  lt : ∀ {name h}, slots.get? name = some h → h.slot < slotCount
  inj : ∀ {a b h h'}, slots.get? a = some h → slots.get? b = some h' → h.slot = h'.slot → a = b

structure Tidy (now : ℤ) (p : Pass) : Prop where
  distinct : Distinct p.slots
  used : ∀ j, j ∈ p.used ↔ ∃ name h, p.slots.get? name = some h ∧ h.slot = j
  recent : ∀ {name h}, p.slots.get? name = some h → now - h.lastSeen ≤ releaseMs
  out : ∀ {name h v}, p.slots.get? name = some h → p.out.get? name = some v → v = h.slot

theorem distinct_empty : Distinct .empty := ⟨nofun, nofun⟩

theorem Distinct.filter (hd : Distinct slots) (keep : Units → Held → Bool) : Distinct (slots.filter keep) := by
  have hold : ∀ {name h}, (slots.filter keep).get? name = some h → slots.get? name = some h := by
    intro name h hget
    rw [Dict.get?_filter] at hget
    exact (Option.filter_eq_some_iff.mp hget).1
  exact ⟨fun hget => hd.lt (hold hget), fun ha hb => hd.inj (hold ha) (hold hb)⟩

theorem get?_start : (start now slots).slots.get? name = some h ↔ slots.get? name = some h ∧ now - h.lastSeen ≤ releaseMs := by
  rw [start, Dict.get?_filter, Option.filter_eq_some_iff, decide_eq_true_iff, not_lt]

theorem start_tidy (hd : Distinct slots) (now : ℤ) : Tidy now (start now slots) := by
  refine ⟨hd.filter fun _ s => ¬ releaseMs < now - s.lastSeen, fun j => ?_, fun hget => (get?_start.mp hget).2, nofun⟩
  rw [start, List.mem_map]
  constructor
  · rintro ⟨h, hh, rfl⟩
    obtain ⟨name, hget⟩ := (Dict.mem_values _ h).mp hh
    exact ⟨name, h, hget, rfl⟩
  · rintro ⟨name, h, hget, rfl⟩
    exact ⟨h, (Dict.mem_values _ h).mpr ⟨name, hget⟩, rfl⟩

theorem releaseMs_nonneg : (0 : ℤ) ≤ releaseMs := by decide

theorem Tidy.insert (ht : Tidy now p) {slot : ℕ} {used : List ℕ} (hslot : slot < slotCount)
    (hown : ∀ {b h}, b ≠ name → p.slots.get? b = some h → h.slot ≠ slot) (hused : ∀ j, j ∈ used ↔ j = slot ∨ j ∈ p.used)
    (hold : ∀ {h}, p.slots.get? name = some h → h.slot = slot) :
    Tidy now ⟨p.slots.insert name ⟨slot, now⟩, used, p.out.insert name slot⟩ := by
  have hget : ∀ {b h}, (p.slots.insert name ⟨slot, now⟩).get? b = some h →
      b = name ∧ h = ⟨slot, now⟩ ∨ b ≠ name ∧ p.slots.get? b = some h := by
    intro b h hb
    rw [Dict.get?_insert] at hb
    split at hb
    · exact .inl ⟨by assumption, (Option.some.inj hb).symm⟩
    · exact .inr ⟨by assumption, hb⟩
  refine ⟨⟨fun hb => ?_, fun ha hb heq => ?_⟩, fun j => ?_, fun hb => ?_, fun hb hv => ?_⟩
  · obtain ⟨-, rfl⟩ | ⟨-, hb⟩ := hget hb
    · exact hslot
    · exact ht.distinct.lt hb
  · obtain ⟨heqa, rfl⟩ | ⟨hna, ha⟩ := hget ha
    · obtain ⟨heqb, rfl⟩ | ⟨hnb, hb⟩ := hget hb
      · exact heqa.trans heqb.symm
      · exact absurd heq.symm (hown hnb hb)
    · obtain ⟨heqb, rfl⟩ | ⟨hnb, hb⟩ := hget hb
      · exact absurd heq (hown hna ha)
      · exact ht.distinct.inj ha hb heq
  · rw [hused, ht.used]
    constructor
    · rintro (rfl | ⟨b, h, hb, rfl⟩)
      · exact ⟨name, ⟨j, now⟩, by rw [Dict.get?_insert, if_pos rfl], rfl⟩
      · by_cases hne : b = name
        · subst hne
          exact ⟨b, ⟨slot, now⟩, by rw [Dict.get?_insert, if_pos rfl], (hold hb).symm⟩
        · exact ⟨b, h, by rw [Dict.get?_insert, if_neg hne, hb], rfl⟩
    · rintro ⟨b, h, hb, rfl⟩
      obtain ⟨-, rfl⟩ | ⟨-, hb⟩ := hget hb
      · exact .inl rfl
      · exact .inr ⟨b, h, hb, rfl⟩
  · obtain ⟨-, rfl⟩ | ⟨-, hb⟩ := hget hb
    · exact (sub_self now).le.trans releaseMs_nonneg
    · exact ht.recent hb
  · dsimp only at hv
    obtain ⟨rfl, rfl⟩ | ⟨hne, hb⟩ := hget hb
    · rw [Dict.get?_insert, if_pos rfl] at hv
      exact (Option.some.inj hv).symm
    · rw [Dict.get?_insert, if_neg hne] at hv
      exact ht.out hb hv

theorem Tidy.reach (ht : Tidy now p) (name : Units) : Tidy now (reach now p name) := by
  obtain ⟨h, hget, heq⟩ | ⟨hnone, hlt, heq⟩ | ⟨hnone, -, heq⟩ := reach_cases now p name
  · rw [heq]
    refine ht.insert (ht.distinct.lt hget) (fun hne hb hs => hne (ht.distinct.inj hb hget hs)) (fun j => ?_) fun hb => ?_
    · refine ⟨.inr, ?_⟩
      rintro (rfl | hj)
      · exact (ht.used h.slot).mpr ⟨name, h, hget, rfl⟩
      · exact hj
    · rw [Option.some.inj (hget.symm.trans hb)]
  · rw [heq]
    have hfree := (lowestFree_spec p.used).1
    refine ht.insert hlt (fun _ hb hs => hfree ((ht.used _).mpr ⟨_, _, hb, hs⟩)) (fun j => List.mem_cons) fun hb => ?_
    exact absurd (hnone.symm.trans hb) nofun
  · rw [heq]
    refine ⟨ht.distinct, ht.used, ht.recent, fun {b h v} hb hv => ?_⟩
    have hne : b ≠ name := by
      rintro rfl
      exact absurd (hnone.symm.trans hb) nofun
    rw [Dict.get?_insert, if_neg hne] at hv
    exact ht.out hb hv

theorem Tidy.foldl (ht : Tidy now p) (names : List Units) : Tidy now (names.foldl (Palette.reach now) p) := by
  induction names generalizing p with
  | nil => exact ht
  | cons name names ih => exact ih (ht.reach name)

theorem reach_get? (now : ℤ) (p : Pass) (hne : a ≠ name) : (reach now p name).slots.get? a = p.slots.get? a := by
  obtain ⟨h, hget, heq⟩ | ⟨hnone, hlt, heq⟩ | ⟨hnone, -, heq⟩ := reach_cases now p name
  · rw [heq, Dict.get?_insert, if_neg hne]
  · rw [heq, Dict.get?_insert, if_neg hne]
  · rw [heq]

theorem reach_held (hget : p.slots.get? name = some h) : (reach now p name).slots.get? name = some ⟨h.slot, now⟩ := by
  rw [reach, hget, Dict.get?_insert, if_pos rfl]

theorem names_held (hget : p.slots.get? a = some h) (names : List Units) :
    (names.foldl (reach now) p).slots.get? a = some ⟨h.slot, if a ∈ names then now else h.lastSeen⟩ := by
  induction names generalizing p h with
  | nil => simpa using hget
  | cons name names ih =>
      by_cases hname : a = name
      · subst hname
        rw [List.foldl_cons, ih (reach_held hget), if_pos List.mem_cons_self, ite_self]
      · rw [List.foldl_cons, ih ((reach_get? now p hname).trans hget)]
        simp only [List.mem_cons, hname, false_or]

theorem names_origin (names : List Units) (hget : (names.foldl (reach now) p).slots.get? a = some h) :
    a ∈ names ∧ h.lastSeen = now ∨ a ∉ names ∧ p.slots.get? a = some h := by
  induction names generalizing p with
  | nil => exact .inr ⟨List.not_mem_nil, hget⟩
  | cons name names ih =>
      obtain ⟨ha, hseen⟩ | ⟨ha, hold⟩ := ih hget
      · exact .inl ⟨List.mem_cons_of_mem name ha, hseen⟩
      · by_cases hname : a = name
        · subst hname
          refine .inl ⟨List.mem_cons_self, ?_⟩
          obtain ⟨h₀, hget₀, heq⟩ | ⟨hnone, -, heq⟩ | ⟨hnone, -, heq⟩ := reach_cases now p a
          · rw [heq, Dict.get?_insert, if_pos rfl] at hold
            rw [← Option.some.inj hold]
          · rw [heq, Dict.get?_insert, if_pos rfl] at hold
            rw [← Option.some.inj hold]
          · rw [heq] at hold
            exact absurd (hnone.symm.trans hold) nofun
        · exact .inr ⟨fun hmem => (List.mem_cons.mp hmem).elim hname ha, (reach_get? now p hname).symm.trans hold⟩

/-- Without a slot for a name, all slots are held when it is reached. -/
theorem all_held (ht : Tidy now p) {after : List Units} (hout : ((name :: after).foldl (reach now) p).out.get? name = some (-1))
    {j : ℕ} (hj : j < slotCount) : ∃ other h, p.slots.get? other = some h ∧ h.slot = j := by
  have hkeeps : ∀ {h}, (reach now p name).slots.get? name = some h → False := by
    intro h hget
    have hheld : (after.foldl (reach now) (reach now p name)).slots.get? name = _ := names_held hget after
    have hslot := ((ht.reach name).foldl after).out hheld hout
    dsimp only at hslot
    omega
  obtain ⟨h, hget, -⟩ | ⟨-, -, heq⟩ | ⟨-, hfull, -⟩ := reach_cases now p name
  · exact (hkeeps (reach_held hget)).elim
  · exact (hkeeps (by rw [heq, Dict.get?_insert, if_pos rfl])).elim
  · exact (ht.used j).mp ((lowestFree_spec p.used).2 j (lt_of_lt_of_le hj hfull))

end Pass

section Calls

variable {calls more : List Call} {c : Call} {name : Units} {names : List Units} {now : ℤ} {h : Held}

def lastIncluded (name : Units) (calls : List Call) : Option ℤ :=
  calls.reverse.findSome? fun c => match c with
    | .assign names now => if name ∈ names then some now else none
    | .release _ => none

/-- No call frees the slot of a name: it is not released, and each `assign` comes at most 60 s after the last with the name. -/
def Refreshed (name : Units) (calls more : List Call) : Prop :=
  ∀ before c after, more = before ++ c :: after → match c with
    | .assign _ now => ∀ t, lastIncluded name (calls ++ before) = some t → now - t ≤ releaseMs
    | .release names => name ∉ names

theorem run_snoc (calls : List Call) (c : Call) : run (calls ++ [c]) = call (run calls) c := by
  rw [run, List.foldl_append]
  rfl

theorem lastIncluded_assign (calls : List Call) (names : List Units) (now : ℤ) :
    lastIncluded name (calls ++ [.assign names now]) = if name ∈ names then some now else lastIncluded name calls := by
  rw [lastIncluded, List.reverse_append, List.reverse_singleton, List.singleton_append, List.findSome?_cons]
  by_cases hname : name ∈ names
  · simp only [hname, if_true]
  · simp only [hname, if_false]
    rfl

theorem lastIncluded_release (calls : List Call) (names : List Units) :
    lastIncluded name (calls ++ [.release names]) = lastIncluded name calls := by
  rw [lastIncluded, List.reverse_append, List.reverse_singleton, List.singleton_append, List.findSome?_cons]
  rfl

theorem get?_release {slots : Slots} : (release names slots).get? name = some h ↔ slots.get? name = some h ∧ name ∉ names := by
  rw [release, Dict.get?_filter, Option.filter_eq_some_iff, decide_eq_true_iff]

theorem run_distinct (calls : List Call) : Distinct (run calls) := by
  induction calls using List.reverseRecOn with
  | nil => exact distinct_empty
  | append_singleton calls c ih =>
      rw [run_snoc]
      cases c with
      | assign names now => exact ((start_tidy ih now).foldl names).distinct
      | release names => exact ih.filter fun name _ => name ∉ names

theorem run_lastSeen (calls : List Call) : ∀ {name h}, (run calls).get? name = some h → lastIncluded name calls = some h.lastSeen := by
  induction calls using List.reverseRecOn with
  | nil => exact nofun
  | append_singleton calls c ih =>
      intro name h hget
      rw [run_snoc] at hget
      cases c with
      | assign names now =>
          rw [lastIncluded_assign]
          obtain ⟨hname, hseen⟩ | ⟨hname, hold⟩ := names_origin names hget
          · rw [if_pos hname, hseen]
          · rw [if_neg hname]
            exact ih (get?_start.mp hold).1
      | release names =>
          rw [lastIncluded_release]
          exact ih (get?_release.mp hget).1

theorem Refreshed.init (hr : Refreshed name calls (more ++ [c])) : Refreshed name calls more := by
  rintro before c' after rfl
  exact hr before c' (after ++ [c]) (by rw [List.append_assoc, List.cons_append])

theorem run_stable (hget : (run calls).get? name = some h) (hr : Refreshed name calls more) :
    ∃ h', (run (calls ++ more)).get? name = some h' ∧ h'.slot = h.slot := by
  induction more using List.reverseRecOn with
  | nil => exact ⟨h, by rwa [List.append_nil], rfl⟩
  | append_singleton more c ih =>
      obtain ⟨h', hget', hslot⟩ := ih hr.init
      have hlast := hr more c [] rfl
      rw [← List.append_assoc, run_snoc]
      cases c with
      | assign names now =>
          have hrecent := hlast _ (run_lastSeen _ hget')
          exact ⟨_, names_held (get?_start.mpr ⟨hget', hrecent⟩) names, hslot⟩
      | release names => exact ⟨h', get?_release.mpr ⟨hget', hlast⟩, hslot⟩

end Calls

theorem slot_insert (slots : Slots) (name other : Units) (h : Held) :
    slot (slots.insert name h) other = if other = name then (h.slot : ℤ) else slot slots other := by
  rw [slot, Dict.get?_insert, apply_ite (Option.map _), apply_ite (Option.getD · _)]
  rfl

theorem get?_out (names : List Units) (now : ℤ) (slots : Slots) (name : Units) :
    (assign names now slots).out.get? name = if name ∈ names then some (slot (assign names now slots).slots name) else none := by
  induction names using List.reverseRecOn with
  | nil => exact Dict.get?_empty name
  | append_singleton names last ih =>
      have hlast : assign (names ++ [last]) now slots = reach now (assign names now slots) last := by
        rw [assign, List.foldl_append]
        rfl
      rw [hlast, reach]
      cases hget : (assign names now slots).slots.get? last with
      | some s =>
          dsimp only
          rw [Dict.get?_insert, slot_insert, ih]
          by_cases hname : last = name <;> simp [hname, Ne.symm]
      | none =>
          have hfree : slot (assign names now slots).slots last = -1 := by rw [slot, hget]; rfl
          dsimp only
          split
          · rw [Dict.get?_insert, ih]
            by_cases hname : last = name
            · subst hname
              simp [hfree]
            · simp [Ne.symm hname]
          · rw [Dict.get?_insert, slot_insert, ih]
            by_cases hname : last = name <;> simp [hname, Ne.symm]

/-- Slots are different, stay with a name that is seen often enough, and are refused
only when all are held. Each name of a list is told its slot or -1. -/
theorem assigner_slots (calls : List Call) : Distinct (run calls) ∧
    (∀ name h more, (run calls).get? name = some h → Refreshed name calls more →
      ∃ h', (run (calls ++ more)).get? name = some h' ∧ h'.slot = h.slot) ∧
    (∀ names now name, (assign names now (run calls)).out.get? name = some (-1) →
      ∀ before after, names = before ++ name :: after → ∀ j < slotCount,
        ∃ other h, (assign before now (run calls)).slots.get? other = some h ∧ h.slot = j ∧
          (other ∈ before ∨ ∃ t, lastIncluded other calls = some t ∧ now - t ≤ releaseMs)) ∧
    ∀ names now name, (assign names now (run calls)).out.get? name =
      if name ∈ names then some (slot (run (calls ++ [.assign names now])) name) else none := by
  refine ⟨run_distinct calls, fun name h more hget hr => run_stable hget hr, ?_, fun names now name => ?_⟩
  swap
  · rw [run_snoc]
    exact get?_out names now (run calls) name
  rintro names now name hout before after rfl j hj
  have ht := (start_tidy (run_distinct calls) now).foldl before
  rw [assign, List.foldl_append] at hout
  obtain ⟨other, h, hget, hslot⟩ := all_held ht hout hj
  refine ⟨other, h, hget, hslot, ?_⟩
  obtain ⟨hmem, -⟩ | ⟨-, hold⟩ := names_origin before hget
  · exact .inl hmem
  · obtain ⟨hrun, hrecent⟩ := get?_start.mp hold
    exact .inr ⟨h.lastSeen, run_lastSeen calls hrun, hrecent⟩

/-- A name seen 60 s ago keeps its slot; the ninth of nine names finds the last slot held. -/
theorem assigner_slots_nine :
    (∃ h', (run ([.assign [units "a"] 0] ++ [.assign [] 60000])).get? (units "a") = some h' ∧ h'.slot = 0) ∧
    ∃ other h, (assign [[1], [2], [3], [4], [5], [6], [7], [8]] 60000 (run [])).slots.get? other = some h ∧ h.slot = 7 ∧
      (other ∈ [[1], [2], [3], [4], [5], [6], [7], [8]] ∨ ∃ t, lastIncluded other [] = some t ∧ 60000 - t ≤ releaseMs) := by
  have hkept : Refreshed (units "a") [.assign [units "a"] 0] [.assign [] 60000] := by
    intro before c after heq
    obtain ⟨rfl, hc⟩ | ⟨before', rfl, htail⟩ := List.cons_eq_append_iff.mp heq
    · cases hc
      rintro t ⟨⟩
      decide
    · exact absurd htail (by simp)
  refine ⟨(assigner_slots [.assign [units "a"] 0]).2.1 (units "a") ⟨0, 0⟩ [.assign [] 60000] (by decide) hkept, ?_⟩
  exact (assigner_slots []).2.2.1 [[1], [2], [3], [4], [5], [6], [7], [8], [9]] 60000 [9] (by decide)
    [[1], [2], [3], [4], [5], [6], [7], [8]] [] rfl 7 (by decide)

end NetWatch.Charts.Palette
