import Mathlib.Data.List.Basic

namespace NetWatch.Lib.SlotMap

variable {K V : Type}

/-- A preallocated element. A deleted element goes back to the free list with
its value still in place, so a pointer taken before the deletion stays usable. -/
structure Slot (K V : Type) where
  key : Option K
  val : V

abbrev Slots (K V : Type) := List (Slot K V)

namespace Slot

def entry (s : Slot K V) : Option (K × V) := s.key.map (·, s.val)

def holds [DecidableEq K] (k : K) (s : Slot K V) : Bool := s.key == some k

def hit (p : K → Bool) (s : Slot K V) : Bool := s.key.any p

end Slot

def lookup [DecidableEq K] (m : Slots K V) (k : K) : Option Nat := m.findIdx? (Slot.holds k)

def full (m : Slots K V) : Bool := m.all fun s => s.key.isSome

def insertAt (m : Slots K V) (i : Nat) (k : K) (v : V) : Slots K V := m.set i ⟨some k, v⟩

/-- Writing through an element pointer does not look at the key. -/
def update (m : Slots K V) (i : Nat) (f : V → V) : Slots K V :=
  m.modify i fun s => ⟨s.key, f s.val⟩

def entries (m : Slots K V) : List (K × V) := m.filterMap Slot.entry

def delete (p : K → Bool) (m : Slots K V) : Slots K V :=
  m.map fun s => if s.hit p then ⟨none, s.val⟩ else s

def taken (p : K → Bool) (m : Slots K V) : List (K × V) := (entries m).filter fun e => p e.1

def empty (capacity : Nat) (v : V) : Slots K V := List.replicate capacity ⟨none, v⟩

theorem entries_empty (capacity : Nat) (v : V) : entries (empty capacity v : Slots K V) = [] := by
  simp [entries, empty, Slot.entry]

theorem entries_append (l r : Slots K V) : entries (l ++ r) = entries l ++ entries r :=
  List.filterMap_append

theorem entries_free (w : V) (r : Slots K V) : entries (⟨none, w⟩ :: r) = entries r := rfl

theorem entries_used (k : K) (v : V) (r : Slots K V) :
    entries (⟨some k, v⟩ :: r) = (k, v) :: entries r := rfl

theorem lookup_some [DecidableEq K] {m : Slots K V} {k : K} {i : Nat} (h : lookup m k = some i) :
    ∃ v, m[i]? = some ⟨some k, v⟩ := by
  obtain ⟨hi, hp, -⟩ := List.findIdx?_eq_some_iff_getElem.mp h
  refine ⟨m[i].val, ?_⟩
  have hk : m[i].key = some k := by simpa [Slot.holds] using hp
  rw [List.getElem?_eq_getElem hi, ← hk]

theorem split_at {m : Slots K V} {i : Nat} {s : Slot K V} (h : m[i]? = some s) :
    ∃ l r, m = l ++ s :: r ∧ l.length = i := by
  obtain ⟨hi, rfl⟩ := List.getElem?_eq_some_iff.mp h
  exact ⟨m.take i, m.drop (i + 1), by simp, by simp; omega⟩

theorem entries_insertAt {m : Slots K V} {i : Nat} {w : V} (h : m[i]? = some ⟨none, w⟩)
    (k : K) (v : V) :
    ∃ l r, entries m = l ++ r ∧ entries (insertAt m i k v) = l ++ (k, v) :: r := by
  obtain ⟨l, r, rfl, rfl⟩ := split_at h
  refine ⟨entries l, entries r, ?_, ?_⟩
  · rw [entries_append, entries_free]
  · rw [insertAt, List.set_append_right _ _ (Nat.le_refl _), Nat.sub_self, List.set_cons_zero,
      entries_append, entries_used]

theorem entries_update {m : Slots K V} {i : Nat} {k : K} {v : V} (h : m[i]? = some ⟨some k, v⟩)
    (f : V → V) :
    ∃ l r, entries m = l ++ (k, v) :: r ∧ entries (update m i f) = l ++ (k, f v) :: r := by
  obtain ⟨l, r, rfl, rfl⟩ := split_at h
  refine ⟨entries l, entries r, ?_, ?_⟩
  · rw [entries_append, entries_used]
  · rw [update, List.modify_eq_take_cons_drop (by simp), List.take_left,
      List.getElem_append_right (Nat.le_refl _), entries_append]
    simp [entries, Slot.entry]

theorem entries_delete (p : K → Bool) (m : Slots K V) :
    entries (delete p m) = (entries m).filter fun e => !p e.1 := by
  induction m with
  | nil => rfl
  | cons s m ih =>
      rcases s with ⟨key, v⟩
      cases key with
      | none => exact ih
      | some k =>
          cases hk : p k with
          | false =>
              have hd : delete p (⟨some k, v⟩ :: m) = ⟨some k, v⟩ :: delete p m := by
                simp [delete, Slot.hit, hk]
              rw [hd, entries_used, entries_used, List.filter_cons_of_pos (by simp [hk]), ih]
          | true =>
              have hd : delete p (⟨some k, v⟩ :: m) = ⟨none, v⟩ :: delete p m := by
                simp [delete, Slot.hit, hk]
              rw [hd, entries_free, entries_used, List.filter_cons_of_neg (by simp [hk]), ih]

theorem taken_delete_perm (p : K → Bool) (m : Slots K V) :
    (taken p m ++ entries (delete p m)).Perm (entries m) := by
  rw [entries_delete]
  exact List.filter_append_perm _ _

theorem getElem?_delete {p : K → Bool} {m : Slots K V} {i : Nat} {k : K} {v : V}
    (h : m[i]? = some ⟨some k, v⟩) (hk : p k = false) : (delete p m)[i]? = some ⟨some k, v⟩ := by
  simp [delete, h, Slot.hit, hk]

theorem getElem?_update {m : Slots K V} {i : Nat} {k : K} {v : V} (j : Nat) (f : V → V)
    (h : m[i]? = some ⟨some k, v⟩) : (update m j f)[i]? = some ⟨some k, if j = i then f v else v⟩ := by
  by_cases hj : j = i
  · simp [update, hj, h]
  · simp [update, hj, h]

theorem getElem?_insertAt {m : Slots K V} {i j : Nat} {k k' : K} {v v' w : V}
    (h : m[i]? = some ⟨some k, v⟩) (hj : m[j]? = some ⟨none, w⟩) :
    (insertAt m j k' v')[i]? = some ⟨some k, v⟩ := by
  have hne : j ≠ i := by
    rintro rfl
    rw [h] at hj
    cases hj
  rw [insertAt, List.getElem?_set_ne hne, h]

end NetWatch.Lib.SlotMap
