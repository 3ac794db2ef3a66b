import Mathlib.Data.List.Basic

namespace NetWatch.Lib.Outbox

variable {R : Type}

/-- A buffered way into a table, with the rows that were given up. -/
structure Lane (R : Type) where
  buffer : List R
  table : List R
  dropped : List R

/-- What becomes of a row that leaves the buffer. A discarded row remembers how
many rows were buffered when it was. -/
inductive Fate
  | inserted
  | discarded (buffered : Nat)
  deriving DecidableEq

def rowsWith (p : Fate → Bool) (es : List (R × Fate)) : List R := (es.filter fun e => p e.2).map Prod.fst

def insertedRows (es : List (R × Fate)) : List R := rowsWith (· = .inserted) es

def discardedRows (es : List (R × Fate)) : List R := rowsWith (· ≠ .inserted) es

theorem rowsWith_append (p : Fate → Bool) (es fs : List (R × Fate)) :
    rowsWith p (es ++ fs) = rowsWith p es ++ rowsWith p fs := by
  simp only [rowsWith, List.filter_append, List.map_append]

theorem rowsWith_fate (p : Fate → Bool) (f : Fate) (rows : List R) :
    rowsWith p (rows.map fun r => (r, f)) = if p f then rows else [] := by
  induction rows with
  | nil => simp [rowsWith]
  | cons r rows ih =>
      cases hf : p f with
      | true => simpa [rowsWith, hf] using ih
      | false => simp [rowsWith, hf]

namespace Lane

def start (old : List R) : Lane R := ⟨[], old, []⟩

def put (rows : List R) (l : Lane R) : Lane R := { l with buffer := l.buffer ++ rows }

def insertAll (l : Lane R) : Lane R := { l with buffer := [], table := l.table ++ l.buffer }

def discard (n : Nat) (l : Lane R) : Lane R :=
  { l with buffer := l.buffer.drop n, dropped := l.dropped ++ l.buffer.take n }

/-- From `l` to `l'` the rows `rows` were added to a lane with room for `max`
rows, and the rows of `es` left its buffer, in this order and each once. Only a
buffer with more than `max` rows discards. -/
structure Moved (max : Nat) (l : Lane R) (rows : List R) (es : List (R × Fate)) (l' : Lane R) : Prop where
  accounted : l.buffer ++ rows = es.map Prod.fst ++ l'.buffer
  inserted : l'.table = l.table ++ insertedRows es
  discarded : l'.dropped = l.dropped ++ discardedRows es
  overfull : ∀ e ∈ es, ∀ n, e.2 = .discarded n → max < n

variable {max : Nat} {l l' l'' : Lane R} {rows rows' : List R} {es es' : List (R × Fate)}

theorem Moved.refl (max : Nat) (l : Lane R) : Moved max l [] [] l :=
  ⟨List.append_nil _, (List.append_nil _).symm, (List.append_nil _).symm, nofun⟩

theorem Moved.trans (h : Moved max l rows es l') (h' : Moved max l' rows' es' l'') :
    Moved max l (rows ++ rows') (es ++ es') l'' where
  accounted := by
    rw [← List.append_assoc, h.accounted, List.append_assoc, h'.accounted, List.map_append, List.append_assoc]
  inserted := by rw [h'.inserted, h.inserted, List.append_assoc, insertedRows, insertedRows, insertedRows, rowsWith_append]
  discarded := by
    rw [h'.discarded, h.discarded, List.append_assoc, discardedRows, discardedRows, discardedRows, rowsWith_append]
  overfull := by
    intro e he
    rcases List.mem_append.mp he with he | he
    · exact h.overfull e he
    · exact h'.overfull e he

theorem moved_put (max : Nat) (rows : List R) (l : Lane R) : Moved max l rows [] (l.put rows) :=
  ⟨rfl, (List.append_nil _).symm, (List.append_nil _).symm, nofun⟩

theorem moved_insertAll (max : Nat) (l : Lane R) :
    Moved max l [] (l.buffer.map fun r => (r, .inserted)) l.insertAll where
  accounted := by simp [insertAll, Function.comp_def]
  inserted := by simp [insertAll, insertedRows, rowsWith_fate]
  discarded := by simp [insertAll, discardedRows, rowsWith_fate]
  overfull := by
    intro e he n hn
    obtain ⟨r, -, rfl⟩ := List.mem_map.mp he
    cases hn

theorem moved_discard (n : Nat) (h : max < l.buffer.length) :
    Moved max l [] ((l.buffer.take n).map fun r => (r, .discarded l.buffer.length)) (l.discard n) where
  accounted := by simp [discard, Function.comp_def]
  inserted := by
    rw [insertedRows, rowsWith_fate]
    simp [discard]
  discarded := by
    rw [discardedRows, rowsWith_fate]
    simp [discard]
  overfull := by
    intro e he m hm
    obtain ⟨r, -, rfl⟩ := List.mem_map.mp he
    cases hm
    exact h

/-- A lane that has dropped nothing and has an empty buffer has inserted
everything. -/
theorem Moved.flushed {old : List R} (h : Moved max (start old) rows es l) (hbuf : l.buffer = [])
    (hdrop : l.dropped = []) : l.table = old ++ rows := by
  have hrows : rows = es.map Prod.fst := by simpa [start, hbuf] using h.accounted
  have hnone : discardedRows es = [] := by simpa [start, hdrop] using h.discarded.symm
  have hall : ∀ e ∈ es, e.2 = .inserted := by
    intro e he
    by_contra hne
    have hmem : e.1 ∈ discardedRows es :=
      List.mem_map_of_mem (List.mem_filter.mpr ⟨he, by simpa using hne⟩)
    rw [hnone] at hmem
    cases hmem
  rw [h.inserted, hrows, insertedRows, rowsWith, List.filter_eq_self.mpr (by simpa using hall)]
  rfl

end Lane

end NetWatch.Lib.Outbox
