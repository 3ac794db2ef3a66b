import NetWatch.Lib.Redis

namespace NetWatch.Lib.RedisTtl

open Redis

def attempt (now : Int) (c : Cell) (op : Op) : Cell := (c.exec now op).getD c

/-- MULTI/EXEC at time `now`: every command is carried out, whatever becomes of the
others. -/
def attemptAll (now : Int) (db : Db) (cmds : List (String × Op)) : Db :=
  cmds.foldl (fun db cmd => Function.update db cmd.1 (attempt now (db cmd.1) cmd.2)) fun k => (db k).purge now

theorem attempt_fold_cell (now : Int) (db : Db) (cmds : List (String × Op)) (k : String) :
    cmds.foldl (fun db cmd => Function.update db cmd.1 (attempt now (db cmd.1) cmd.2)) db k =
      (opsOf k cmds).foldl (attempt now) (db k) := by
  induction cmds generalizing db with
  | nil => rfl
  | cons cmd cmds ih =>
      rw [List.foldl_cons, ih]
      by_cases hk : cmd.1 = k
      · subst hk
        rw [Function.update_self, opsOf, opsOf, List.filter_cons_of_pos (by simp), List.map_cons, List.foldl_cons]
      · rw [Function.update_of_ne (Ne.symm hk), opsOf, opsOf, List.filter_cons_of_neg (by simpa using hk)]

theorem attemptAll_cell (now : Int) (db : Db) (cmds : List (String × Op)) (k : String) :
    attemptAll now db cmds k = (opsOf k cmds).foldl (attempt now) ((db k).purge now) :=
  attempt_fold_cell now _ cmds k

/-- A key as far as its time to live is concerned. -/
inductive Ttl
  | missing
  | lasting
  | timed
  deriving DecidableEq

def ttlOf : Cell → Ttl
  | .absent | .expired => .missing
  | .live _ none => .lasting
  | .live _ (some _) => .timed

/-- A write keeps the time to live and creates a key without one. -/
def Ttl.write : Ttl → Ttl
  | .missing => .lasting
  | s => s

def Accepted (now secs : Int) : Prop :=
  ¬ (secs < -(2 ^ 63 / 1000) ∨ 2 ^ 63 / 1000 < secs ∨ 2 ^ 63 ≤ now + secs * 1000)

instance (now secs : Int) : Decidable (Accepted now secs) := inferInstanceAs (Decidable (¬ _))

/-- EXPIRE does nothing to a missing key, and removes one at once when the time is
not positive. -/
def Ttl.expire (now secs : Int) (s : Ttl) : Ttl :=
  if Accepted now secs then if s = .missing ∨ secs ≤ 0 then .missing else .timed else s

variable {now secs : Int}

theorem ttlOf_hset (c : Cell) (fields : List (String × String)) :
    ttlOf (attempt now c (.hset fields)) = (ttlOf c).write := by
  cases c with
  | absent | expired => rfl
  | live value deadline => cases value <;> cases deadline <;> rfl

theorem ttlOf_expire (c : Cell) : ttlOf (attempt now c (.expire secs)) = (ttlOf c).expire now secs := by
  simp only [attempt, Cell.exec, Ttl.expire]
  unfold Cell.expire
  by_cases h : Accepted now secs
  · rw [if_neg h, if_pos h]
    cases c with
    | absent | expired => rfl
    | live value deadline =>
        by_cases hneg : secs ≤ 0
        · simp [hneg, ttlOf]
        · cases deadline <;> simp [hneg, ttlOf]
  · rw [if_pos (not_not.mp h), if_neg h, Option.getD_none]

@[simp] theorem write_eq_timed (s : Ttl) : s.write = .timed ↔ s = .timed := by
  cases s <;> simp [Ttl.write]

theorem write_ne_missing (s : Ttl) : s.write ≠ .missing := by
  cases s <;> simp [Ttl.write]

theorem expire_refused (h : ¬ Accepted now secs) (s : Ttl) : s.expire now secs = s := if_neg h

theorem expire_positive (h : Accepted now secs) (hpos : 0 < secs) (s : Ttl) :
    s.expire now secs = if s = .missing then .missing else .timed := by
  rw [Ttl.expire, if_pos h]
  cases s <;> simp [hpos]

theorem expire_negative (h : Accepted now secs) (hneg : secs ≤ 0) (s : Ttl) : s.expire now secs = .missing := by
  rw [Ttl.expire, if_pos h]
  cases s <;> simp [hneg]

end NetWatch.Lib.RedisTtl
