import Mathlib.Data.Int.Order.Basic
import Mathlib.Data.List.Sort
import Mathlib.Logic.Function.Basic
import NetWatch.Lib.Assoc
import NetWatch.Lib.Runs

namespace NetWatch.Lib.Redis

open Assoc Runs

/-- The values of a Redis database. The entries of streams are left out. -/
inductive Value
  | str (s : String)
  | hash (h : String → Option String)
  | set (members : List String)
  | zset (scores : Dict String Int)
  | stream

/-- What is stored under one key. A key that is missing because its time to live
has run out since it was last written is told apart from one that is not there. -/
inductive Cell
  | absent
  | expired
  | live (value : Value) (deadline : Option Int)

inductive Op
  | set (val : String)
  | xadd
  | hset (fields : List (String × String))
  | del
  | sadd (member : String)
  | srem (member : String)
  | zadd (member : String) (score : Int)
  | zremrangebyscore (max : Int)
  | expire (secs : Int)

def setFields (h : String → Option String) (fields : List (String × String)) : String → Option String :=
  fields.foldl (fun h f => Function.update h f.1 (some f.2)) h

namespace Cell

def hset (fields : List (String × String)) : Cell → Option Cell
  | .live (.hash h) deadline => some (.live (.hash (setFields h fields)) deadline)
  | .live _ _ => none
  | .absent | .expired => some (.live (.hash (setFields (fun _ => none) fields)) none)

def sadd (member : String) : Cell → Option Cell
  | .live (.set ms) deadline => some (.live (.set (if member ∈ ms then ms else ms ++ [member])) deadline)
  | .live _ _ => none
  | .absent | .expired => some (.live (.set [member]) none)

/-- A set that becomes empty is removed. -/
def srem (member : String) : Cell → Option Cell
  | .live (.set ms) deadline =>
    let left := ms.filter (· ≠ member)
    some (if left = [] then .absent else .live (.set left) deadline)
  | .live _ _ => none
  | c => some c

def zadd (member : String) (score : Int) : Cell → Option Cell
  | .live (.zset z) deadline => some (.live (.zset (z.insert member score)) deadline)
  | .live _ _ => none
  | .absent | .expired => some (.live (.zset (Dict.empty.insert member score)) none)

def zremrangebyscore (max : Int) : Cell → Option Cell
  | .live (.zset z) deadline =>
    let left := z.filter fun _ score => max < score
    some (if left.entries = [] then .absent else .live (.zset left) deadline)
  | .live _ _ => none
  | c => some c

def xadd : Cell → Option Cell
  | .live .stream deadline => some (.live .stream deadline)
  | .live _ _ => none
  | .absent | .expired => some (.live .stream none)

/-- A time to live that does not fit in 64 bits of milliseconds is refused, and
one that is not positive removes the key at once. -/
def expire (now secs : Int) (c : Cell) : Option Cell :=
  if secs < -(2 ^ 63 / 1000) ∨ 2 ^ 63 / 1000 < secs ∨ 2 ^ 63 ≤ now + secs * 1000 then none
  else
    match c with
    | .live value _ => some (if secs ≤ 0 then .expired else .live value (some (now + secs * 1000)))
    | c => some c

/-- One command on its key. `none` is an error reply. -/
def exec (now : Int) (c : Cell) : Op → Option Cell
  | .set val => some (.live (.str val) none)
  | .xadd => c.xadd
  | .hset fields => c.hset fields
  | .del => some .absent
  | .sadd member => c.sadd member
  | .srem member => c.srem member
  | .zadd member score => c.zadd member score
  | .zremrangebyscore max => c.zremrangebyscore max
  | .expire secs => c.expire now secs

def purge (now : Int) : Cell → Cell
  | .live value deadline => if deadline.any (· ≤ now) then .expired else .live value deadline
  | c => c

end Cell

abbrev Db := String → Cell

def step (now : Int) (db : Db) (cmd : String × Op) : Option Db :=
  ((db cmd.1).exec now cmd.2).map (Function.update db cmd.1)

/-- MULTI/EXEC at time `now`: all commands or, when one of them is refused,
none. -/
def transaction (now : Int) (db : Db) (cmds : List (String × Op)) : Option Db :=
  Runs.exec (step now) (fun k => (db k).purge now) cmds

def opsOf (k : String) (cmds : List (String × Op)) : List Op := (cmds.filter fun c => c.1 = k).map Prod.snd

theorem exec_cell {now : Int} {db db' : Db} {cmds : List (String × Op)} (h : Runs.exec (step now) db cmds = some db')
    (k : String) : Runs.exec (Cell.exec now) (db k) (opsOf k cmds) = some (db' k) := by
  induction cmds generalizing db with
  | nil =>
      obtain rfl := Option.some.inj h
      rfl
  | cons c cmds ih =>
      obtain ⟨db₁, hdb₁, hrest⟩ := Option.bind_eq_some_iff.mp h
      obtain ⟨cell, hcell, rfl⟩ := Option.map_eq_some_iff.mp hdb₁
      have hk := ih hrest
      by_cases hc : c.1 = k
      · subst hc
        rw [Function.update_self] at hk
        rw [opsOf, List.filter_cons_of_pos (by simp), List.map_cons, Runs.exec, hcell, Option.bind_some]
        exact hk
      · rw [Function.update_of_ne (Ne.symm hc)] at hk
        rw [opsOf, List.filter_cons_of_neg (by simpa using hc)]
        exact hk

/-- A transaction acts on each key apart from the others. -/
theorem transaction_cell {now : Int} {db db' : Db} {cmds : List (String × Op)}
    (h : transaction now db cmds = some db') (k : String) :
    Runs.exec (Cell.exec now) ((db k).purge now) (opsOf k cmds) = some (db' k) :=
  exec_cell h k

theorem setFields_notMem {fields : List (String × String)} {h : String → Option String} {f : String}
    (hf : f ∉ fields.map Prod.fst) : setFields h fields f = h f := by
  induction fields generalizing h with
  | nil => rfl
  | cons g fields ih =>
      rw [List.map_cons, List.mem_cons, not_or] at hf
      rw [setFields, List.foldl_cons]
      exact (ih hf.2).trans (Function.update_of_ne hf.1 _ _)

theorem setFields_mem {fields : List (String × String)} {h : String → Option String} {f : String × String}
    (hn : (fields.map Prod.fst).Nodup) (hf : f ∈ fields) : setFields h fields f.1 = some f.2 := by
  induction fields generalizing h with
  | nil => cases hf
  | cons g fields ih =>
      rw [List.map_cons, List.nodup_cons] at hn
      rw [setFields, List.foldl_cons]
      rcases List.mem_cons.mp hf with rfl | hf
      · exact (setFields_notMem hn.1).trans (Function.update_self _ _ _)
      · exact ih hn.2 hf

namespace Cell

inductive IsSet (S : String → Prop) : Cell → Prop
  | absent : (∀ m, ¬ S m) → IsSet S .absent
  | expired : (∀ m, ¬ S m) → IsSet S .expired
  | live {ms} : (∀ m, m ∈ ms ↔ S m) → IsSet S (.live (.set ms) none)

def members : Cell → List String
  | .live (.set ms) _ => ms
  | _ => []

variable {S : String → Prop} {c c' : Cell} {now : Int}

theorem IsSet.members (h : IsSet S c) (m : String) : m ∈ c.members ↔ S m := by
  cases h with
  | absent hS | expired hS => simpa [Cell.members] using hS m
  | live hS => exact hS m

theorem IsSet.purge (h : IsSet S c) (now : Int) : IsSet S (c.purge now) := by
  cases h with
  | absent hS => exact .absent hS
  | expired hS => exact .expired hS
  | live hS => exact .live hS

theorem IsSet.sadd {m : String} (h : IsSet S c) (hc : c.sadd m = some c') : IsSet (fun x => x = m ∨ S x) c' := by
  cases h with
  | absent hS | expired hS =>
      obtain rfl := Option.some.inj hc
      refine .live fun x => ?_
      simp [hS x]
  | @live ms hS =>
      obtain rfl := Option.some.inj hc
      refine .live fun x => ?_
      by_cases hm : m ∈ ms
      · rw [if_pos hm, hS x]
        exact ⟨.inr, fun hx => hx.elim (fun hxm => hxm ▸ (hS m).mp hm) id⟩
      · rw [if_neg hm, List.mem_append, List.mem_singleton, hS x, or_comm]

theorem IsSet.srem {m : String} (h : IsSet S c) (hc : c.srem m = some c') : IsSet (fun x => x ≠ m ∧ S x) c' := by
  cases h with
  | absent hS =>
      obtain rfl := Option.some.inj hc
      exact .absent fun x hx => hS x hx.2
  | expired hS =>
      obtain rfl := Option.some.inj hc
      exact .expired fun x hx => hS x hx.2
  | @live ms hS =>
      obtain rfl := Option.some.inj hc
      have hleft : ∀ x, x ∈ ms.filter (fun y => decide (y ≠ m)) ↔ x ≠ m ∧ S x := by
        intro x
        rw [List.mem_filter, decide_eq_true_iff, hS x, and_comm]
      split_ifs with hnil
      · refine .absent fun x hx => ?_
        have hmem := (hleft x).mpr hx
        rw [hnil] at hmem
        cases hmem
      · exact .live hleft

def Holds (fields : List (String × String)) (c : Cell) : Prop :=
  ∃ h deadline, c = .live (.hash h) deadline ∧ ∀ f ∈ fields, h f.1 = some f.2

def deadline? : Cell → Option Int
  | .live _ deadline => deadline
  | _ => none

variable {fields : List (String × String)}

theorem not_holds_expired : ¬ Holds fields .expired := by
  rintro ⟨h, deadline, hc, -⟩
  cases hc

theorem Holds.purge_iff (h : Holds fields c) (now : Int) : Holds fields (c.purge now) ↔ ∀ d ∈ c.deadline?, now < d := by
  obtain ⟨hash, deadline, rfl, hf⟩ := h
  cases deadline with
  | none => exact iff_of_true ⟨hash, none, rfl, hf⟩ nofun
  | some d =>
      by_cases hd : now < d
      · have hkept : (Cell.live (.hash hash) (some d)).purge now = .live (.hash hash) (some d) := by simp [Cell.purge, hd]
        rw [hkept]
        exact iff_of_true ⟨hash, some d, rfl, hf⟩ fun _ hd' => Option.some.inj hd' ▸ hd
      · have hgone : (Cell.live (.hash hash) (some d)).purge now = .expired := by simp [Cell.purge, not_lt.mp hd]
        rw [hgone]
        exact iff_of_false not_holds_expired fun hall => hd (hall d rfl)

theorem holds_hset (hn : (fields.map Prod.fst).Nodup) (hc : c.hset fields = some c') : Holds fields c' := by
  unfold Cell.hset at hc
  split at hc
  · obtain rfl := Option.some.inj hc
    exact ⟨_, _, rfl, fun f hf => setFields_mem hn hf⟩
  · cases hc
  · obtain rfl := Option.some.inj hc
    exact ⟨_, _, rfl, fun f hf => setFields_mem hn hf⟩
  · obtain rfl := Option.some.inj hc
    exact ⟨_, _, rfl, fun f hf => setFields_mem hn hf⟩

theorem Holds.expire_iff {secs : Int} (h : Holds fields c) (hc : c.expire now secs = some c') : Holds fields c' ↔ 0 < secs := by
  obtain ⟨hash, deadline, rfl, hf⟩ := h
  unfold Cell.expire at hc
  split_ifs at hc with hrefused hneg
  · obtain rfl := Option.some.inj hc
    exact iff_of_false not_holds_expired (not_lt.mpr hneg)
  · obtain rfl := Option.some.inj hc
    exact iff_of_true ⟨hash, _, rfl, hf⟩ (not_le.mp hneg)

def zrange : Cell → Option (List (String × Int))
  | .live (.zset z) _ => some (z.entries.insertionSort fun a b => a.2 < b.2 ∨ a.2 = b.2 ∧ a.1 ≤ b.1)
  | .live _ _ => none
  | .absent | .expired => some []

def zrem (gone : List String) : Cell → Option Cell
  | .live (.zset z) deadline =>
    let left := z.filter fun m _ => m ∉ gone
    some (if left.entries = [] then .absent else .live (.zset left) deadline)
  | .live _ _ => none
  | c => some c

def zmembers : Cell → List String
  | .live (.zset z) _ => z.entries.map Prod.fst
  | _ => []

theorem members_purge {m : String} (h : m ∈ (c.purge now).members) : m ∈ c.members := by
  cases c with
  | absent | expired => exact h
  | live value deadline =>
      rw [purge] at h
      split at h
      · cases h
      · exact h

theorem zmembers_purge {m : String} (h : m ∈ (c.purge now).zmembers) : m ∈ c.zmembers := by
  cases c with
  | absent | expired => exact h
  | live value deadline =>
      rw [purge] at h
      split at h
      · cases h
      · exact h

theorem members_sadd {m x : String} (hc : c.sadd m = some c') (h : x ∈ c'.members) : x = m ∨ x ∈ c.members := by
  cases c with
  | absent | expired =>
      cases hc
      exact .inl (List.mem_singleton.mp h)
  | live value deadline =>
      cases value with
      | set ms =>
          cases hc
          simp only [members] at h
          split at h
          · exact .inr h
          · rcases List.mem_append.mp h with h | h
            · exact .inr h
            · exact .inl (List.mem_singleton.mp h)
      | _ => cases hc

theorem members_srem {m x : String} (hc : c.srem m = some c') (h : x ∈ c'.members) : x ≠ m ∧ x ∈ c.members := by
  cases c with
  | absent | expired =>
      cases hc
      cases h
  | live value deadline =>
      cases value with
      | set ms =>
          cases hc
          split at h
          · cases h
          · obtain ⟨hx, hne⟩ := List.mem_filter.mp h
            exact ⟨of_decide_eq_true hne, hx⟩
      | _ => cases hc

theorem zmembers_zadd {m x : String} {score : Int} (hc : c.zadd m score = some c') (h : x ∈ c'.zmembers) :
    x = m ∨ x ∈ c.zmembers := by
  cases c with
  | absent | expired =>
      cases hc
      exact .inl (List.mem_singleton.mp h)
  | live value deadline =>
      cases value with
      | zset z =>
          cases hc
          simp only [zmembers, Dict.insert, keys_upsert] at h
          split at h
          · exact .inr h
          · rcases List.mem_append.mp h with h | h
            · exact .inr h
            · exact .inl (List.mem_singleton.mp h)
      | _ => cases hc

theorem zmembers_filter {z : Dict String Int} {deadline : Option Int} {p : String → Int → Bool} {x : String}
    (h : x ∈ (if (z.filter p).entries = [] then Cell.absent else .live (.zset (z.filter p)) deadline).zmembers) :
    x ∈ (Cell.live (.zset z) deadline).zmembers := by
  split at h
  · cases h
  · exact (List.filter_sublist.map Prod.fst).subset h

theorem zmembers_zremrangebyscore {x : String} {max : Int} (hc : c.zremrangebyscore max = some c')
    (h : x ∈ c'.zmembers) : x ∈ c.zmembers := by
  cases c with
  | absent | expired =>
      cases hc
      cases h
  | live value deadline =>
      cases value with
      | zset z =>
          cases hc
          exact zmembers_filter h
      | _ => cases hc

theorem zmembers_zrem {gone : List String} {x : String} (hc : c.zrem gone = some c') (h : x ∈ c'.zmembers) :
    x ∈ c.zmembers := by
  cases c with
  | absent | expired =>
      cases hc
      cases h
  | live value deadline =>
      cases value with
      | zset z =>
          cases hc
          exact zmembers_filter h
      | _ => cases hc

theorem mem_zrange {es : List (String × Int)} {e : String × Int} (hc : c.zrange = some es) (h : e ∈ es) :
    e.1 ∈ c.zmembers := by
  cases c with
  | absent | expired =>
      cases hc
      cases h
  | live value deadline =>
      cases value with
      | zset z =>
          cases hc
          exact List.mem_map_of_mem ((List.mem_insertionSort _).mp h)
      | _ => cases hc

end Cell

def unlink (db : Db) (keys : List String) : Db := fun k => if k ∈ keys then .absent else db k

end NetWatch.Lib.Redis
