import Mathlib.Data.Rat.Defs
import Mathlib.Order.WithBotTop

namespace NetWatch.Lib.JsValue

/-- A text as JavaScript has it: UTF-16 code units, in which surrogates need not
be paired. -/
abbrev Units := List UInt16

instance : LawfulBEq Units := inferInstance

def charUnits (c : Char) : Units :=
  if c.toNat < 0x10000 then [c.toNat.toUInt16]
  else [(0xD800 + (c.toNat - 0x10000) / 0x400).toUInt16, (0xDC00 + (c.toNat - 0x10000) % 0x400).toUInt16]

def units (s : String) : Units := s.toList.flatMap charUnits

/-- What a number text denotes after parsing: a number too large is an infinity. -/
abbrev Num := WithBot (WithTop ℚ)

inductive Json
  | null
  | bool (b : Bool)
  | num (x : Num)
  | str (s : Units)
  | arr (xs : List Json)
  | obj (fields : List (Units × Json))

namespace Json

/-- A property of a parsed value. Of two fields of one name the later counts. -/
def get? : Json → Units → Option Json
  | .obj fields, name => (fields.reverse.find? (·.1 = name)).map (·.2)
  | _, _ => none

def str? : Json → Option Units
  | .str s => some s
  | _ => none

def arr? : Json → Option (List Json)
  | .arr xs => some xs
  | _ => none

def strings? (j : Json) : Option (List Units) := j.arr?.bind fun xs => xs.mapM str?

theorem str?_eq_some {j : Json} {s : Units} (h : j.str? = some s) : j = .str s := by
  cases j with
  | str t => rw [Option.some.inj h]
  | _ => cases h

theorem mapM_str? {xs : List Json} {ks : List Units} (h : xs.mapM str? = some ks) : xs = ks.map .str := by
  induction xs generalizing ks with
  | nil => simp_all
  | cons x xs ih =>
      rw [List.mapM_cons] at h
      obtain ⟨k, hk, h⟩ := Option.bind_eq_some_iff.mp h
      obtain ⟨ks', hks, h⟩ := Option.bind_eq_some_iff.mp h
      cases h
      rw [str?_eq_some hk, ih hks, List.map_cons]

theorem strings?_eq_some {j : Json} {ks : List Units} (h : j.strings? = some ks) : j = .arr (ks.map .str) := by
  obtain ⟨xs, hxs, hks⟩ := Option.bind_eq_some_iff.mp h
  cases j with
  | arr ys => rw [← mapM_str? hks, Option.some.inj hxs]
  | _ => cases hxs

end Json

end NetWatch.Lib.JsValue
