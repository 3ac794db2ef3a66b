import Mathlib.Algebra.GroupWithZero.Nat
import Mathlib.Data.List.Basic

namespace NetWatch.Lib.Utf8

/-- A multi-byte character under way: the bits read so far, the range of the
next continuation byte and how many more are owed after it. -/
structure Pending where
  bits : Nat
  low : UInt8
  high : UInt8
  owed : Nat

def lead (b : UInt8) : Option Pending :=
  if 0xC2 ≤ b ∧ b ≤ 0xDF then some ⟨b.toNat % 32, 0x80, 0xBF, 0⟩
  else if b = 0xE0 then some ⟨0, 0xA0, 0xBF, 1⟩
  else if b = 0xED then some ⟨0xD, 0x80, 0x9F, 1⟩
  else if 0xE1 ≤ b ∧ b ≤ 0xEF then some ⟨b.toNat % 16, 0x80, 0xBF, 1⟩
  else if b = 0xF0 then some ⟨0, 0x90, 0xBF, 2⟩
  else if 0xF1 ≤ b ∧ b ≤ 0xF3 then some ⟨b.toNat % 8, 0x80, 0xBF, 2⟩
  else if b = 0xF4 then some ⟨4, 0x80, 0x8F, 2⟩
  else none

def start (b : UInt8) (rest : Option Pending → List (Option Char)) : List (Option Char) :=
  if b < 0x80 then some (Char.ofNat b.toNat) :: rest none
  else
    match lead b with
    | some p => rest (some p)
    | none => none :: rest none

/-- The characters of a byte sequence, with `none` in place of each maximal
prefix of a character that the next byte, or the end of the input, cuts off. -/
def decode : Option Pending → List UInt8 → List (Option Char)
  | none, [] => []
  | some _, [] => [none]
  | none, b :: bs => start b fun p => decode p bs
  | some p, b :: bs =>
    if p.low ≤ b ∧ b ≤ p.high then
      match p.owed with
      | 0 => some (Char.ofNat (p.bits * 64 + b.toNat % 64)) :: decode none bs
      | n + 1 => decode (some ⟨p.bits * 64 + b.toNat % 64, 0x80, 0xBF, n⟩) bs
    else none :: start b fun p => decode p bs

def fromUtf8Lossy (bs : List UInt8) : List Char := (decode none bs).map fun c => c.getD (Char.ofNat 0xFFFD)

def fromUtf8 (bs : List UInt8) : Option (List Char) := (decode none bs).mapM id

example : fromUtf8Lossy [0x48, 0xC3, 0xA9, 0xE2, 0x82, 0x21] = ['H', 'é', Char.ofNat 0xFFFD, '!'] := by decide

example : fromUtf8 [0x48, 0xC3] = none := by decide

def byteLength (cs : List Char) : Nat := (cs.map Char.utf8Size).sum

theorem byteLength_cons (c : Char) (cs : List Char) : byteLength (c :: cs) = c.utf8Size + byteLength cs := rfl

theorem utf8ByteSize_ofList (cs : List Char) : (String.ofList cs).utf8ByteSize = byteLength cs := by
  induction cs with
  | nil => rfl
  | cons c cs ih =>
      have hcons : String.ofList (c :: cs) = String.ofList [c] ++ String.ofList cs := @String.ofList_append [c] cs
      rw [hcons, String.utf8ByteSize_append, ih, ← String.singleton_eq_ofList, String.utf8ByteSize_singleton,
        byteLength_cons]

section Ascii

variable {b : UInt8}

theorem start_ascii (hb : b < 0x80) (rest : Option Pending → List (Option Char)) :
    start b rest = some (Char.ofNat b.toNat) :: rest none := if_pos hb

theorem decode_ascii (bs : List UInt8) (h : ∀ b ∈ bs, b < 0x80) (rest : List UInt8) :
    decode none (bs ++ rest) = bs.map (fun b => some (Char.ofNat b.toNat)) ++ decode none rest := by
  induction bs with
  | nil => rfl
  | cons b bs ih =>
      rw [List.cons_append, decode, start_ascii (h b List.mem_cons_self),
        ih fun x hx => h x (List.mem_cons_of_mem b hx)]
      rfl

def Pending.Continues (p : Pending) : Prop := 0x80 ≤ p.low

theorem lead_continues {p : Pending} (h : lead b = some p) : p.Continues := by
  rw [lead] at h
  split_ifs at h
  all_goals
    obtain rfl := Option.some.inj h
    simp only [Pending.Continues]
    decide

theorem start_append {f g : Option Pending → List (Option Char)} {tail : List (Option Char)}
    (h : ∀ p, (∀ q, p = some q → q.Continues) → f p = g p ++ tail) : start b f = start b g ++ tail := by
  rw [start, start]
  split_ifs
  · rw [h none nofun]
    rfl
  · cases hl : lead b with
    | some p => exact h (some p) fun q hq => Option.some.inj hq ▸ lead_continues hl
    | none => exact congrArg (none :: ·) (h none nofun)

/-- An ASCII byte ends what comes before it. -/
theorem decode_append_ascii (hb : b < 0x80) (bs rest : List UInt8) (p : Option Pending)
    (hp : ∀ q, p = some q → q.Continues) :
    decode p (bs ++ b :: rest) = decode p bs ++ some (Char.ofNat b.toNat) :: decode none rest := by
  induction bs generalizing p with
  | nil =>
      cases p with
      | none => exact start_ascii hb _
      | some p =>
          have hlow : ¬ (p.low ≤ b ∧ b ≤ p.high) :=
            fun h => absurd hb (UInt8.not_lt.mpr (UInt8.le_trans (hp p rfl) h.1))
          rw [List.nil_append]
          simp only [decode, if_neg hlow, start_ascii hb]
          rfl
  | cons x bs ih =>
      cases p with
      | none =>
          rw [List.cons_append, decode, decode]
          exact start_append ih
      | some p =>
          rw [List.cons_append, decode, decode]
          split_ifs
          · cases p.owed with
            | zero => exact congrArg (_ :: ·) (ih none nofun)
            | succ n =>
                refine ih _ fun q hq => ?_
                obtain rfl := Option.some.inj hq
                exact UInt8.le_refl 0x80
          · exact congrArg (none :: ·) (start_append ih)

end Ascii

theorem fromUtf8_surrounded {pre post : List UInt8} {b : UInt8} (hpre : ∀ x ∈ pre, x < 0x80) (hb : b < 0x80)
    (hpost : ∀ x ∈ post, x < 0x80) (bs : List UInt8) :
    fromUtf8 (pre ++ (bs ++ b :: post)) = (fromUtf8 bs).map fun cs =>
      pre.map (fun x => Char.ofNat x.toNat) ++ (cs ++ Char.ofNat b.toNat :: post.map fun x => Char.ofNat x.toNat) := by
  have hmap : ∀ l : List UInt8, (l.map fun x => some (Char.ofNat x.toNat)).mapM id =
      some (l.map fun x => Char.ofNat x.toNat) := by
    intro l
    induction l with
    | nil => rfl
    | cons x l ih => simp [ih]
  have hrest := decode_ascii post hpost []
  rw [List.append_nil, show decode none [] = [] from rfl, List.append_nil] at hrest
  rw [fromUtf8, fromUtf8, decode_ascii pre hpre, decode_append_ascii hb bs post none nofun, hrest, List.mapM_append,
    List.mapM_append, hmap, List.mapM_cons, hmap]
  cases (decode none bs).mapM id with
  | none => rfl
  | some cs => rfl

end NetWatch.Lib.Utf8
