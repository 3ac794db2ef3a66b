import Mathlib.Data.List.Infix
import NetWatch.Lib.Binary64
import NetWatch.Lib.JsValue
import NetWatch.Lib.Texts
import NetWatch.Lib.Trim

namespace NetWatch.Lib.JsText

open JsValue

section Split

variable {α : Type} [BEq α] [LawfulBEq α]

def indexOf? (sep : List α) : List α → Option ℕ
  | [] => if sep.isPrefixOf [] then some 0 else none
  | c :: cs => if sep.isPrefixOf (c :: cs) then some 0 else (indexOf? sep cs).map (· + 1)

/-- A text cut at each occurrence of a separator, from the left. An empty separator
cuts nowhere here. -/
def split (sep s : List α) : List (List α) :=
  if 0 < sep.length ∧ sep.length ≤ s.length then
    match indexOf? sep s with
    | some i => s.take i :: split sep (s.drop (i + sep.length))
    | none => [s]
  else [s]
termination_by s.length
decreasing_by
  rw [List.length_drop]
  omega

variable {sep s : List α}

theorem indexOf?_some {i : ℕ} (h : indexOf? sep s = some i) : s = s.take i ++ (sep ++ s.drop (i + sep.length)) := by
  induction s generalizing i with
  | nil =>
      unfold indexOf? at h
      split at h
      · rename_i hsep
        cases h
        obtain ⟨t, ht⟩ := List.isPrefixOf_iff_prefix.mp hsep
        obtain ⟨rfl, rfl⟩ := List.append_eq_nil_iff.mp ht
        rfl
      · cases h
  | cons c cs ih =>
      unfold indexOf? at h
      split at h
      · rename_i hsep
        cases h
        obtain ⟨t, ht⟩ := List.isPrefixOf_iff_prefix.mp hsep
        rw [← ht, Nat.zero_add, List.drop_left]
        rfl
      · obtain ⟨j, hj, rfl⟩ := Option.map_eq_some_iff.mp h
        have hcs := ih hj
        rw [Nat.add_right_comm, List.take_succ_cons, List.drop_succ_cons, List.cons_append, ← hcs]

omit [LawfulBEq α] in
theorem split_ne_nil (sep s : List α) : split sep s ≠ [] := by
  rw [split]
  split
  · split <;> exact List.cons_ne_nil _ _
  · exact List.cons_ne_nil _ _

theorem intercalate_split (sep s : List α) : sep.intercalate (split sep s) = s := by
  induction hn : s.length using Nat.strong_induction_on generalizing s with
  | _ n ih =>
      rw [split]
      split
      · rename_i hlen
        split
        · rename_i i hi
          have hs := indexOf?_some hi
          have hrest := ih (s.drop (i + sep.length)).length (by rw [List.length_drop]; omega) _ rfl
          rw [List.intercalate_cons_of_ne_nil (split_ne_nil _ _), hrest, List.append_assoc, ← hs]
        · rw [List.intercalate_singleton]
      · rw [List.intercalate_singleton]

theorem split_of_not_infix (h : ¬ sep <:+: s) : split sep s = [s] := by
  rw [split]
  split
  · split
    · rename_i i hi
      exact absurd ⟨_, _, (List.append_assoc _ _ _).trans (indexOf?_some hi).symm⟩ h
    · rfl
  · rfl

theorem split_first (hsep : sep ≠ []) {i : ℕ} (h : indexOf? sep s = some i) :
    split sep s = s.take i :: split sep (s.drop (i + sep.length)) := by
  have hlen := congrArg List.length (indexOf?_some h)
  rw [List.length_append, List.length_append, List.length_take] at hlen
  have hpos := List.length_pos_of_ne_nil hsep
  rw [split, if_pos ⟨hpos, by omega⟩, h]

theorem indexOf?_append {a b : List α} (h : ∀ k < a.length, ¬ sep <+: a.drop k ++ (sep ++ b)) :
    indexOf? sep (a ++ (sep ++ b)) = some a.length := by
  induction a with
  | nil =>
      cases hs : sep ++ b with
      | nil =>
          obtain ⟨rfl, rfl⟩ := List.append_eq_nil_iff.mp hs
          rfl
      | cons c cs =>
          have hpre : sep.isPrefixOf (c :: cs) = true := List.isPrefixOf_iff_prefix.mpr (hs ▸ List.prefix_append sep b)
          rw [List.nil_append, indexOf?, if_pos hpre]
          rfl
  | cons c a ih =>
      have hrest := ih fun k hk => h (k + 1) (Nat.succ_lt_succ hk)
      have hpre : ¬ sep.isPrefixOf (c :: (a ++ (sep ++ b))) = true :=
        fun hp => h 0 (Nat.succ_pos _) (List.isPrefixOf_iff_prefix.mp hp)
      rw [List.cons_append, indexOf?, if_neg hpre, hrest]
      rfl

def lastIndexOf? (c : α) : List α → Option ℕ
  | [] => none
  | x :: xs =>
      match lastIndexOf? c xs with
      | some i => some (i + 1)
      | none => if x == c then some 0 else none

theorem lastIndexOf?_none {c : α} (h : c ∉ s) : lastIndexOf? c s = none := by
  induction s with
  | nil => rfl
  | cons x xs ih =>
      obtain ⟨hx, hxs⟩ := List.ne_and_not_mem_of_not_mem_cons h
      rw [lastIndexOf?, ih hxs]
      exact if_neg fun he => hx (eq_of_beq he).symm

theorem lastIndexOf?_append {c : α} {a b : List α} (h : c ∉ b) : lastIndexOf? c (a ++ c :: b) = some a.length := by
  induction a with
  | nil =>
      rw [List.nil_append, lastIndexOf?, lastIndexOf?_none h]
      exact if_pos (beq_self_eq_true c)
  | cons x a ih =>
      rw [List.cons_append, lastIndexOf?, ih]
      rfl

theorem exists_last {c : α} (h : c ∈ s) : ∃ a b, s = a ++ c :: b ∧ c ∉ b := by
  induction s with
  | nil => exact absurd h List.not_mem_nil
  | cons x xs ih =>
      by_cases hxs : c ∈ xs
      · obtain ⟨a, b, rfl, hb⟩ := ih hxs
        exact ⟨x :: a, b, rfl, hb⟩
      · obtain rfl | hmem := List.mem_cons.mp h
        · exact ⟨[], xs, rfl, hxs⟩
        · exact absurd hmem hxs

end Split

section Number

def isDigit (u : UInt16) : Bool := 0x30 ≤ u && u ≤ 0x39

def isSpace (u : UInt16) : Bool :=
  (9 ≤ u && u ≤ 13) || u = 0x20 || u = 0xA0 || u = 0x1680 || (0x2000 ≤ u && u ≤ 0x200A) || u = 0x2028 ||
    u = 0x2029 || u = 0x202F || u = 0x205F || u = 0x3000 || u = 0xFEFF

def trim (s : Units) : Units := Trim.trim isSpace s

def digit? (base : ℕ) (u : UInt16) : Option ℕ :=
  let n := u.toNat
  let d :=
    if 0x30 ≤ n ∧ n ≤ 0x39 then n - 0x30
    else if 0x41 ≤ n ∧ n ≤ 0x5A then n - 0x41 + 10
    else if 0x61 ≤ n ∧ n ≤ 0x7A then n - 0x61 + 10
    else 36
  if d < base then some d else none

def digits? (base : ℕ) (s : Units) : Option ℕ :=
  if s = [] then none
  else s.foldlM (fun n u => (digit? base u).map (n * base + ·)) 0

def sign (s : Units) : ℚ × Units :=
  match s with
  | 0x2B :: s => (1, s)
  | 0x2D :: s => (-1, s)
  | s => (1, s)

def exponent? (s : Units) : Option ℤ :=
  match s with
  | [] => some 0
  | e :: s =>
      if e = 0x45 ∨ e = 0x65 then
        match s with
        | 0x2B :: s => (digits? 10 s).map fun n => (n : ℤ)
        | 0x2D :: s => (digits? 10 s).map fun n => -(n : ℤ)
        | s => (digits? 10 s).map fun n => (n : ℤ)
      else none

def decimal? (s : Units) : Option ℚ := do
  let whole := s.takeWhile isDigit
  let (frac, rest) :=
    match s.dropWhile isDigit with
    | 0x2E :: t => (t.takeWhile isDigit, t.dropWhile isDigit)
    | t => ([], t)
  let n ← digits? 10 (whole ++ frac)
  let e ← exponent? rest
  return (n : ℚ) / 10 ^ frac.length * (10 : ℚ) ^ e

def nearest (q : ℚ) : JsValue.Num :=
  let r := Binary64.round q
  if 2 ^ 1024 ≤ r then ((⊤ : WithTop ℚ) : JsValue.Num) else if r ≤ -2 ^ 1024 then ⊥ else ((r : WithTop ℚ) : JsValue.Num)

def infinity : Units := units "Infinity"

/-- `Number` of a text, where `none` is `NaN`. -/
def toNumber (text : Units) : Option JsValue.Num :=
  let s := trim text
  match s with
  | [] => some (nearest 0)
  | 0x30 :: b :: ds =>
      if b = 0x58 ∨ b = 0x78 then (digits? 16 ds).map fun n => nearest n
      else if b = 0x4F ∨ b = 0x6F then (digits? 8 ds).map fun n => nearest n
      else if b = 0x42 ∨ b = 0x62 then (digits? 2 ds).map fun n => nearest n
      else (decimal? s).map nearest
  | s =>
      let (sgn, t) := sign s
      if t = infinity then some (if sgn = 1 then ((⊤ : WithTop ℚ) : JsValue.Num) else ⊥)
      else (decimal? t).map fun q => nearest (sgn * q)

def integer? : JsValue.Num → Option ℤ
  | some (some q) => if q.den = 1 then some q.num else none
  | _ => none

end Number

section Digits

def Digit (base : ℕ) (u : UInt16) (d : ℕ) : Prop :=
  d < base ∧ d < 36 ∧ (d < 10 ∧ u.toNat = 0x30 + d ∨ 10 ≤ d ∧ (u.toNat = 0x41 + (d - 10) ∨ u.toNat = 0x61 + (d - 10)))

inductive Digits (base : ℕ) : Units → ℕ → Prop
  | one {u d} : Digit base u d → Digits base [u] d
  | snoc {w n u d} : Digits base w n → Digit base u d → Digits base (w ++ [u]) (n * base + d)

variable {base : ℕ}

theorem digit?_iff (hbase : base ≤ 36) {u : UInt16} {d : ℕ} : digit? base u = some d ↔ Digit base u d := by
  unfold digit? Digit
  dsimp only
  rw [Option.ite_none_right_eq_some, Option.some.injEq]
  split
  · omega
  · split
    · omega
    · split <;> omega

theorem digits?_snoc {w : Units} (hw : w ≠ []) (u : UInt16) :
    digits? base (w ++ [u]) = (digits? base w).bind fun n => (digit? base u).map (n * base + ·) := by
  have hne : w ++ [u] ≠ [] := List.append_ne_nil_of_right_ne_nil w (List.cons_ne_nil u [])
  rw [digits?, digits?, if_neg hne, if_neg hw, List.foldlM_append]
  simp only [List.foldlM_cons, List.foldlM_nil, bind_pure]
  rfl

theorem digits?_one (u : UInt16) : digits? base [u] = digit? base u := by
  rw [digits?, if_neg (List.cons_ne_nil u []), List.foldlM_cons]
  simp only [List.foldlM_nil, bind_pure, Nat.zero_mul, Nat.zero_add]
  exact Option.map_id'

theorem digits?_iff (hbase : base ≤ 36) {w : Units} {n : ℕ} : digits? base w = some n ↔ Digits base w n := by
  constructor
  · intro h
    induction w using List.reverseRecOn generalizing n with
    | nil =>
        rw [digits?, if_pos rfl] at h
        cases h
    | append_singleton w u ih =>
        by_cases hw : w = []
        · subst hw
          rw [List.nil_append, digits?_one] at h
          exact .one ((digit?_iff hbase).mp h)
        · rw [digits?_snoc hw] at h
          obtain ⟨m, hm, h⟩ := Option.bind_eq_some_iff.mp h
          obtain ⟨d, hd, rfl⟩ := Option.map_eq_some_iff.mp h
          exact .snoc (ih hm) ((digit?_iff hbase).mp hd)
  · intro h
    induction h with
    | one hd => rw [digits?_one, (digit?_iff hbase).mpr hd]
    | @snoc w n u d hw hd ih =>
        have hne : w ≠ [] := by
          rintro rfl
          rw [digits?, if_pos rfl] at ih
          cases ih
        rw [digits?_snoc hne, ih, (digit?_iff hbase).mpr hd]
        rfl

theorem Digits.ne_nil {w : Units} {n : ℕ} (h : Digits base w n) : w ≠ [] := by
  cases h with
  | one _ => exact List.cons_ne_nil _ _
  | snoc _ _ => exact List.append_ne_nil_of_right_ne_nil _ (List.cons_ne_nil _ _)

theorem Digits.mem {w : Units} {n : ℕ} (h : Digits base w n) {u : UInt16} (hu : u ∈ w) : ∃ d, Digit base u d := by
  induction h with
  | one hd =>
      cases List.mem_singleton.mp hu
      exact ⟨_, hd⟩
  | snoc _ hd ih =>
      obtain hmem | hmem := List.mem_append.mp hu
      · exact ih hmem
      · cases List.mem_singleton.mp hmem
        exact ⟨_, hd⟩

def digitUnits (base n : ℕ) : Units := (Nat.toDigits base n).map fun c => c.toNat.toUInt16

theorem digit_digitChar : ∀ d < 16, Digit 36 (Nat.digitChar d).toNat.toUInt16 d := by
  unfold Digit
  decide

theorem digits_digitUnits (hlow : 1 < base) (hhigh : base ≤ 16) (n : ℕ) : Digits base (digitUnits base n) n := by
  induction n using Nat.strongRecOn with
  | ind n ih =>
      have hdigit : ∀ d < base, Digit base (Nat.digitChar d).toNat.toUInt16 d := by
        intro d hd
        obtain ⟨-, hrest⟩ := digit_digitChar d (by omega)
        exact ⟨hd, hrest⟩
      by_cases hn : n < base
      · rw [digitUnits, Nat.toDigits_of_lt_base hn]
        exact .one (hdigit n hn)
      · have hlt : n / base < n := Nat.div_lt_self (by omega) hlow
        rw [digitUnits, Nat.toDigits_of_base_le hlow (by omega), List.map_append]
        have hsnoc := Digits.snoc (ih _ hlt) (hdigit (n % base) (Nat.mod_lt n (by omega)))
        rwa [Nat.mul_comm, Nat.div_add_mod] at hsnoc

theorem digitUnits_injective (hlow : 1 < base) (hhigh : base ≤ 16) : Function.Injective (digitUnits base) := by
  intro m n h
  have hm := (digits?_iff (by omega)).mpr (digits_digitUnits hlow hhigh m)
  rw [h, (digits?_iff (by omega)).mpr (digits_digitUnits hlow hhigh n)] at hm
  exact (Option.some.inj hm).symm

theorem length_digitUnits {k n : ℕ} (hlow : 1 < base) (hk : 0 < k) (h : n < base ^ k) : (digitUnits base n).length ≤ k := by
  rw [digitUnits, List.length_map]
  exact (Nat.length_toDigits_le_iff hlow hk).mpr h

end Digits

section Utf16

theorem charUnits_cases (c : Char) :
    (c.toNat < 0x10000 ∧ ¬ (0xD800 ≤ c.toNat ∧ c.toNat < 0xE000) ∧ charUnits c = [c.toNat.toUInt16]) ∨
      (0x10000 ≤ c.toNat ∧ c.toNat < 0x110000 ∧
        charUnits c = [(0xD800 + (c.toNat - 0x10000) / 0x400).toUInt16, (0xDC00 + (c.toNat - 0x10000) % 0x400).toUInt16]) := by
  have hvalid : c.toNat < 0xD800 ∨ 0xDFFF < c.toNat ∧ c.toNat < 0x110000 := c.valid
  by_cases hc : c.toNat < 0x10000
  · exact .inl ⟨hc, by omega, if_pos hc⟩
  · exact .inr ⟨by omega, by omega, if_neg hc⟩

theorem toUInt16_inj {m n : ℕ} (hm : m < 2 ^ 16) (hn : n < 2 ^ 16) (h : m.toUInt16 = n.toUInt16) : m = n := by
  have htoNat := congrArg UInt16.toNat h
  simp only [Nat.toUInt16, UInt16.toNat_ofNat'] at htoNat
  omega

/-- UTF-16 is a prefix code. -/
theorem charUnits_append {c d : Char} {us vs : Units} (h : charUnits c ++ us = charUnits d ++ vs) : c = d ∧ us = vs := by
  have hchar : c.toNat = d.toNat → c = d := fun hcd => Char.toNat_inj.mp hcd
  rcases charUnits_cases c with ⟨hc, hc', hcu⟩ | ⟨hc, hc', hcu⟩
  · rcases charUnits_cases d with ⟨hd, hd', hdu⟩ | ⟨hd, hd', hdu⟩
    · rw [hcu, hdu] at h
      obtain ⟨hhead, htail⟩ := List.cons.inj h
      exact ⟨hchar (toUInt16_inj (by omega) (by omega) hhead), htail⟩
    · rw [hcu, hdu] at h
      have hhead := toUInt16_inj (by omega) (by omega) (List.cons.inj h).1
      omega
  · rcases charUnits_cases d with ⟨hd, hd', hdu⟩ | ⟨hd, hd', hdu⟩
    · rw [hcu, hdu] at h
      have hhead := toUInt16_inj (by omega) (by omega) (List.cons.inj h).1
      omega
    · rw [hcu, hdu] at h
      obtain ⟨hhead, hrest⟩ := List.cons.inj h
      obtain ⟨hlow, htail⟩ := List.cons.inj hrest
      have hhead := toUInt16_inj (by omega) (by omega) hhead
      have hlow := toUInt16_inj (by omega) (by omega) hlow
      exact ⟨hchar (by omega), htail⟩

theorem units_injective : Function.Injective units := by
  intro s t h
  apply String.ext
  have hlist : ∀ cs ds : List Char, cs.flatMap charUnits = ds.flatMap charUnits → cs = ds := by
    intro cs
    induction cs with
    | nil =>
        intro ds hds
        cases ds with
        | nil => rfl
        | cons d ds =>
            have hne : charUnits d ≠ [] := by
              rcases charUnits_cases d with ⟨-, -, hd⟩ | ⟨-, -, hd⟩ <;> rw [hd] <;> exact List.cons_ne_nil _ _
            exact absurd (List.append_eq_nil_iff.mp hds.symm).1 hne
    | cons c cs ih =>
        intro ds hds
        cases ds with
        | nil =>
            have hne : charUnits c ≠ [] := by
              rcases charUnits_cases c with ⟨-, -, hd⟩ | ⟨-, -, hd⟩ <;> rw [hd] <;> exact List.cons_ne_nil _ _
            exact absurd (List.append_eq_nil_iff.mp hds).1 hne
        | cons d ds =>
            obtain ⟨rfl, htail⟩ := charUnits_append hds
            rw [ih ds htail]
  exact hlist _ _ h

end Utf16

end NetWatch.Lib.JsText
