import Mathlib.Data.List.Basic
import Mathlib.Data.Nat.Notation

namespace NetWatch.Lib.Texts

def hex (n : Nat) : List Char := Nat.toDigits 16 n

def hexVal (c : Char) : Nat := if c.isDigit then c.toNat - '0'.toNat else c.toNat - 'a'.toNat + 10

def ofHex (cs : List Char) : Nat := cs.foldl (fun n c => n * 16 + hexVal c) 0

theorem hexVal_digitChar : ∀ n < 16, hexVal (Nat.digitChar n) = n := by decide

theorem ofHex_hex (n : Nat) : ofHex (hex n) = n := by
  induction n using Nat.strongRecOn with
  | ind n ih =>
      by_cases hn : n < 16
      · rw [hex, Nat.toDigits_of_lt_base hn]
        simpa [ofHex] using hexVal_digitChar n hn
      · have hlast := hexVal_digitChar (n % 16) (Nat.mod_lt n (by omega))
        have hinit : ofHex (Nat.toDigits 16 (n / 16)) = n / 16 := ih (n / 16) (by omega)
        rw [hex, Nat.toDigits_of_base_le (by omega) (by omega), ofHex, List.foldl_append, ← ofHex, hinit]
        simp only [List.foldl_cons, List.foldl_nil, hlast]
        omega

theorem hex_injective : Function.Injective hex := by
  intro m n h
  rw [← ofHex_hex m, h, ofHex_hex]

theorem hex_chars (n : Nat) : ':' ∉ hex n ∧ '|' ∉ hex n := by
  induction n using Nat.strongRecOn with
  | ind n ih =>
      by_cases hn : n < 16
      · rw [hex, Nat.toDigits_of_lt_base hn]
        simp
      · have hinit := ih (n / 16) (by omega)
        rw [hex, Nat.toDigits_of_base_le (by omega) (by omega), List.mem_append, List.mem_append, not_or, not_or]
        exact ⟨⟨hinit.1, by simp⟩, ⟨hinit.2, by simp⟩⟩

theorem hex_ne_nil (n : Nat) : hex n ≠ [] := Nat.toDigits_ne_nil

def decimal (n : Nat) : List Char := (toString n).toList

theorem decimal_injective : Function.Injective decimal := by
  intro m n h
  have hdigits : Nat.toDigits 10 m = Nat.toDigits 10 n := by
    rwa [← Nat.toList_repr, ← Nat.toList_repr]
  rw [← Nat.ofDigitChars_ten_toDigits (n := m), hdigits, Nat.ofDigitChars_ten_toDigits]

theorem notMem_decimal {c : Char} (hc : c.isDigit = false) (n : Nat) : c ∉ decimal n := by
  intro h
  have hd : c.isDigit = true := by
    refine Nat.isDigit_of_mem_toDigits (b := 10) (n := n) (by omega) (by omega) ?_
    rwa [← Nat.toList_repr]
  exact absurd (hd.symm.trans hc) nofun

theorem append_sep_inj {α : Type} [DecidableEq α] {sep : α} {a a' b b' : List α} (ha : sep ∉ a) (ha' : sep ∉ a')
    (h : a ++ sep :: b = a' ++ sep :: b') : a = a' ∧ b = b' := by
  have hsplit := congrArg (List.takeWhile (· ≠ sep)) h
  have htake : ∀ {u v : List α}, sep ∉ u → (u ++ sep :: v).takeWhile (· ≠ sep) = u := by
    intro u v hu
    rw [List.takeWhile_append_of_pos (fun x hx => by simpa using ne_of_mem_of_not_mem hx hu)]
    simp
  rw [htake ha, htake ha'] at hsplit
  subst hsplit
  exact ⟨rfl, (List.cons.inj (List.append_cancel_left h)).2⟩

theorem append_sep_inj_last {α : Type} [DecidableEq α] {sep : α} {a a' b b' : List α} (hb : sep ∉ b) (hb' : sep ∉ b')
    (h : a ++ sep :: b = a' ++ sep :: b') : a = a' ∧ b = b' := by
  have hrev := congrArg List.reverse h
  simp only [List.reverse_append, List.reverse_cons, List.append_assoc, List.singleton_append] at hrev
  obtain ⟨hbb, haa⟩ := append_sep_inj (List.mem_reverse.not.mpr hb) (List.mem_reverse.not.mpr hb') hrev
  exact ⟨List.reverse_injective haa, List.reverse_injective hbb⟩

theorem intercalate_inj {sep : Char} {ps qs : List (List Char)} (hp : ∀ p ∈ ps, sep ∉ p) (hq : ∀ q ∈ qs, sep ∉ q)
    (hps : ps ≠ []) (hqs : qs ≠ []) (h : [sep].intercalate ps = [sep].intercalate qs) : ps = qs := by
  rw [← List.splitOn_intercalate sep hp hps, h, List.splitOn_intercalate sep hq hqs]

theorem mem_intercalate {α : Type} {sep c : α} {ps : List (List α)} (h : c ∈ [sep].intercalate ps) :
    c = sep ∨ ∃ p ∈ ps, c ∈ p := by
  induction ps with
  | nil => simp at h
  | cons p ps ih =>
      cases ps with
      | nil =>
          rw [List.intercalate_singleton] at h
          exact .inr ⟨p, List.mem_cons_self, h⟩
      | cons q qs =>
          rw [List.intercalate_cons_cons, List.mem_append, List.mem_append, List.mem_singleton] at h
          rcases h with (h | h) | h
          · exact .inr ⟨p, List.mem_cons_self, h⟩
          · exact .inl h
          · rcases ih h with hs | ⟨r, hr, hc⟩
            · exact .inl hs
            · exact .inr ⟨r, List.mem_cons_of_mem p hr, hc⟩

theorem intercalate_append {α : Type} {sep : α} {ps qs : List (List α)} (hp : ps ≠ []) (hq : qs ≠ []) :
    [sep].intercalate (ps ++ qs) = [sep].intercalate ps ++ sep :: [sep].intercalate qs := by
  induction ps with
  | nil => exact absurd rfl hp
  | cons p ps ih =>
      cases ps with
      | nil =>
          rw [List.singleton_append, List.intercalate_cons_of_ne_nil hq, List.intercalate_singleton]
          simp
      | cons r rs =>
          rw [List.cons_append, List.cons_append, List.intercalate_cons_cons, ← List.cons_append,
            ih (List.cons_ne_nil r rs), List.intercalate_cons_cons]
          simp

theorem map_intercalate {α β : Type} (f : α → β) (sep : α) (ps : List (List α)) :
    ([sep].intercalate ps).map f = [f sep].intercalate (ps.map (List.map f)) := by
  induction ps with
  | nil => rfl
  | cons p ps ih =>
      cases ps with
      | nil => simp only [List.intercalate_singleton, List.map_cons, List.map_nil]
      | cons q qs =>
          rw [List.map_cons, List.map_cons, List.intercalate_cons_cons, List.intercalate_cons_cons, List.map_append,
            List.map_append, ih, List.map_cons]
          rfl

end NetWatch.Lib.Texts
