import Mathlib.Data.UInt
import Mathlib.Data.List.Basic
import Mathlib.Tactic.Ring

namespace NetWatch.Lib.LittleEndian

def le16 (w : UInt16) : List UInt8 := [w.toUInt8, (w >>> 8).toUInt8]

def le32 (w : UInt32) : List UInt8 := [w.toUInt8, (w >>> 8).toUInt8, (w >>> 16).toUInt8, (w >>> 24).toUInt8]

def fromLe16 (b₀ b₁ : UInt8) : UInt16 := UInt16.ofNat (b₀.toNat + 256 * b₁.toNat)

def fromLe32 (b₀ b₁ b₂ b₃ : UInt8) : UInt32 :=
  UInt32.ofNat (b₀.toNat + 256 * b₁.toNat + 65536 * b₂.toNat + 16777216 * b₃.toNat)

theorem fromLe32_le32 (w : UInt32) :
    fromLe32 w.toUInt8 (w >>> 8).toUInt8 (w >>> 16).toUInt8 (w >>> 24).toUInt8 = w := by
  have hw := w.toNat_lt
  apply UInt32.toNat_inj.mp
  rw [fromLe32, UInt32.toNat_ofNat']
  simp only [UInt32.toNat_toUInt8, UInt32.toNat_shiftRight, UInt32.reduceToNat, Nat.reduceMod, Nat.shiftRight_eq_div_pow]
  omega

theorem fromLe16_le16 (w : UInt16) : fromLe16 w.toUInt8 (w >>> 8).toUInt8 = w := by
  have hw := w.toNat_lt
  apply UInt16.toNat_inj.mp
  rw [fromLe16, UInt16.toNat_ofNat']
  simp only [UInt16.toNat_toUInt8, UInt16.toNat_shiftRight, UInt16.reduceToNat, Nat.reduceMod, Nat.shiftRight_eq_div_pow]
  omega

@[simp] theorem length_le32 (w : UInt32) : (le32 w).length = 4 := rfl

def At (d : List UInt8) (o : ℕ) (bytes : List UInt8) : Prop := ∃ before after, d = before ++ (bytes ++ after) ∧ before.length = o

section At

variable {d bytes a b : List UInt8} {o : ℕ}

theorem At.drop (h : At d o bytes) : ∃ after, d.drop o = bytes ++ after := by
  obtain ⟨before, after, rfl, rfl⟩ := h
  exact ⟨after, List.drop_left⟩

theorem At.left (h : At d o (a ++ b)) : At d o a := by
  obtain ⟨before, after, rfl, rfl⟩ := h
  exact ⟨before, b ++ after, by rw [List.append_assoc], rfl⟩

theorem At.right (h : At d o (a ++ b)) : At d (o + a.length) b := by
  obtain ⟨before, after, rfl, rfl⟩ := h
  exact ⟨before ++ a, after, by simp only [List.append_assoc], List.length_append⟩

theorem At.le_length (h : At d o bytes) : o + bytes.length ≤ d.length := by
  obtain ⟨before, after, rfl, rfl⟩ := h
  rw [List.length_append, List.length_append]
  omega

theorem At.slice (h : At d o bytes) : (d.drop o).take bytes.length = bytes := by
  obtain ⟨after, hdrop⟩ := h.drop
  rw [hdrop, List.take_left]

theorem At.mapM {A B ε : Type} {encode : A → List UInt8} {size : ℕ} (hsize : ∀ a, (encode a).length = size)
    {read : ℕ → Except ε B} {value : A → B} (hread : ∀ o a, At d o (encode a) → read o = .ok (value a)) {items : List A}
    (h : At d o (items.flatMap encode)) :
    (List.range items.length).mapM (fun i => read (o + i * size)) = .ok (items.map value) := by
  induction items generalizing o with
  | nil => rfl
  | cons a items ih =>
      rw [List.flatMap_cons] at h
      have hrest := ih h.right
      rw [hsize] at hrest
      have hnext : (fun i => read (o + (i + 1) * size)) = fun i => read (o + size + i * size) := by
        funext i
        congr 1
        ring
      rw [List.length_cons, List.range_succ_eq_map, List.mapM_cons, List.mapM_map, zero_mul, add_zero, hread o a h.left]
      rw [show ((fun i => read (o + i * size)) ∘ Nat.succ) = fun i => read (o + (i + 1) * size) from rfl, hnext, hrest]
      rfl

theorem length_flatMap_of_size {A : Type} {encode : A → List UInt8} {size : ℕ} (hsize : ∀ a, (encode a).length = size)
    (items : List A) : (items.flatMap encode).length = items.length * size := by
  rw [List.length_flatMap]
  simp [hsize]

end At

end NetWatch.Lib.LittleEndian
