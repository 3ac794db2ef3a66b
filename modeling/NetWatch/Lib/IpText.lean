import NetWatch.Lib.Texts

namespace NetWatch.Lib.IpText

open Texts

def segments : List UInt8 → List Nat
  | a :: b :: bytes => (a.toNat * 256 + b.toNat) :: segments bytes
  | _ => []

structure Span where
  start : Nat
  len : Nat

def Span.extend (index : Nat) (s : Span) : Span := ⟨if s.len = 0 then index else s.start, s.len + 1⟩

structure Scan where
  index : Nat
  current : Span
  longest : Span

def Scan.push (s : Scan) (segment : Nat) : Scan :=
  if segment = 0 then
    let current := s.current.extend s.index
    ⟨s.index + 1, current, if s.longest.len < current.len then current else s.longest⟩
  else ⟨s.index + 1, ⟨0, 0⟩, s.longest⟩

/-- The first of the longest runs of zero segments. -/
def zeroes (segs : List Nat) : Span := (segs.foldl Scan.push ⟨0, ⟨0, 0⟩, ⟨0, 0⟩⟩).longest

def fmtSubslice (segs : List Nat) : List Char := [':'].intercalate (segs.map hex)

def v6Text (segs : List Nat) : List Char :=
  let z := zeroes segs
  if 1 < z.len then fmtSubslice (segs.take z.start) ++ [':', ':'] ++ fmtSubslice (segs.drop (z.start + z.len))
  else fmtSubslice segs

def v4Text (bytes : List UInt8) : List Char := ['.'].intercalate (bytes.map fun b => decimal b.toNat)

def mappedPrefixBytes : List UInt8 := [0, 0, 0, 0, 0, 0, 0, 0, 0, 0, 0xff, 0xff]

/-- The text of an address, with an IPv4-mapped one shown as plain IPv4. -/
def ipText (bytes : List UInt8) : List Char :=
  if bytes.take 12 = mappedPrefixBytes then v4Text (bytes.drop 12) else v6Text (segments bytes)

example : String.ofList (ipText [0x20, 1, 0xd, 0xb8, 0, 0, 0, 0, 0, 1, 0, 0, 0, 0, 0, 1]) = "2001:db8::1:0:0:1" := by
  decide +kernel

def Zeros (segs : List Nat) (s : Span) : Prop := ∀ i, s.start ≤ i → i < s.start + s.len → segs[i]? = some 0

theorem zeros_append {segs : List Nat} {s : Span} (h : Zeros segs s) (more : List Nat) : Zeros (segs ++ more) s := by
  intro i hl hr
  obtain ⟨hi, hz⟩ := List.getElem?_eq_some_iff.mp (h i hl hr)
  rw [List.getElem?_append_left hi]
  exact h i hl hr

structure Scanned (segs : List Nat) (s : Scan) : Prop where
  index : s.index = segs.length
  current : Zeros segs s.current
  ends : s.current.len = 0 ∨ s.current.start + s.current.len = segs.length
  longest : Zeros segs s.longest

theorem extend_ends {segs : List Nat} {s : Scan} (h : Scanned segs s) :
    (s.current.extend s.index).start + (s.current.extend s.index).len = segs.length + 1 := by
  have hends := h.ends
  have hindex := h.index
  simp only [Span.extend]
  split_ifs <;> omega

theorem extend_zeros {segs : List Nat} {s : Scan} (h : Scanned segs s) :
    Zeros (segs ++ [0]) (s.current.extend s.index) := by
  intro i hl hr
  rw [extend_ends h] at hr
  by_cases hi : i = segs.length
  · rw [hi, List.getElem?_concat_length]
  · have hlt : i < segs.length := by omega
    have hends := h.ends
    have hindex := h.index
    have hstart : s.current.start ≤ i ∧ i < s.current.start + s.current.len := by
      simp only [Span.extend] at hl
      split_ifs at hl <;> omega
    rw [List.getElem?_append_left hlt]
    exact h.current i hstart.1 hstart.2

theorem push_scanned {segs : List Nat} {s : Scan} (h : Scanned segs s) (x : Nat) :
    Scanned (segs ++ [x]) (s.push x) := by
  have hlength : (segs ++ [x]).length = segs.length + 1 := by simp
  by_cases hx : x = 0
  · subst hx
    rw [Scan.push, if_pos rfl]
    refine ⟨by rw [hlength, h.index], extend_zeros h, .inr (by rw [hlength, extend_ends h]), ?_⟩
    dsimp only
    split_ifs
    · exact extend_zeros h
    · exact zeros_append h.longest [0]
  · rw [Scan.push, if_neg hx]
    refine ⟨by rw [hlength, h.index], ?_, .inl rfl, zeros_append h.longest [x]⟩
    intro i hl hr
    exact absurd hr (Nat.not_lt_zero i)

theorem zeroes_zeros (segs : List Nat) : Zeros segs (zeroes segs) := by
  have hfold : ∀ (done todo : List Nat) (s : Scan), Scanned done s → Scanned (done ++ todo) (todo.foldl Scan.push s) := by
    intro done todo
    induction todo generalizing done with
    | nil => intro s hs; simpa using hs
    | cons x todo ih =>
        intro s hs
        have hrest := ih (done ++ [x]) (s.push x) (push_scanned hs x)
        simpa using hrest
  have hempty : Zeros [] ⟨0, 0⟩ := fun i _ hr => absurd hr (Nat.not_lt_zero i)
  exact (hfold [] segs _ ⟨rfl, hempty, .inl rfl, hempty⟩).longest

theorem zeroes_split (segs : List Nat) : segs = segs.take (zeroes segs).start ++
    (List.replicate (zeroes segs).len 0 ++ segs.drop ((zeroes segs).start + (zeroes segs).len)) := by
  have hz := zeroes_zeros segs
  have hmid : (segs.drop (zeroes segs).start).take (zeroes segs).len = List.replicate (zeroes segs).len 0 := by
    apply List.ext_getElem?
    intro i
    by_cases hi : i < (zeroes segs).len
    · rw [List.getElem?_take_of_lt hi, List.getElem?_drop, hz _ (by omega) (by omega),
        List.getElem?_replicate_of_lt hi]
    · rw [List.getElem?_eq_none (by simp; omega), List.getElem?_eq_none (by simp; omega)]
  rw [← hmid, ← List.drop_drop, List.take_append_drop, List.take_append_drop]

def padded (ps : List (List Char)) : List (List Char) := if ps = [] then [[]] else ps

def v6Parts (segs : List Nat) : List (List Char) :=
  let z := zeroes segs
  if 1 < z.len then
    padded ((segs.take z.start).map hex) ++ ([] :: padded ((segs.drop (z.start + z.len)).map hex))
  else segs.map hex

theorem intercalate_padded (ps : List (List Char)) : [':'].intercalate (padded ps) = [':'].intercalate ps := by
  rw [padded]
  split_ifs with h
  · rw [h]
    rfl
  · rfl

theorem padded_ne_nil (ps : List (List Char)) : padded ps ≠ [] := by
  rw [padded]
  split_ifs with h
  · exact List.cons_ne_nil _ _
  · exact h

theorem v6Text_parts (segs : List Nat) : v6Text segs = [':'].intercalate (v6Parts segs) := by
  unfold v6Text v6Parts
  dsimp only
  split_ifs with hz
  · have hne := padded_ne_nil ((segs.drop ((zeroes segs).start + (zeroes segs).len)).map hex)
    rw [intercalate_append (padded_ne_nil _) (List.cons_ne_nil _ _), List.intercalate_cons_of_ne_nil hne,
      intercalate_padded, intercalate_padded]
    simp [fmtSubslice]
  · rfl

def unpack (parts : List (List Char)) : List (List Char) :=
  let before := parts.takeWhile (· ≠ [])
  let given := parts.filter (· ≠ [])
  if [] ∈ parts then before ++ (List.replicate (8 - given.length) ['0'] ++ given.drop before.length) else parts

theorem padded_filter {ps : List (List Char)} (h : ∀ p ∈ ps, p ≠ []) : (padded ps).filter (· ≠ []) = ps := by
  rw [padded]
  split_ifs with hnil
  · rw [hnil]
    rfl
  · exact List.filter_eq_self.mpr (by simpa using h)

theorem padded_takeWhile {ps qs : List (List Char)} (h : ∀ p ∈ ps, p ≠ []) :
    (padded ps ++ [] :: qs).takeWhile (· ≠ []) = ps := by
  unfold padded
  split_ifs with hnil
  · rw [hnil]
    rfl
  · rw [List.takeWhile_append_of_pos (by simpa using h)]
    simp

theorem unpack_v6Parts {segs : List Nat} (h8 : segs.length = 8) : unpack (v6Parts segs) = segs.map hex := by
  have hne : ∀ (l : List Nat), ∀ p ∈ l.map hex, p ≠ [] := by
    intro l p hp
    obtain ⟨n, -, rfl⟩ := List.mem_map.mp hp
    exact hex_ne_nil n
  unfold v6Parts
  dsimp only
  split_ifs with hz
  · have hsplit := zeroes_split segs
    have hlen := congrArg List.length hsplit
    have hfilter : (padded ((segs.take (zeroes segs).start).map hex) ++
        ([] :: padded ((segs.drop ((zeroes segs).start + (zeroes segs).len)).map hex))).filter (· ≠ []) =
        (segs.take (zeroes segs).start).map hex ++ (segs.drop ((zeroes segs).start + (zeroes segs).len)).map hex := by
      rw [List.filter_append, List.filter_cons_of_neg (by simp), padded_filter (hne _), padded_filter (hne _)]
    have hcount : 8 - ((segs.take (zeroes segs).start).map hex ++
        (segs.drop ((zeroes segs).start + (zeroes segs).len)).map hex).length = (zeroes segs).len := by
      rw [h8, List.length_append, List.length_append, List.length_replicate] at hlen
      rw [List.length_append, List.length_map, List.length_map]
      omega
    rw [unpack, if_pos (by simp), hfilter, padded_takeWhile (hne _), hcount, List.drop_left]
    conv_rhs => rw [hsplit]
    rw [List.map_append, List.map_append, List.map_replicate]
    rfl
  · rw [unpack, if_neg fun hmem => hne segs [] hmem rfl]

theorem v6Parts_chars (segs : List Nat) : ∀ p ∈ v6Parts segs, ':' ∉ p ∧ '|' ∉ p := by
  have hhex : ∀ (l : List Nat), ∀ p ∈ l.map hex, ':' ∉ p ∧ '|' ∉ p := by
    intro l p hp
    obtain ⟨n, -, rfl⟩ := List.mem_map.mp hp
    exact hex_chars n
  have hpad : ∀ (l : List Nat), ∀ p ∈ padded (l.map hex), ':' ∉ p ∧ '|' ∉ p := by
    intro l p hp
    unfold padded at hp
    split_ifs at hp
    · rw [List.mem_singleton.mp hp]
      exact ⟨List.not_mem_nil, List.not_mem_nil⟩
    · exact hhex l p hp
  intro p hp
  unfold v6Parts at hp
  dsimp only at hp
  split_ifs at hp
  · rcases List.mem_append.mp hp with hp | hp
    · exact hpad _ p hp
    · rcases List.mem_cons.mp hp with rfl | hp
      · exact ⟨List.not_mem_nil, List.not_mem_nil⟩
      · exact hpad _ p hp
  · exact hhex segs p hp

theorem v6Parts_length {segs : List Nat} (h8 : segs.length = 8) : 2 ≤ (v6Parts segs).length := by
  unfold v6Parts
  dsimp only
  split_ifs
  · have hpos := List.length_pos_iff.mpr (padded_ne_nil ((segs.take (zeroes segs).start).map hex))
    have hpos' := List.length_pos_iff.mpr
      (padded_ne_nil ((segs.drop ((zeroes segs).start + (zeroes segs).len)).map hex))
    rw [List.length_append, List.length_cons]
    omega
  · rw [List.length_map]
    omega

theorem v6Text_injective {segs segs' : List Nat} (h8 : segs.length = 8) (h8' : segs'.length = 8)
    (h : v6Text segs = v6Text segs') : segs = segs' := by
  have hnil : ∀ {l : List Nat}, l.length = 8 → v6Parts l ≠ [] := by
    intro l hl
    have hlen := v6Parts_length hl
    exact List.ne_nil_of_length_pos (by omega)
  rw [v6Text_parts, v6Text_parts] at h
  have hparts := intercalate_inj (fun p hp => (v6Parts_chars segs p hp).1) (fun p hp => (v6Parts_chars segs' p hp).1)
    (hnil h8) (hnil h8') h
  have hhex := unpack_v6Parts h8
  rw [hparts, unpack_v6Parts h8'] at hhex
  exact List.map_injective_iff.mpr hex_injective hhex.symm

theorem segments_injective {bs bs' : List UInt8} (hl : bs.length = 16) (hl' : bs'.length = 16)
    (h : segments bs = segments bs') : bs = bs' := by
  have hgen : ∀ (n : Nat) {bs bs' : List UInt8}, bs.length = 2 * n → bs'.length = 2 * n →
      segments bs = segments bs' → bs = bs' := by
    intro n
    induction n with
    | zero =>
        intro bs bs' hl hl' _
        rw [List.length_eq_zero_iff.mp hl, List.length_eq_zero_iff.mp hl']
    | succ n ih =>
        intro bs bs' hl hl' h
        match bs, bs', hl, hl', h with
        | a :: b :: bs, a' :: b' :: bs', hl, hl', h =>
            simp only [segments, List.cons.injEq] at h
            have hb := b.toNat_lt
            have hb' := b'.toNat_lt
            have ha : a = a' := UInt8.toNat_inj.mp (by omega)
            have hb : b = b' := UInt8.toNat_inj.mp (by omega)
            rw [ha, hb, ih (by simpa [Nat.mul_succ] using hl) (by simpa [Nat.mul_succ] using hl') h.2]
  exact hgen 8 hl hl' h

theorem segments_length {bs : List UInt8} (h : bs.length = 16) : (segments bs).length = 8 := by
  have hgen : ∀ (n : Nat) (bs : List UInt8), bs.length = 2 * n → (segments bs).length = n := by
    intro n
    induction n with
    | zero =>
        intro bs hl
        rw [List.length_eq_zero_iff.mp hl]
        rfl
    | succ n ih =>
        intro bs hl
        match bs, hl with
        | a :: b :: bs, hl => rw [segments, List.length_cons, ih bs (by simpa [Nat.mul_succ] using hl)]
  exact hgen 8 bs h

theorem v4Parts_chars (bs : List UInt8) : ∀ p ∈ bs.map (fun b => decimal b.toNat), '.' ∉ p ∧ ':' ∉ p ∧ '|' ∉ p := by
  intro p hp
  obtain ⟨b, -, rfl⟩ := List.mem_map.mp hp
  exact ⟨notMem_decimal rfl _, notMem_decimal rfl _, notMem_decimal rfl _⟩

theorem v4Text_injective {bs bs' : List UInt8} (h : bs ≠ []) (h' : bs' ≠ []) (ht : v4Text bs = v4Text bs') :
    bs = bs' := by
  have hparts := intercalate_inj (fun p hp => (v4Parts_chars bs p hp).1) (fun p hp => (v4Parts_chars bs' p hp).1)
    (by simpa using h) (by simpa using h') ht
  have hinj : Function.Injective fun b : UInt8 => decimal b.toNat :=
    fun a b hab => UInt8.toNat_inj.mp (decimal_injective hab)
  exact List.map_injective_iff.mpr hinj hparts

theorem notMem_v4Text {c : Char} (bs : List UInt8) (hdot : c ≠ '.') (hc : ∀ n, c ∉ decimal n) : c ∉ v4Text bs := by
  intro h
  rcases mem_intercalate h with hs | ⟨p, hp, hm⟩
  · exact hdot hs
  · obtain ⟨b, -, rfl⟩ := List.mem_map.mp hp
    exact hc _ hm

theorem colon_mem_v6Text {segs : List Nat} (h8 : segs.length = 8) : ':' ∈ v6Text segs := by
  rw [v6Text_parts]
  have hlen := v6Parts_length h8
  match hparts : v6Parts segs with
  | [] => simp [hparts] at hlen
  | [p] => simp [hparts] at hlen
  | p :: q :: rest => simp [List.intercalate_cons_cons]

theorem bar_notMem_ipText (bs : List UInt8) : '|' ∉ ipText bs := by
  unfold ipText
  split_ifs
  · exact notMem_v4Text _ (by decide) (notMem_decimal rfl)
  · rw [v6Text_parts]
    intro h
    rcases mem_intercalate h with hs | ⟨p, hp, hm⟩
    · cases hs
    · exact (v6Parts_chars _ p hp).2 hm

theorem ipText_injective {bs bs' : List UInt8} (hl : bs.length = 16) (hl' : bs'.length = 16)
    (h : ipText bs = ipText bs') : bs = bs' := by
  have hdrop : ∀ {l : List UInt8}, l.length = 16 → l.drop 12 ≠ [] := by
    intro l hlen
    exact List.ne_nil_of_length_pos (by rw [List.length_drop]; omega)
  have hcolon : ∀ l : List UInt8, ':' ∉ v4Text l := fun l => notMem_v4Text l (by decide) (notMem_decimal rfl)
  unfold ipText at h
  split_ifs at h with hm hm' hm'
  · have htail := v4Text_injective (hdrop hl) (hdrop hl') h
    rw [← List.take_append_drop 12 bs, hm, htail, ← hm', List.take_append_drop]
  · exact absurd (h ▸ colon_mem_v6Text (segments_length hl')) (hcolon _)
  · exact absurd (h ▸ colon_mem_v6Text (segments_length hl)) (hcolon _)
  · exact segments_injective hl hl' (v6Text_injective (segments_length hl) (segments_length hl') h)

end NetWatch.Lib.IpText
