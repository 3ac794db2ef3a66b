import Mathlib.Data.Nat.Digits.Defs
import NetWatch.GeoIp.IpGrammar
import NetWatch.History.Ranges
import NetWatch.Lib.IpText

namespace NetWatch.GeoIp.DestText

open Lib.JsText Lib.JsValue Ip IpGrammar
open History.Ranges (Raw BadRequest)
open Lib.IpText (mappedPrefixBytes)

def leftBracket : UInt16 := 0x5B

def rightBracket : UInt16 := 0x5D

/-- `ip:port`, with an IPv6 address in brackets. -/
def destText (ip : Units) (port : ℕ) : Units :=
  if colon ∈ ip then leftBracket :: (ip ++ rightBracket :: colon :: digitUnits 10 port)
  else ip ++ colon :: digitUnits 10 port

structure DestFilter where
  destIp : Units
  destPort : ℕ
  deriving DecidableEq

def portNumber? (s : Units) : Option ℕ :=
  match if s.length ≤ 5 then digits? 10 s else none with
  | some p => if 65535 < p then none else some p
  | none => none

def unbracket (ip : Units) : Units :=
  if ip.head? = some leftBracket ∧ ip.getLast? = some rightBracket then (ip.drop 1).dropLast else ip

/-- `isIP` is 0 for a text that is no address. -/
def parseDest (isIP : Units → ℕ) : Raw → Except BadRequest (Option DestFilter)
  | .undefined => .ok none
  | .str [] => .ok none
  | .other => .error ⟨"dest: expected ip:port"⟩
  | .str raw =>
      if 64 < raw.length then .error ⟨"dest: expected ip:port"⟩
      else
        match lastIndexOf? colon raw with
        | none | some 0 => .error ⟨"dest: expected ip:port"⟩
        | some (k + 1) =>
            let ip := unbracket (raw.take (k + 1))
            match portNumber? (raw.drop (k + 2)) with
            | some port => if isIP ip = 0 then .error ⟨"dest: expected ip:port"⟩ else .ok (some ⟨ip, port⟩)
            | none => .error ⟨"dest: expected ip:port"⟩

section Bytes

variable {bytes : List UInt8} {text : Units} {n : ℕ}

def beValue (bytes : List UInt8) : ℕ := Nat.ofDigits 256 (bytes.reverse.map UInt8.toNat)

theorem bytes_lt (bytes : List UInt8) : ∀ d ∈ bytes.reverse.map UInt8.toNat, d < 256 := by
  intro d hd
  obtain ⟨b, -, rfl⟩ := List.mem_map.mp hd
  exact b.toNat_lt

theorem beValue_append (a b : List UInt8) : beValue (a ++ b) = beValue b + 256 ^ b.length * beValue a := by
  rw [beValue, List.reverse_append, List.map_append, Nat.ofDigits_append, List.length_map, List.length_reverse]
  rfl

theorem beValue_lt (bytes : List UInt8) : beValue bytes < 256 ^ bytes.length := by
  have hlt := Nat.ofDigits_lt_base_pow_length (by decide : 1 < 256) (bytes_lt bytes)
  rwa [List.length_map, List.length_reverse] at hlt

theorem beValue_inj {a b : List UInt8} (hlen : a.length = b.length) (h : beValue a = beValue b) : a = b := by
  have hdigits := Nat.ofDigits_inj_of_len_eq (by decide : 1 < 256)
    (by rw [List.length_map, List.length_map, List.length_reverse, List.length_reverse, hlen]) (bytes_lt a) (bytes_lt b) h
  have hmap : Function.Injective (List.map UInt8.toNat) := List.map_injective_iff.mpr fun x y => UInt8.toNat_inj.mp
  exact List.reverse_injective (hmap hdigits)

theorem mapped_iff (hlen : bytes.length = 16) :
    beValue bytes >>> 32 = 0xffff ↔ bytes.take 12 = mappedPrefixBytes := by
  have htake : (bytes.take 12).length = 12 := by
    rw [List.length_take, hlen]
    rfl
  have hdrop : (bytes.drop 12).length = 4 := by rw [List.length_drop, hlen]
  have hlt := beValue_lt (bytes.drop 12)
  have hsplit := beValue_append (bytes.take 12) (bytes.drop 12)
  rw [List.take_append_drop] at hsplit
  rw [hdrop] at hlt hsplit
  have hhigh : beValue bytes >>> 32 = beValue (bytes.take 12) := by
    rw [Nat.shiftRight_eq_div_pow]
    omega
  rw [hhigh]
  constructor
  · intro h
    exact beValue_inj htake h
  · intro h
    rw [h]
    rfl

theorem low_bytes (hlen : bytes.length = 16) : beValue bytes &&& 0xffffffff = beValue (bytes.drop 12) := by
  have hdrop : (bytes.drop 12).length = 4 := by rw [List.length_drop, hlen]
  have hlt := beValue_lt (bytes.drop 12)
  have hsplit := beValue_append (bytes.take 12) (bytes.drop 12)
  rw [List.take_append_drop] at hsplit
  rw [hdrop] at hlt hsplit
  rw [Nat.and_two_pow_sub_one_eq_mod _ 32]
  omega

theorem parseV4_v6 (h : V6 text n) : parseV4 text = none := by
  by_contra hsome
  obtain ⟨v, hv⟩ := Option.ne_none_iff_exists'.mp hsome
  exact (parseV4_iff.mp hv).colon_notMem h.colon_mem

theorem parseIp_bytes (hlen : bytes.length = 16) (h : V6 text (beValue bytes)) : parseIp text =
    some (if bytes.take 12 = mappedPrefixBytes then .v4 (beValue (bytes.drop 12)) else .v6 (beValue bytes)) := by
  rw [parseIp, parseV4_v6 h, parseV6_iff.mpr h]
  dsimp only
  by_cases hmapped : bytes.take 12 = mappedPrefixBytes
  · rw [if_pos ((mapped_iff hlen).mpr hmapped), if_pos hmapped, low_bytes hlen]
  · rw [if_neg (mt (mapped_iff hlen).mp hmapped), if_neg hmapped]

end Bytes

section Length

variable {ws ps : List Units} {us vs : List ℕ} {q s : Units} {n : ℕ}

theorem length_groups (h : List.Forall₂ Group ws vs) : ([colon].intercalate ws).length ≤ 5 * vs.length := by
  induction h with
  | nil => exact Nat.zero_le _
  | @cons w x ws vs hw _ ih =>
      have hlen := hw.1
      by_cases hne : ws = []
      · rw [hne, List.intercalate_singleton, List.length_cons]
        omega
      · rw [List.intercalate_cons_of_ne_nil hne, List.length_append, List.length_append, List.length_singleton, List.length_cons]
        omega

theorem length_quad (h : Quad q n) : q.length ≤ 15 := by
  cases h with
  | mk ha hb hc hd =>
      have ha := ha.1
      have hb := hb.1
      have hc := hc.1
      have hd := hd.1
      simp only [List.length_append, List.length_cons]
      omega

theorem length_parts (h : Parts ps vs) : ([colon].intercalate ps).length ≤ 5 * vs.length + 6 := by
  cases h with
  | groups hg => exact (length_groups hg).trans (Nat.le_add_right _ 6)
  | @quad ps vs q n hg hq =>
      have hlen := length_groups hg
      have hquad := length_quad hq
      by_cases hne : ps = []
      · rw [hne, List.nil_append, List.intercalate_singleton, List.length_append, List.length_cons, List.length_singleton]
        omega
      · rw [Lib.Texts.intercalate_append hne (List.cons_ne_nil q []), List.intercalate_singleton, List.length_append,
          List.length_append, List.length_cons, List.length_cons, List.length_singleton]
        omega

theorem length_v6 (h : V6 s n) : s.length ≤ 46 := by
  cases h with
  | full hparts hlen =>
      have hle := length_parts hparts
      omega
  | compressed hus hparts hlen =>
      have hhead := length_groups hus
      have hle := length_parts hparts
      simp only [List.length_append, List.length_cons, List.length_nil]
      omega

end Length

section RoundTrip

variable {isIP : Units → ℕ} {ip pre p s : Units} {n port : ℕ}

theorem digitUnits_port (port : ℕ) (h : port ≤ 65535) : portNumber? (digitUnits 10 port) = some port := by
  have hlen : (digitUnits 10 port).length ≤ 5 := length_digitUnits (by omega) (by omega) (by omega)
  have hdigits := digits_digitUnits (by decide : 1 < 10) (by decide) port
  rw [portNumber?, if_pos hlen, (digits?_iff (by decide)).mpr hdigits]
  exact if_neg (Nat.not_lt.mpr h)

theorem colon_notMem_digitUnits (port : ℕ) : colon ∉ digitUnits 10 port :=
  colon_notMem (digits_digitUnits (by decide : 1 < 10) (by decide) port)

/-- A text is read at its last colon. -/
theorem parseDest_last (hs : s = pre ++ colon :: digitUnits 10 port) (hpre : pre ≠ []) (hlen : s.length ≤ 64)
    (hport : port ≤ 65535) (hip : unbracket pre = ip) (his : isIP ip ≠ 0) :
    parseDest isIP (.str s) = .ok (some ⟨ip, port⟩) := by
  have hpos := List.length_pos_of_ne_nil hpre
  obtain ⟨k, hk⟩ := Nat.exists_eq_add_one.mpr hpos
  have hidx : lastIndexOf? colon s = some (k + 1) := by rw [hs, lastIndexOf?_append (colon_notMem_digitUnits port), hk]
  have htake : s.take (k + 1) = pre := by rw [hs, ← hk, List.take_left]
  have hdrop : s.drop (k + 1 + 1) = digitUnits 10 port := by
    rw [hs, ← hk, List.append_cons]
    exact List.drop_left' (by rw [List.length_append, List.length_singleton])
  have hne : s ≠ [] := by
    rw [hs]
    exact List.append_ne_nil_of_left_ne_nil hpre _
  rw [parseDest, if_neg (Nat.not_lt.mpr hlen), hidx]
  · dsimp only
    rw [htake, hdrop, digitUnits_port port hport, hip]
    exact if_neg his
  · exact hne

theorem unbracket_brackets (ip : Units) : unbracket (leftBracket :: (ip ++ [rightBracket])) = ip := by
  have hlast : (leftBracket :: (ip ++ [rightBracket])).getLast? = some rightBracket := by
    rw [← List.cons_append, List.getLast?_concat]
  rw [unbracket, if_pos ⟨rfl, hlast⟩, List.drop_one, List.tail_cons, List.dropLast_concat]

theorem unbracket_quad (h : Quad ip n) : unbracket ip = ip := by
  apply if_neg
  rintro ⟨hhead, -⟩
  cases h with
  | @mk a _ _ _ _ _ _ _ ha _ _ _ =>
      obtain ⟨u, us, rfl⟩ := List.exists_cons_of_ne_nil ha.2.1.ne_nil
      obtain ⟨d, hd, -, hu⟩ := ha.2.1.mem List.mem_cons_self
      cases hhead
      have hbracket : leftBracket.toNat = 0x5B := rfl
      omega

theorem parseDest_destText (h : V6 ip n ∨ Quad ip n) (his : isIP ip ≠ 0) (hport : port ≤ 65535) :
    parseDest isIP (.str (destText ip port)) = .ok (some ⟨ip, port⟩) := by
  have hdigits : (digitUnits 10 port).length ≤ 5 := length_digitUnits (by omega) (by omega) (by omega)
  obtain h | h := h
  · have hlen := length_v6 h
    have htext : destText ip port = (leftBracket :: (ip ++ [rightBracket])) ++ colon :: digitUnits 10 port := by
      rw [destText, if_pos h.colon_mem, List.cons_append, List.append_assoc]
      rfl
    refine parseDest_last htext (List.cons_ne_nil _ _) ?_ hport (unbracket_brackets ip) his
    rw [htext]
    simp only [List.length_append, List.length_cons, List.length_nil]
    omega
  · have hlen := length_quad h
    have htext : destText ip port = ip ++ colon :: digitUnits 10 port := if_neg h.colon_notMem
    refine parseDest_last htext (List.ne_nil_of_mem h.dot_mem) ?_ hport (unbracket_quad h) his
    rw [htext, List.length_append, List.length_cons]
    omega

end RoundTrip

/-- The accepted texts of IPv6 addresses are those of the grammar, with their numbers; any text
of a stored address is read as that address; the text of a destination is read back. -/
theorem v6_texts (isIP : Units → ℕ) : (∀ text n, parseV6 text = some n ↔ V6 text n) ∧
    (∀ bytes : List UInt8, bytes.length = 16 → ∀ text, V6 text (beValue bytes) → parseIp text =
      some (if bytes.take 12 = mappedPrefixBytes then .v4 (beValue (bytes.drop 12)) else .v6 (beValue bytes))) ∧
    ∀ ip n port, V6 ip n ∨ Quad ip n → isIP ip ≠ 0 → port ≤ 65535 →
      parseDest isIP (.str (destText ip port)) = .ok (some ⟨ip, port⟩) :=
  ⟨fun _ _ => parseV6_iff, fun _ hlen _ h => parseIp_bytes hlen h, fun _ _ _ h his hport => parseDest_destText h his hport⟩

/-- A mapped address with its dotted tail, and a compressed one as a destination. -/
theorem v6_texts_sample : parseIp (units "::ffff:1.2.3.4") = some (.v4 16909060) ∧
    parseDest (fun ip => if (parseV6 ip).isSome then 6 else if (parseV4 ip).isSome then 4 else 0)
      (.str (destText (units "2001:db8::1") 443)) = .ok (some ⟨units "2001:db8::1", 443⟩) := by
  have hall := v6_texts fun ip => if (parseV6 ip).isSome then 6 else if (parseV4 ip).isSome then 4 else 0
  have hbytes := hall.2.1 [0, 0, 0, 0, 0, 0, 0, 0, 0, 0, 0xff, 0xff, 1, 2, 3, 4] rfl (units "::ffff:1.2.3.4")
  have hv6 : V6 (units "2001:db8::1") 0x20010db8000000000000000000000001 := (hall.1 _ _).mp (by decide +kernel)
  refine ⟨?_, hall.2.2 _ _ 443 (.inl hv6) (by decide +kernel) (by decide)⟩
  exact hbytes ((hall.1 _ _).mp (by decide +kernel))

end NetWatch.GeoIp.DestText
