import NetWatch.Lib.JsText

namespace NetWatch.GeoIp.Ip

open Lib.JsText Lib.JsValue

def dot : UInt16 := 0x2E

def colon : UInt16 := 0x3A

/-- An address as a number: of 32 bits, or of 128. -/
inductive ParsedIp
  | v4 (n : ℕ)
  | v6 (n : ℕ)
  deriving DecidableEq

def quadPart? (s : Units) : Option ℕ := if s.length ≤ 3 then digits? 10 s else none

def parseV4 (text : Units) : Option ℕ :=
  match text.splitOn dot with
  | [a, b, c, d] => do
      let parts ← [a, b, c, d].mapM quadPart?
      parts.foldlM (fun n o => if 255 < o then none else some (n * 256 + o)) 0
  | _ => none

def hexText (n : ℕ) : Units := digitUnits 16 n

def hexWord? (s : Units) : Option ℕ := if s.length ≤ 4 then digits? 16 s else none

def words (h : Units) : List Units := if h = [] then [] else h.splitOn colon

/-- The number of which the words are the digits. -/
def joinWords (ws : List Units) : Option ℕ :=
  ws.foldlM (fun n w => (hexWord? w).map fun x => (n <<< 16) ||| x) 0

def parseWords (s : Units) : Option ℕ :=
  let halves := split [colon, colon] s
  if 2 < halves.length then none
  else
    let head := words (halves[0]?.getD [])
    let rest := if halves.length = 2 then words (halves[1]?.getD []) else []
    let given := head.length + rest.length
    if if halves.length = 1 then given ≠ 8 else 7 < given then none
    else joinWords (head ++ List.replicate (8 - given) (units "0") ++ rest)

/-- A dotted quad at the end becomes its two words. -/
def parseV6 (text : Units) : Option ℕ :=
  match lastIndexOf? colon text with
  | none => none
  | some lastColon =>
      if dot ∈ text.drop lastColon then
        match parseV4 (text.drop (lastColon + 1)) with
        | none => none
        | some v4 => parseWords (text.take (lastColon + 1) ++ (hexText (v4 >>> 16) ++ colon :: hexText (v4 &&& 0xffff)))
      else parseWords text

def parseIp (text : Units) : Option ParsedIp :=
  match parseV4 text with
  | some n => some (.v4 n)
  | none =>
      match parseV6 text with
      | none => none
      | some n => if n >>> 32 = 0xffff then some (.v4 (n &&& 0xffffffff)) else some (.v6 n)

inductive IpScope
  | publicNet
  | privateNet
  | loopback
  | linkLocal
  | multicast
  | unspecified
  deriving DecidableEq

def inV4 (n : ℕ) (base : String) (bits : ℕ) : Bool :=
  let b := (parseV4 (units base)).getD 0
  b ≤ n && n < b + 2 ^ (32 - bits)

def inV6 (n : ℕ) (base : String) (bits : ℕ) : Bool :=
  n >>> (128 - bits) == ((parseV6 (units base)).getD 0) >>> (128 - bits)

def ipScope : ParsedIp → IpScope
  | .v4 n =>
      if n = 0 then .unspecified
      else if inV4 n "127.0.0.0" 8 then .loopback
      else if inV4 n "169.254.0.0" 16 then .linkLocal
      else if inV4 n "224.0.0.0" 4 || n = 0xffffffff then .multicast
      else if inV4 n "10.0.0.0" 8 || inV4 n "172.16.0.0" 12 || inV4 n "192.168.0.0" 16 || inV4 n "100.64.0.0" 10 ||
        inV4 n "0.0.0.0" 8 then .privateNet
      else if inV4 n "240.0.0.0" 4 then .privateNet
      else .publicNet
  | .v6 n =>
      if n = 0 then .unspecified
      else if n = 1 then .loopback
      else if inV6 n "fe80::" 10 then .linkLocal
      else if inV6 n "ff00::" 8 then .multicast
      else if inV6 n "fc00::" 7 then .privateNet
      else .publicNet

theorem foldlM_lt {α : Type} {f : ℕ → α → Option ℕ} (base : ℕ) (hf : ∀ n x m, f n x = some m → m < n * base + base)
    {l : List α} {n m k : ℕ} (h : l.foldlM f n = some m) (hn : n < base ^ k) : m < base ^ (k + l.length) := by
  induction l generalizing n k with
  | nil =>
      cases h
      exact hn
  | cons x l ih =>
      rw [List.foldlM_cons] at h
      obtain ⟨n', hn', hrest⟩ := Option.bind_eq_some_iff.mp h
      have hstep := hf n x n' hn'
      have hlt : n' < base ^ (k + 1) := by
        calc n' < n * base + base := hstep
          _ = (n + 1) * base := by ring
          _ ≤ base ^ k * base := Nat.mul_le_mul_right base hn
          _ = base ^ (k + 1) := (pow_succ base k).symm
      have hm := ih hrest hlt
      rwa [Nat.add_assoc, Nat.add_comm 1] at hm

theorem parseV4_eq_some {text : Units} {n : ℕ} : parseV4 text = some n ↔ ∃ a b c d x y z w,
    text.splitOn dot = [a, b, c, d] ∧ (quadPart? a = some x ∧ quadPart? b = some y ∧ quadPart? c = some z ∧ quadPart? d = some w) ∧
      (x ≤ 255 ∧ y ≤ 255 ∧ z ≤ 255 ∧ w ≤ 255) ∧ n = ((x * 256 + y) * 256 + z) * 256 + w := by
  have hfold : ∀ x y z w : ℕ, [x, y, z, w].foldlM (fun n o => if 255 < o then none else some (n * 256 + o)) 0 = some n ↔
      (x ≤ 255 ∧ y ≤ 255 ∧ z ≤ 255 ∧ w ≤ 255) ∧ n = ((x * 256 + y) * 256 + z) * 256 + w := by
    intro x y z w
    by_cases hx : 255 < x
    · simp only [List.foldlM_cons, if_pos hx]
      exact ⟨fun h => (by cases h), fun h => by omega⟩
    by_cases hy : 255 < y
    · simp only [List.foldlM_cons, if_neg hx, if_pos hy]
      exact ⟨fun h => (by cases h), fun h => by omega⟩
    by_cases hz : 255 < z
    · simp only [List.foldlM_cons, if_neg hx, if_neg hy, if_pos hz]
      exact ⟨fun h => (by cases h), fun h => by omega⟩
    by_cases hw : 255 < w
    · simp only [List.foldlM_cons, if_neg hx, if_neg hy, if_neg hz, if_pos hw]
      exact ⟨fun h => (by cases h), fun h => by omega⟩
    simp only [List.foldlM_cons, List.foldlM_nil, if_neg hx, if_neg hy, if_neg hz, if_neg hw, Option.bind_eq_bind,
      Option.bind_some, Option.pure_def, Option.some.injEq]
    omega
  constructor
  · intro h
    unfold parseV4 at h
    split at h
    · rename_i a b c d hparts
      simp only [List.mapM_cons, List.mapM_nil, Option.bind_eq_bind, Option.pure_def, Option.bind_eq_some_iff,
        Option.some.injEq] at h
      obtain ⟨_, ⟨x, hx, _, ⟨y, hy, _, ⟨z, hz, _, ⟨w, hw, _, rfl, rfl⟩, rfl⟩, rfl⟩, rfl⟩, hnum⟩ := h
      exact ⟨a, b, c, d, x, y, z, w, hparts, ⟨hx, hy, hz, hw⟩, (hfold x y z w).mp hnum⟩
    · cases h
  · rintro ⟨a, b, c, d, x, y, z, w, hparts, ⟨hx, hy, hz, hw⟩, hnum⟩
    rw [parseV4, hparts]
    simp only [List.mapM_cons, List.mapM_nil, hx, hy, hz, hw, Option.bind_eq_bind, Option.bind_some, Option.pure_def]
    exact (hfold x y z w).mpr hnum

theorem parseV4_lt {text : Units} {n : ℕ} (h : parseV4 text = some n) : n < 2 ^ 32 := by
  obtain ⟨a, b, c, d, x, y, z, w, -, -, hle, rfl⟩ := parseV4_eq_some.mp h
  omega

theorem digit?_lt {base : ℕ} {u : UInt16} {d : ℕ} (h : digit? base u = some d) : d < base := by
  unfold digit? at h
  dsimp only at h
  rw [Option.ite_none_right_eq_some] at h
  obtain ⟨hlt, heq⟩ := h
  cases heq
  exact hlt

theorem hexWord?_lt {w : Units} {x : ℕ} (h : hexWord? w = some x) : x < 2 ^ 16 := by
  unfold hexWord? digits? at h
  split at h
  · rename_i hlen
    split at h
    · cases h
    · have hlt := foldlM_lt 16 (k := 0) (fun n u m hm => by
        obtain ⟨d, hd, rfl⟩ := Option.map_eq_some_iff.mp hm
        exact Nat.add_lt_add_left (digit?_lt hd) _) h (by decide)
      calc x < 16 ^ (0 + w.length) := hlt
        _ ≤ 16 ^ 4 := Nat.pow_le_pow_right (by omega) (by omega)
        _ = 2 ^ 16 := by norm_num
  · cases h

/-- Eight words in a row, or fewer around a `::`. -/
theorem parseWords_eq_some {s : Units} {n : ℕ} : parseWords s = some n ↔
    (∃ h, split [colon, colon] s = [h] ∧ (words h).length = 8 ∧ joinWords (words h) = some n) ∨
      ∃ h t, split [colon, colon] s = [h, t] ∧ (words h).length + (words t).length ≤ 7 ∧
        joinWords (words h ++ List.replicate (8 - ((words h).length + (words t).length)) (units "0") ++ words t) = some n := by
  rw [parseWords]
  have hne := split_ne_nil [colon, colon] s
  match hs : split [colon, colon] s, hne with
  | [h], _ =>
      have hif : (if (words h).length + 0 ≠ 8 then none else joinWords (words h ++ List.replicate (8 - ((words h).length + 0)) (units "0") ++ [])) = some n ↔
          (words h).length = 8 ∧ joinWords (words h) = some n := by
        split
        · rename_i hlen
          exact ⟨fun h => (by cases h), fun h => absurd h.1 hlen⟩
        · rename_i hlen
          have hlen' : (words h).length = 8 := not_not.mp hlen
          rw [hlen', Nat.add_zero, Nat.sub_self, List.replicate_zero, List.append_nil, List.append_nil]
          exact ⟨fun h => ⟨rfl, h⟩, fun h => h.2⟩
      refine Iff.trans hif ⟨fun hok => .inl ⟨h, rfl, hok⟩, ?_⟩
      rintro (⟨_, heq, hok⟩ | ⟨_, _, heq, -⟩)
      · cases heq
        exact hok
      · cases heq
  | [h, t], _ =>
      have hif : (if 7 < (words h).length + (words t).length then none
          else joinWords (words h ++ List.replicate (8 - ((words h).length + (words t).length)) (units "0") ++ words t)) = some n ↔
          (words h).length + (words t).length ≤ 7 ∧
            joinWords (words h ++ List.replicate (8 - ((words h).length + (words t).length)) (units "0") ++ words t) = some n := by
        split
        · rename_i hlen
          exact ⟨fun h => (by cases h), fun h => absurd h.1 (Nat.not_le.mpr hlen)⟩
        · rename_i hlen
          exact ⟨fun h => ⟨Nat.not_lt.mp hlen, h⟩, fun h => h.2⟩
      refine Iff.trans hif ⟨fun hok => .inr ⟨h, t, rfl, hok⟩, ?_⟩
      rintro (⟨_, heq, -⟩ | ⟨_, _, heq, hok⟩)
      · cases heq
      · cases heq
        exact hok
  | _ :: _ :: _ :: _, _ =>
      constructor
      · intro h
        cases h
      · rintro (⟨_, heq, -⟩ | ⟨_, _, heq, -⟩)
        · cases heq
        · cases heq

theorem joinWords_lt {ws : List Units} {n : ℕ} (h : joinWords ws = some n) (hlen : ws.length = 8) : n < 2 ^ 128 := by
  have hlt := foldlM_lt (2 ^ 16) (k := 0) (fun n w m hm => by
    obtain ⟨x, hx, rfl⟩ := Option.map_eq_some_iff.mp hm
    have hxlt := hexWord?_lt hx
    rw [← Nat.shiftLeft_add_eq_or_of_lt hxlt, Nat.shiftLeft_eq]
    exact Nat.add_lt_add_left hxlt _) h (by decide)
  rw [hlen, Nat.zero_add, ← pow_mul] at hlt
  exact hlt

theorem parseWords_lt {s : Units} {n : ℕ} (h : parseWords s = some n) : n < 2 ^ 128 := by
  obtain ⟨h, -, hlen, hjoin⟩ | ⟨h, t, -, hlen, hjoin⟩ := parseWords_eq_some.mp h
  · exact joinWords_lt hjoin hlen
  · apply joinWords_lt hjoin
    rw [List.length_append, List.length_append, List.length_replicate]
    omega

theorem parseV6_lt {text : Units} {n : ℕ} (h : parseV6 text = some n) : n < 2 ^ 128 := by
  unfold parseV6 at h
  split at h
  · cases h
  · split at h
    · split at h
      · cases h
      · exact parseWords_lt h
    · exact parseWords_lt h

end NetWatch.GeoIp.Ip
