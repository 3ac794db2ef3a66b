import NetWatch.Collector.BtfParse
import NetWatch.Lib.Runs

namespace NetWatch.Collector.BtfFormat

open Lib.Assoc Lib.LittleEndian BtfReader BtfParse
open Lib.Runs (ok_bind)

inductive Bare
  | ptr
  | fwd
  | typedef
  | volatile
  | const
  | restrict
  | func
  | float
  | typeTag

def Bare.kind : Bare → UInt32
  | .ptr => 2
  | .fwd => 7
  | .typedef => 8
  | .volatile => 9
  | .const => 10
  | .restrict => 11
  | .func => 12
  | .float => 16
  | .typeTag => 18

inductive Worded
  | int
  | var
  | declTag

def Worded.kind : Worded → UInt32
  | .int => 1
  | .var => 14
  | .declTag => 17

inductive Compound
  | struct
  | union

def Compound.kind : Compound → UInt32
  | .struct => 4
  | .union => 5

structure Words2 where
  first : UInt32
  second : UInt32

structure Words3 where
  first : UInt32
  second : UInt32
  third : UInt32

def Words2.encode (w : Words2) : List UInt8 := le32 w.first ++ le32 w.second

def Words3.encode (w : Words3) : List UInt8 := le32 w.first ++ (le32 w.second ++ le32 w.third)

/-- What a record holds beyond its first words. A member is its name, type and offset, a
value of an enum its name and value, one of an enum64 its name, low and high word. -/
inductive Body
  | bare (kind : Bare) (vlen : UInt16)
  | word (kind : Worded) (vlen : UInt16) (data : UInt32)
  | array (vlen : UInt16) (data : Words3)
  | compound (kind : Compound) (members : List Words3)
  | enum (values : List Words2)
  | enum64 (values : List Words3)
  | funcProto (params : List Words2)
  | datasec (vars : List Words3)

def Body.kind : Body → UInt32
  | .bare k _ => k.kind
  | .word k _ _ => k.kind
  | .array _ _ => 3
  | .compound k _ => k.kind
  | .enum _ => 6
  | .enum64 _ => 19
  | .funcProto _ => 13
  | .datasec _ => 15

def Body.vlen : Body → ℕ
  | .bare _ vlen | .word _ vlen _ | .array vlen _ => vlen.toNat
  | .compound _ items | .enum64 items | .datasec items => items.length
  | .enum items | .funcProto items => items.length

def Body.encode : Body → List UInt8
  | .bare _ _ => []
  | .word _ _ data => le32 data
  | .array _ data => data.encode
  | .compound _ items | .enum64 items | .datasec items => items.flatMap Words3.encode
  | .enum items | .funcProto items => items.flatMap Words2.encode

structure Record where
  name : UInt32
  kindFlag : Bool
  sizeOrType : UInt32
  body : Body
  fits : body.vlen < 2 ^ 16

def infoWord (vlen : ℕ) (kind : UInt32) (kindFlag : Bool) : UInt32 :=
  UInt32.ofNat (vlen + kind.toNat * 2 ^ 24 + if kindFlag then 2 ^ 31 else 0)

def Record.encode (r : Record) : List UInt8 :=
  le32 r.name ++ (le32 (infoWord r.body.vlen r.body.kind r.kindFlag) ++ (le32 r.sizeOrType ++ r.body.encode))

def memberOf (kindFlag : Bool) (w : Words3) : Member :=
  ⟨w.first, w.second, if kindFlag then UInt32.ofNat (w.third.toNat % 2 ^ 24) else w.third⟩

def valueOf (w : Words2) : UInt32 × ℤ := (w.first, Int.bmod w.second.toNat (2 ^ 32))

def value64Of (w : Words3) : UInt32 × ℤ := (w.first, Int.bmod (w.third.toNat * 2 ^ 32 + w.second.toNat) (2 ^ 64))

def Record.ty (r : Record) : Ty where
  name := r.name
  kind := r.body.kind
  ty := r.sizeOrType
  members :=
    match r.body with
    | .compound _ members => members.map (memberOf r.kindFlag)
    | _ => []
  enums :=
    match r.body with
    | .enum values => values.map valueOf
    | .enum64 values => values.map value64Of
    | _ => []

section Words

variable {d : List UInt8} {o : ℕ}

theorem u32At_ok {w : UInt32} (h : At d o (le32 w)) : u32At d o = .ok w := by
  obtain ⟨after, hdrop⟩ := h.drop
  rw [u32At, hdrop]
  exact congrArg Except.ok (fromLe32_le32 w)

theorem kind_lt (b : Body) : b.kind.toNat < 32 := by
  cases b with
  | bare k _ =>
      rw [Body.kind]
      cases k <;> decide
  | word k _ _ =>
      rw [Body.kind]
      cases k <;> decide
  | compound k _ =>
      rw [Body.kind]
      cases k <;> decide
  | array | enum | enum64 | funcProto | datasec =>
      rw [Body.kind]
      decide

section Info

variable {vlen : ℕ} {kind : UInt32} (hvlen : vlen < 2 ^ 16) (hkind : kind.toNat < 32) (flag : Bool)
include hvlen hkind

theorem infoWord_toNat : (infoWord vlen kind flag).toNat = vlen + kind.toNat * 2 ^ 24 + if flag then 2 ^ 31 else 0 := by
  rw [infoWord, UInt32.toNat_ofNat']
  cases flag <;> simp only [Bool.false_eq_true, if_true, if_false] <;> omega

theorem infoWord_vlen : (infoWord vlen kind flag &&& 0xffff).toNat = vlen := by
  rw [UInt32.toNat_and, infoWord_toNat hvlen hkind]
  have hmask : (0xffff : UInt32).toNat = 2 ^ 16 - 1 := rfl
  rw [hmask, Nat.and_two_pow_sub_one_eq_mod]
  cases flag <;> simp only [Bool.false_eq_true, if_true, if_false] <;> omega

theorem infoWord_kind : (infoWord vlen kind flag >>> 24) &&& 0x1f = kind := by
  apply UInt32.toNat_inj.mp
  have hmask : (0x1f : UInt32).toNat = 2 ^ 5 - 1 := rfl
  rw [UInt32.toNat_and, UInt32.toNat_shiftRight, infoWord_toNat hvlen hkind, hmask, Nat.and_two_pow_sub_one_eq_mod,
    Nat.shiftRight_eq_div_pow]
  cases flag <;> simp only [Bool.false_eq_true, if_true, if_false, UInt32.reduceToNat, Nat.reduceMod] <;> omega

theorem infoWord_flag : (infoWord vlen kind flag >>> 31 == 1) = flag := by
  have hbit : (infoWord vlen kind flag >>> 31).toNat = if flag then 1 else 0 := by
    rw [UInt32.toNat_shiftRight, infoWord_toNat hvlen hkind, Nat.shiftRight_eq_div_pow]
    cases flag <;> simp only [Bool.false_eq_true, if_true, if_false, UInt32.reduceToNat, Nat.reduceMod] <;> omega
  cases flag with
  | false =>
      have hzero : infoWord vlen kind false >>> 31 = 0 := UInt32.toNat_inj.mp hbit
      rw [hzero]
      rfl
  | true =>
      have hone : infoWord vlen kind true >>> 31 = 1 := UInt32.toNat_inj.mp hbit
      rw [hone]
      rfl

end Info

section Items

theorem words2_ok {w : Words2} (h : At d o w.encode) : u32At d o = .ok w.first ∧ u32At d (o + 4) = .ok w.second :=
  ⟨u32At_ok h.left, u32At_ok h.right⟩

theorem words3_ok {w : Words3} (h : At d o w.encode) :
    u32At d o = .ok w.first ∧ u32At d (o + 4) = .ok w.second ∧ u32At d (o + 8) = .ok w.third :=
  ⟨u32At_ok h.left, u32At_ok h.right.left, u32At_ok h.right.right⟩

theorem readMember_ok (flag : Bool) {w : Words3} (h : At d o w.encode) : readMember d flag o = .ok (memberOf flag w) := by
  have hoff : w.third &&& 0x00ffffff = UInt32.ofNat (w.third.toNat % 2 ^ 24) := by
    apply UInt32.toNat_inj.mp
    have hmask : (0x00ffffff : UInt32).toNat = 2 ^ 24 - 1 := rfl
    rw [UInt32.toNat_and, UInt32.toNat_ofNat', hmask, Nat.and_two_pow_sub_one_eq_mod]
    omega
  obtain ⟨hname, hty, hthird⟩ := words3_ok h
  rw [readMember, hname, hty, hthird, memberOf, ← hoff]
  rfl

theorem readEnum_ok {w : Words2} (h : At d o w.encode) : readEnum d o = .ok (valueOf w) := by
  obtain ⟨hname, hvalue⟩ := words2_ok h
  rw [readEnum, hname, hvalue, valueOf, ← UInt32.toNat_toBitVec, ← BitVec.toInt_eq_toNat_bmod]
  rfl

theorem pair64 (high low : UInt32) : ((high.toUInt64 <<< 32) ||| low.toUInt64).toBitVec.toInt =
    Int.bmod (high.toNat * 2 ^ 32 + low.toNat) (2 ^ 64) := by
  have hhigh := high.toNat_lt
  have hlow := low.toNat_lt
  have hshift : (high.toUInt64 <<< 32).toNat = high.toNat <<< 32 := by
    rw [UInt64.toNat_shiftLeft, UInt32.toNat_toUInt64, Nat.shiftLeft_eq, Nat.shiftLeft_eq]
    simp only [UInt64.reduceToNat, Nat.reduceMod]
    omega
  have hnat : ((high.toUInt64 <<< 32) ||| low.toUInt64).toNat = high.toNat * 2 ^ 32 + low.toNat := by
    rw [UInt64.toNat_or, hshift, UInt32.toNat_toUInt64, ← Nat.shiftLeft_add_eq_or_of_lt hlow, Nat.shiftLeft_eq]
  rw [BitVec.toInt_eq_toNat_bmod, UInt64.toNat_toBitVec, hnat]
  push_cast
  rfl

theorem readEnum64_ok {w : Words3} (h : At d o w.encode) : readEnum64 d o = .ok (value64Of w) := by
  obtain ⟨hname, hlow, hhigh⟩ := words3_ok h
  rw [readEnum64, hname, hlow, hhigh, value64Of, ← pair64]
  rfl

theorem length_words2 (w : Words2) : w.encode.length = 8 := rfl

theorem length_words3 (w : Words3) : w.encode.length = 12 := rfl

end Items

section Kinds

variable {vlen : ℕ} {flag : Bool} {t : Ty}

theorem readBody_compound (k : Compound) (hk : t.kind = k.kind) : readBody d o vlen flag t = (do
    let members ← (List.range vlen).mapM fun i => readMember d flag (o + i * 12)
    return ({ t with members := members }, vlen * 12)) := by
  rw [readBody, hk]
  cases k <;> rfl

theorem readBody_enum (hk : t.kind = kindEnum) : readBody d o vlen flag t = (do
    let enums ← (List.range vlen).mapM fun i => readEnum d (o + i * 8)
    return ({ t with enums := enums }, vlen * 8)) := by
  rw [readBody, hk]
  rfl

theorem readBody_enum64 (hk : t.kind = kindEnum64) : readBody d o vlen flag t = (do
    let enums ← (List.range vlen).mapM fun i => readEnum64 d (o + i * 12)
    return ({ t with enums := enums }, vlen * 12)) := by
  rw [readBody, hk]
  rfl

end Kinds

theorem readBody_ok (r : Record) (h : At d o r.body.encode) :
    readBody d o r.body.vlen r.kindFlag ⟨r.name, r.body.kind, r.sizeOrType, [], []⟩ = .ok (r.ty, r.body.encode.length) := by
  obtain ⟨name, flag, sizeOrType, body, fits⟩ := r
  cases body with
  | bare k vlen => cases k <;> rfl
  | word k vlen data => cases k <;> rfl
  | array vlen data => rfl
  | compound k members =>
      have hitems := At.mapM length_words3 (fun o w hw => readMember_ok flag hw) h
      rw [readBody_compound k rfl, Body.vlen, hitems, Body.encode, length_flatMap_of_size length_words3]
      rfl
  | enum values =>
      have hitems := At.mapM length_words2 (fun o w hw => readEnum_ok hw) h
      rw [readBody_enum rfl, Body.vlen, hitems, Body.encode, length_flatMap_of_size length_words2]
      rfl
  | enum64 values =>
      have hitems := At.mapM length_words3 (fun o w hw => readEnum64_ok hw) h
      rw [readBody_enum64 rfl, Body.vlen, hitems, Body.encode, length_flatMap_of_size length_words3]
      rfl
  | funcProto params =>
      have hlength := length_flatMap_of_size length_words2 params
      exact congrArg (fun n => Except.ok (_, n)) hlength.symm
  | datasec vars =>
      have hlength := length_flatMap_of_size length_words3 vars
      exact congrArg (fun n => Except.ok (_, n)) hlength.symm

theorem readType_ok (r : Record) (h : At d o r.encode) : readType d o = .ok (r.ty, r.body.encode.length) := by
  have hname : u32At d o = .ok r.name := u32At_ok h.left
  have hinfo : u32At d (o + 4) = .ok (infoWord r.body.vlen r.body.kind r.kindFlag) := u32At_ok h.right.left
  have hsize : u32At d (o + 8) = .ok r.sizeOrType := u32At_ok h.right.right.left
  have hbody : At d (o + 12) r.body.encode := h.right.right.right
  have hvlen := infoWord_vlen r.fits (kind_lt r.body) r.kindFlag
  have hkind := infoWord_kind r.fits (kind_lt r.body) r.kindFlag
  have hflag := infoWord_flag r.fits (kind_lt r.body) r.kindFlag
  have hread := readBody_ok r hbody
  rw [readType, hname, ok_bind, hinfo, ok_bind, hsize, ok_bind]
  dsimp only
  rw [hvlen, hkind, hflag, hread]

theorem readTypes_ok (records : List Record) (h : At d o (records.flatMap Record.encode)) :
    readTypes d (o + (records.flatMap Record.encode).length) o = .ok (records.map Record.ty) := by
  induction records generalizing o with
  | nil =>
      rw [readTypes, if_neg (by simp)]
      rfl
  | cons r records ih =>
      rw [List.flatMap_cons] at h ⊢
      have hsize : r.encode.length = 12 + r.body.encode.length := by
        simp only [Record.encode, List.length_append, length_le32]
        omega
      have hrest := ih h.right
      have hstop : o + (r.encode ++ records.flatMap Record.encode).length =
          o + r.encode.length + (records.flatMap Record.encode).length := by
        rw [List.length_append]
        omega
      have hnext : o + 12 + r.body.encode.length = o + r.encode.length := by omega
      rw [readTypes, if_pos (by rw [List.length_append]; omega), readType_ok r h.left]
      show (do
        let ts ← readTypes d (o + (r.encode ++ records.flatMap Record.encode).length) (o + 12 + r.body.encode.length)
        return r.ty :: ts) = _
      rw [hnext, hstop, hrest]
      rfl

end Words

def textAt (strings : List UInt8) (off : UInt32) : String :=
  ((Lib.Utf8.fromUtf8 ((strings.drop off.toNat).takeWhile (· ≠ 0))).map String.ofList).getD ""

def Record.defines (strings : List UInt8) (name : String) (kind : UInt32) (r : Record) : Bool :=
  isNamed r.ty && (textAt strings r.name = name && r.body.kind = kind)

/-- A map holds the first definition of each name among some records. -/
def Indexes (records : List Record) (strings : List UInt8) (m : Dict (String × UInt32) UInt32) : Prop :=
  ∀ name kind, m.get? (name, kind) = (records.findIdx? (Record.defines strings name kind)).map fun i => UInt32.ofNat (i + 1)

section Step

variable {records : List Record} {strings : List UInt8} {r : Record} {m : Dict (String × UInt32) UInt32}

theorem indexes_skip (hm : Indexes records strings m) (hr : ∀ name kind, (r.defines strings name kind && (m.get? (name, kind)).isNone) = false) :
    Indexes (records ++ [r]) strings m := by
  intro name kind
  have hnone := hr name kind
  rw [List.findIdx?_append, List.findIdx?_singleton, Option.map_or, ← hm name kind]
  cases hget : m.get? (name, kind) with
  | some id => rfl
  | none =>
      rw [hget, Option.isNone_none, Bool.and_true] at hnone
      rw [hnone]
      rfl

theorem indexes_insert (hm : Indexes records strings m) {name₀ : String} {kind₀ : UInt32}
    (hr : ∀ name kind, r.defines strings name kind = true ↔ (name, kind) = (name₀, kind₀)) (hnone : m.get? (name₀, kind₀) = none) :
    Indexes (records ++ [r]) strings (m.insert (name₀, kind₀) (UInt32.ofNat (records.length + 1))) := by
  intro name kind
  rw [List.findIdx?_append, List.findIdx?_singleton, Option.map_or, ← hm name kind, Dict.get?_insert]
  by_cases hkey : (name, kind) = (name₀, kind₀)
  · rw [if_pos hkey, if_pos ((hr name kind).mpr hkey), hkey, hnone, Option.none_or, Option.map_some, Option.map_some, zero_add]
  · rw [if_neg hkey, if_neg (mt (hr name kind).mp hkey), Option.map_none, Option.map_none, Option.or_none]

end Step

section Names

variable {records : List Record} {strings : List UInt8} (hcount : records.length + 1 < 2 ^ 32)
  (hnames : ∀ r ∈ records, isNamed r.ty = true → r.name.toNat ≤ strings.length)
include hcount hnames

theorem addName_ok {m : Dict (String × UInt32) UInt32} {n : ℕ} (hn : n < records.length) (hm : Indexes (records.take n) strings m) :
    ∃ m', addName ⟨void :: records.map Record.ty, strings, .empty⟩ m (1 + n) = .ok m' ∧
      Indexes (records.take (n + 1)) strings m' := by
  have htake : records.take (n + 1) = records.take n ++ [records[n]] := (List.take_append_getElem hn).symm
  have hlength : (records.take n).length = n := List.length_take_of_le hn.le
  have htype : Btf.type ⟨void :: records.map Record.ty, strings, .empty⟩ (UInt32.ofNat (1 + n)) = .ok records[n].ty := by
    have hid : (UInt32.ofNat (1 + n)).toNat = n + 1 := by
      rw [UInt32.toNat_ofNat']
      omega
    rw [Btf.type, hid, List.getElem?_cons_succ, List.getElem?_map, List.getElem?_eq_getElem hn]
    rfl
  rw [addName, htype, ok_bind, htake]
  by_cases hnamed : isNamed records[n].ty = true
  · have hstr : Btf.str ⟨void :: records.map Record.ty, strings, .empty⟩ records[n].ty.name =
        .ok (textAt strings records[n].name) := if_pos (hnames _ (List.getElem_mem hn) hnamed)
    have hdefines : ∀ name kind, records[n].defines strings name kind = true ↔
        (name, kind) = (textAt strings records[n].name, records[n].ty.kind) := by
      intro name kind
      rw [Record.defines, hnamed, Bool.true_and, Bool.and_eq_true, decide_eq_true_iff, decide_eq_true_iff, Prod.mk.injEq,
        eq_comm, eq_comm (a := records[n].body.kind)]
      rfl
    rw [if_pos hnamed, hstr, ok_bind]
    cases hget : m.get? (textAt strings records[n].name, records[n].ty.kind) with
    | some id =>
        refine ⟨m, rfl, indexes_skip hm fun name kind => ?_⟩
        by_cases hkey : (name, kind) = (textAt strings records[n].name, records[n].ty.kind)
        · rw [hkey, hget, Option.isNone_some, Bool.and_false]
        · rw [Bool.eq_false_of_not_eq_true (mt (hdefines name kind).mp hkey), Bool.false_and]
    | none =>
        refine ⟨_, rfl, ?_⟩
        have hinsert := indexes_insert hm hdefines hget
        rwa [hlength, Nat.add_comm] at hinsert
  · rw [if_neg hnamed]
    refine ⟨m, rfl, indexes_skip hm fun name kind => ?_⟩
    rw [Record.defines, Bool.eq_false_of_not_eq_true hnamed, Bool.false_and, Bool.false_and]

theorem addNames_ok (n : ℕ) (hn : n ≤ records.length) :
    ∃ m, (List.range' 1 n).foldlM (addName ⟨void :: records.map Record.ty, strings, .empty⟩) .empty = .ok m ∧
      Indexes (records.take n) strings m := by
  induction n with
  | zero => exact ⟨.empty, rfl, fun name kind => rfl⟩
  | succ n ih =>
      obtain ⟨m, hfold, hm⟩ := ih (by omega)
      obtain ⟨m', hadd, hm'⟩ := addName_ok hcount hnames (by omega) hm
      refine ⟨m', ?_, hm'⟩
      rw [List.range'_1_concat, List.foldlM_append, hfold, ok_bind, List.foldlM_cons, hadd]
      rfl

end Names

structure Layout where
  version : UInt8
  flags : UInt8
  hdrLen : UInt32
  typeOff : UInt32
  strOff : UInt32

def Layout.encode (l : Layout) (typeLen strLen : UInt32) : List UInt8 :=
  le16 0xeb9f ++ ([l.version, l.flags] ++ (le32 l.hdrLen ++ (le32 l.typeOff ++ (le32 typeLen ++ (le32 l.strOff ++ le32 strLen)))))

/-- A blob holds some records and a string table, whose names lie in the table. -/
structure Encodes (d : List UInt8) (l : Layout) (records : List Record) (strings : List UInt8) : Prop where
  header : At d 0 (l.encode (UInt32.ofNat (records.flatMap Record.encode).length) (UInt32.ofNat strings.length))
  hdrLen : 24 ≤ l.hdrLen.toNat
  types : At d (l.hdrLen.toNat + l.typeOff.toNat) (records.flatMap Record.encode)
  table : At d (l.hdrLen.toNat + l.strOff.toNat) strings
  typesFit : (records.flatMap Record.encode).length < 2 ^ 32
  stringsFit : strings.length < 2 ^ 32
  names : ∀ r ∈ records, isNamed r.ty = true → r.name.toNat ≤ strings.length

section Main

variable {d : List UInt8} {l : Layout} {records : List Record} {strings : List UInt8}

theorem count_records (records : List Record) : records.length * 12 ≤ (records.flatMap Record.encode).length := by
  induction records with
  | nil => rfl
  | cons r records ih =>
      have hsize : 12 ≤ r.encode.length := by
        simp only [Record.encode, List.length_append, length_le32]
        omega
      rw [List.length_cons, List.flatMap_cons, List.length_append]
      omega

theorem header_ok {typeLen strLen : UInt32} (h : At d 0 (l.encode typeLen strLen)) :
    24 ≤ d.length ∧ u16At d 0 = .ok 0xeb9f ∧ u32At d 4 = .ok l.hdrLen ∧ u32At d 8 = .ok l.typeOff ∧
      u32At d 12 = .ok typeLen ∧ u32At d 16 = .ok l.strOff ∧ u32At d 20 = .ok strLen := by
  have hwords := h.right.right
  refine ⟨h.le_length, ?_, u32At_ok hwords.left, u32At_ok hwords.right.left, u32At_ok hwords.right.right.left,
    u32At_ok hwords.right.right.right.left, u32At_ok hwords.right.right.right.right⟩
  obtain ⟨after, hdrop⟩ := h.drop
  rw [u16At, hdrop]
  exact congrArg Except.ok (fromLe16_le16 0xeb9f)

theorem slice_ok {bytes : List UInt8} {o : ℕ} (h : At d o bytes) : slice d o (o + bytes.length) = .ok bytes := by
  rw [slice, if_pos ⟨by omega, h.le_length⟩, Nat.add_sub_cancel_left, h.slice]

theorem parse_ok (h : Encodes d l records strings) :
    ∃ m, parse d = .ok ⟨void :: records.map Record.ty, strings, m⟩ ∧ Indexes records strings m := by
  have hcount : records.length + 1 < 2 ^ 32 := by
    have hsize := count_records records
    have hfit := h.typesFit
    omega
  have htypeLen : (UInt32.ofNat (records.flatMap Record.encode).length).toNat = (records.flatMap Record.encode).length :=
    UInt32.toNat_ofNat_of_lt' h.typesFit
  have hstrLen : (UInt32.ofNat strings.length).toNat = strings.length := UInt32.toNat_ofNat_of_lt' h.stringsFit
  obtain ⟨hlength, hmagic, hhdr, htypeOff, htypes, hstrOff, hstr⟩ := header_ok h.header
  obtain ⟨m, hfold, hm⟩ := addNames_ok hcount h.names records.length le_rfl
  have hids : (UInt32.ofNat (void :: records.map Record.ty).length).toNat - 1 = records.length := by
    rw [UInt32.toNat_ofNat', List.length_cons, List.length_map]
    omega
  have hstrings : slice d (l.hdrLen.toNat + l.strOff.toNat) (l.hdrLen.toNat + l.strOff.toNat + strings.length) = .ok strings :=
    slice_ok h.table
  have hrecords := readTypes_ok records h.types
  rw [List.take_length] at hm
  refine ⟨m, ?_, hm⟩
  rw [parse, if_neg (by omega)]
  dsimp only
  rw [hmagic, ok_bind, if_neg (not_not.mpr rfl), hhdr, ok_bind, htypeOff, ok_bind, htypes, ok_bind, hstrOff, ok_bind, hstr,
    ok_bind, hstrLen, hstrings, ok_bind, htypeLen, hrecords, ok_bind, hids, hfold]
  rfl

end Main

/-- Parsing a blob gives back its records, in order and with nothing else, and its names
lead to their first definitions. -/
theorem parse_inverts {d : List UInt8} {l : Layout} {records : List Record} {strings : List UInt8}
    (h : Encodes d l records strings) : ∃ btf, parse d = .ok btf ∧ btf.types = void :: records.map Record.ty ∧
      btf.strings = strings ∧ ∀ name kind id, btf.byName.get? (name, kind) = some id ↔
        ∃ i, records.findIdx? (Record.defines strings name kind) = some i ∧ id.toNat = i + 1 := by
  have hcount : records.length + 1 < 2 ^ 32 := by
    have hsize := count_records records
    have hfit := h.typesFit
    omega
  obtain ⟨m, hparse, hm⟩ := parse_ok h
  refine ⟨⟨void :: records.map Record.ty, strings, m⟩, hparse, rfl, rfl, ?_⟩
  intro name kind id
  rw [hm name kind, Option.map_eq_some_iff]
  constructor
  · rintro ⟨i, hi, rfl⟩
    have hlt := (List.findIdx?_eq_some_iff_getElem.mp hi).1
    exact ⟨i, hi, by rw [UInt32.toNat_ofNat']; omega⟩
  · rintro ⟨i, hi, hid⟩
    exact ⟨i, hi, by rw [← hid, UInt32.ofNat_toNat]⟩

def sampleRecords : List Record :=
  [⟨1, true, 8, .compound .struct [⟨5, 2, 0x03000008⟩], by decide⟩, ⟨0, false, 4, .word .int 0 32, by decide⟩]

def sampleStrings : List UInt8 := [0, 102, 111, 111, 0, 97, 0]

def sampleLayout : Layout := ⟨1, 0, 24, 0, 40⟩

def sampleBlob : List UInt8 :=
  sampleLayout.encode 40 7 ++ (sampleRecords.flatMap Record.encode ++ sampleStrings)

theorem sampleBlob_encodes : Encodes sampleBlob sampleLayout sampleRecords sampleStrings where
  header := ⟨[], _, rfl, rfl⟩
  hdrLen := by decide
  types := ⟨_, _, rfl, rfl⟩
  table := ⟨sampleLayout.encode 40 7 ++ sampleRecords.flatMap Record.encode, [], by decide, by decide⟩
  typesFit := by decide
  stringsFit := by decide
  names := by decide

theorem parse_inverts_sample : ∃ btf, parse sampleBlob = .ok btf ∧ btf.types = void :: sampleRecords.map Record.ty ∧
    btf.byName.get? ("foo", kindStruct) = some 1 := by
  obtain ⟨btf, hparse, htypes, -, hnames⟩ := parse_inverts sampleBlob_encodes
  exact ⟨btf, hparse, htypes, (hnames "foo" kindStruct 1).mpr ⟨0, by decide +kernel, rfl⟩⟩

end NetWatch.Collector.BtfFormat
