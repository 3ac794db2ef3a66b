import NetWatch.Collector.BtfReader
import NetWatch.Lib.LittleEndian

namespace NetWatch.Collector.BtfParse

open Lib.Assoc Lib.LittleEndian BtfReader

def kindInt : UInt32 := 1

def kindArray : UInt32 := 3

def kindFuncProto : UInt32 := 13

def kindVar : UInt32 := 14

def kindDatasec : UInt32 := 15

def kindDeclTag : UInt32 := 17

def u16At (d : List UInt8) (o : ℕ) : Except Failure UInt16 :=
  match d.drop o with
  | b₀ :: b₁ :: _ => .ok (fromLe16 b₀ b₁)
  | _ => .error .panic

def u32At (d : List UInt8) (o : ℕ) : Except Failure UInt32 :=
  match d.drop o with
  | b₀ :: b₁ :: b₂ :: b₃ :: _ => .ok (fromLe32 b₀ b₁ b₂ b₃)
  | _ => .error .panic

def slice (d : List UInt8) (start stop : ℕ) : Except Failure (List UInt8) :=
  if start ≤ stop ∧ stop ≤ d.length then .ok ((d.drop start).take (stop - start)) else .error .panic

/-- With the kind flag, the high byte of the offset holds the size of a bitfield. -/
def readMember (d : List UInt8) (kindFlag : Bool) (o : ℕ) : Except Failure Member := do
  let off ← u32At d (o + 8)
  let name ← u32At d o
  let ty ← u32At d (o + 4)
  return ⟨name, ty, if kindFlag then off &&& 0x00ffffff else off⟩

def readEnum (d : List UInt8) (o : ℕ) : Except Failure (UInt32 × Int) := do
  let name ← u32At d o
  let v ← u32At d (o + 4)
  return (name, v.toBitVec.toInt)

def readEnum64 (d : List UInt8) (o : ℕ) : Except Failure (UInt32 × Int) := do
  let high ← u32At d (o + 8)
  let low ← u32At d (o + 4)
  let name ← u32At d o
  return (name, ((high.toUInt64 <<< 32) ||| low.toUInt64).toBitVec.toInt)

def readBody (d : List UInt8) (p vlen : ℕ) (kindFlag : Bool) (t : Ty) : Except Failure (Ty × ℕ) :=
  if t.kind = kindInt ∨ t.kind = kindVar ∨ t.kind = kindDeclTag then .ok (t, 4)
  else if t.kind = kindArray then .ok (t, 12)
  else if t.kind = kindStruct ∨ t.kind = kindUnion then do
    let members ← (List.range vlen).mapM fun i => readMember d kindFlag (p + i * 12)
    return ({ t with members := members }, vlen * 12)
  else if t.kind = kindEnum then do
    let enums ← (List.range vlen).mapM fun i => readEnum d (p + i * 8)
    return ({ t with enums := enums }, vlen * 8)
  else if t.kind = kindEnum64 then do
    let enums ← (List.range vlen).mapM fun i => readEnum64 d (p + i * 12)
    return ({ t with enums := enums }, vlen * 12)
  else if t.kind = kindFuncProto then .ok (t, vlen * 8)
  else if t.kind = kindDatasec then .ok (t, vlen * 12)
  else .ok (t, 0)

def readType (d : List UInt8) (p : ℕ) : Except Failure (Ty × ℕ) := do
  let name ← u32At d p
  let info ← u32At d (p + 4)
  let sizeOrType ← u32At d (p + 8)
  let vlen := (info &&& 0xffff).toNat
  let kind := (info >>> 24) &&& 0x1f
  let kindFlag := info >>> 31 == 1
  readBody d (p + 12) vlen kindFlag ⟨name, kind, sizeOrType, [], []⟩

def readTypes (d : List UInt8) (stop p : ℕ) : Except Failure (List Ty) :=
  if p < stop then do
    let (t, n) ← readType d p
    let ts ← readTypes d stop (p + 12 + n)
    return t :: ts
  else .ok []
termination_by stop - p

def isNamed (t : Ty) : Bool :=
  (t.kind = kindStruct || t.kind = kindUnion || t.kind = kindEnum || t.kind = kindEnum64) && t.name ≠ 0

def addName (btf : Btf) (m : Dict (String × UInt32) UInt32) (id : ℕ) : Except Failure (Dict (String × UInt32) UInt32) := do
  let t ← btf.type (UInt32.ofNat id)
  if isNamed t then do
    let name ← btf.str t.name
    return if (m.get? (name, t.kind)).isSome then m else m.insert (name, t.kind) (UInt32.ofNat id)
  else return m

def void : Ty := ⟨0, 0, 0, [], []⟩

def parse (d : List UInt8) : Except Failure Btf := do
  if d.length < 24 then throw (.err "not a little-endian BTF blob")
  if (← u16At d 0) ≠ 0xeb9f then throw (.err "not a little-endian BTF blob")
  let hdrLen := (← u32At d 4).toNat
  let typeOff := (← u32At d 8).toNat
  let typeLen := (← u32At d 12).toNat
  let strOff := (← u32At d 16).toNat
  let strLen := (← u32At d 20).toNat
  let strings ← slice d (hdrLen + strOff) (hdrLen + strOff + strLen)
  let types ← readTypes d (hdrLen + typeOff + typeLen) (hdrLen + typeOff)
  let btf : Btf := ⟨void :: types, strings, .empty⟩
  let count := (UInt32.ofNat btf.types.length).toNat
  let byName ← (List.range' 1 (count - 1)).foldlM (addName btf) .empty
  return { btf with byName := byName }

end NetWatch.Collector.BtfParse
