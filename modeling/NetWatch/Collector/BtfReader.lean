import Mathlib.Data.UInt
import NetWatch.Lib.Assoc
import NetWatch.Lib.Utf8

namespace NetWatch.Collector.BtfReader

open Lib.Assoc Lib.Utf8

def kindStruct : UInt32 := 4

def kindUnion : UInt32 := 5

def kindEnum : UInt32 := 6

def kindTypedef : UInt32 := 8

def kindVolatile : UInt32 := 9

def kindConst : UInt32 := 10

def kindRestrict : UInt32 := 11

def kindTypeTag : UInt32 := 18

def kindEnum64 : UInt32 := 19

structure Member where
  name : UInt32
  ty : UInt32
  bitOff : UInt32

/-- A type of the kernel. `ty` is what a modifier or typedef refers to. -/
structure Ty where
  name : UInt32
  kind : UInt32
  ty : UInt32
  members : List Member
  enums : List (UInt32 × Int)

structure Btf where
  types : List Ty
  strings : List UInt8
  byName : Dict (String × UInt32) UInt32

/-- An error that is returned, or no return at all: an index out of range, or a
recursion without end. -/
inductive Failure
  | err (msg : String)
  | panic
  deriving DecidableEq

namespace Btf

variable (btf : Btf)

def type (id : UInt32) : Except Failure Ty :=
  match btf.types[id.toNat]? with
  | some t => .ok t
  | none => .error .panic

def str (off : UInt32) : Except Failure String :=
  if off.toNat ≤ btf.strings.length then
    .ok (((fromUtf8 ((btf.strings.drop off.toNat).takeWhile (· ≠ 0))).map String.ofList).getD "")
  else .error .panic

def isModifier (kind : UInt32) : Bool :=
  kind = kindTypedef || kind = kindVolatile || kind = kindConst || kind = kindRestrict || kind = kindTypeTag

/-- With as much fuel as there are types, running out of it means that a type
has come up twice, so that the loop does not end. -/
def skipModifiers : Nat → UInt32 → Except Failure UInt32
  | 0, _ => .error .panic
  | fuel + 1, id => do
      let t ← btf.type id
      if isModifier t.kind then skipModifiers fuel t.ty else pure id

def searchMembers (member : String) (inner : UInt32 → Except Failure (Option UInt32)) :
    List Member → Except Failure (Option UInt32)
  | [] => pure none
  | m :: ms =>
      if m.name ≠ 0 then do
        let name ← btf.str m.name
        if name = member then pure (some m.bitOff) else searchMembers member inner ms
      else do
        let id ← btf.skipModifiers btf.types.length m.ty
        let t ← btf.type id
        if t.kind = kindStruct ∨ t.kind = kindUnion then do
          match ← inner id with
          | some off => pure (some (m.bitOff + off))
          | none => searchMembers member inner ms
        else searchMembers member inner ms

def findMember (member : String) : Nat → UInt32 → Except Failure (Option UInt32)
  | 0, _ => .error .panic
  | fuel + 1, id => do
      let t ← btf.type id
      btf.searchMembers member (findMember member fuel) t.members

def offset (structName member : String) : Except Failure UInt32 :=
  match btf.byName.get? (structName, kindStruct) with
  | none => .error (.err s!"struct {structName} not found in kernel BTF")
  | some id => do
      match ← btf.findMember member btf.types.length id with
      | none => .error (.err s!"{structName}.{member} not found in kernel BTF")
      | some bits =>
          if bits % 8 ≠ 0 then .error (.err s!"{structName}.{member} is a bitfield") else pure (bits / 8)

def findVariant (variant : String) : List (UInt32 × Int) → Except Failure (Option Int)
  | [] => pure none
  | e :: es => do
      let name ← btf.str e.1
      if name = variant then pure (some e.2) else findVariant variant es

def enumValue (enumName variant : String) : Except Failure Int :=
  match (btf.byName.get? (enumName, kindEnum)).or (btf.byName.get? (enumName, kindEnum64)) with
  | none => .error (.err s!"enum {enumName} not found in kernel BTF")
  | some id => do
      let t ← btf.type id
      match ← btf.findVariant variant t.enums with
      | none => .error (.err s!"{enumName}::{variant} not found in kernel BTF")
      | some v => pure v

end Btf

def skBlock : Nat := 80

/-- What the eBPF programs are told about the layout of kernel structures. The
fields of a socket are relative to `skBase`. -/
structure Offsets where
  skBase : UInt32
  skcDaddr : UInt32
  skcDport : UInt32
  skcNum : UInt32
  skcFamily : UInt32
  skcV6Daddr : UInt32
  taskGroupLeader : UInt32
  taskComm : UInt32
  taskStartBoottime : UInt32
  msghdrName : UInt32
  msghdrIter : UInt32
  iterType : UInt32
  iterUbuf : UInt32
  iterUbufVal : UInt32
  selfTgid : UInt32
  sniff : UInt32

structure SockFields where
  daddr : UInt32
  dport : UInt32
  num : UInt32
  family : UInt32
  v6Daddr : UInt32

def sockFields (btf : Btf) : Except Failure SockFields := do
  let common ← btf.offset "sock" "__sk_common"
  let daddr ← btf.offset "sock_common" "skc_daddr"
  let dport ← btf.offset "sock_common" "skc_dport"
  let num ← btf.offset "sock_common" "skc_num"
  let family ← btf.offset "sock_common" "skc_family"
  let v6Daddr ← btf.offset "sock_common" "skc_v6_daddr"
  return ⟨common + daddr, common + dport, common + num, common + family, common + v6Daddr⟩

def SockFields.base (s : SockFields) : UInt32 := min s.daddr (min s.dport (min s.num (min s.family s.v6Daddr)))

def SockFields.span (s : SockFields) : UInt32 :=
  max (s.daddr + 4) (max (s.dport + 2) (max (s.num + 2) (max (s.family + 2) (s.v6Daddr + 16)))) - s.base

structure IterLayout where
  msgIter : UInt32
  iterType : UInt32
  ubuf : UInt32
  ubufVal : Int

def iterLayout (btf : Btf) : Except Failure IterLayout := do
  let msgIter ← btf.offset "msghdr" "msg_iter"
  let iterType ← btf.offset "iov_iter" "iter_type"
  let ubuf ← btf.offset "iov_iter" "ubuf"
  let ubufVal ← btf.enumValue "iter_type" "ITER_UBUF"
  return ⟨msgIter, iterType, ubuf, ubufVal⟩

/-- Sniffing is turned off when the layout is not the expected one. -/
def Offsets.withIter (o : Offsets) : Except Failure IterLayout → Except Failure Offsets
  | .ok i =>
      .ok { o with
        msghdrIter := i.msgIter
        iterType := i.iterType
        iterUbuf := i.ubuf
        iterUbufVal := UInt32.ofNat (i.ubufVal % 2 ^ 32).toNat
        sniff := 1 }
  | .error (.err _) => .ok o
  | .error .panic => .error .panic

def resolveOffsets (btf : Btf) (sniff : Bool) (selfTgid : UInt32) : Except Failure Offsets := do
  let fields ← sockFields btf
  if skBlock < fields.span.toNat then
    throw (.err s!"struct sock_common fields span {fields.span} bytes, more than SK_BLOCK={skBlock}")
  else do
    let groupLeader ← btf.offset "task_struct" "group_leader"
    let comm ← btf.offset "task_struct" "comm"
    let startBoottime ← btf.offset "task_struct" "start_boottime"
    let msghdrName ← btf.offset "msghdr" "msg_name"
    let o : Offsets :=
      { skBase := fields.base
        skcDaddr := fields.daddr - fields.base
        skcDport := fields.dport - fields.base
        skcNum := fields.num - fields.base
        skcFamily := fields.family - fields.base
        skcV6Daddr := fields.v6Daddr - fields.base
        taskGroupLeader := groupLeader
        taskComm := comm
        taskStartBoottime := startBoottime
        msghdrName := msghdrName
        msghdrIter := 0
        iterType := 0
        iterUbuf := 0
        iterUbufVal := 0
        selfTgid := selfTgid
        sniff := 0 }
    if sniff then o.withIter (iterLayout btf) else pure o

end NetWatch.Collector.BtfReader
