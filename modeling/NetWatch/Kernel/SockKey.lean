import NetWatch.Collector.BtfReader
import NetWatch.Kernel.Types
import NetWatch.Lib.Runs

namespace NetWatch.Kernel.SockKey

open Kernel.Types
open Lib.Runs (bind_ok)
open Collector.BtfReader (Offsets SockFields Failure Btf skBlock sockFields resolveOffsets)

def afInet : Nat := 2

def afInet6 : Nat := 10

def probeRead (mem : Nat → UInt8) (off n : Nat) : List UInt8 := (List.range n).map fun i => mem (off + i)

/-- A read of `n` bytes from a buffer, zeros when it would leave the buffer. -/
def rd (n : Nat) (buf : List UInt8) (off : UInt32) : List UInt8 :=
  if buf.length < off.toNat + n then List.replicate n 0 else (buf.drop off.toNat).take n

def littleEndian (bs : List UInt8) : Nat := bs.foldr (fun b n => b.toNat + 256 * n) 0

def bigEndian (bs : List UInt8) : Nat := bs.foldl (fun n b => 256 * n + b.toNat) 0

def v4Mapped (v4 : List UInt8) : List UInt8 := List.replicate 10 0 ++ [0xFF, 0xFF] ++ v4

def raddrOf (bs : List UInt8) : Vector UInt8 16 := Vector.ofFn fun i => bs.getD i 0

def keyOf (family dport num daddr v6Daddr : List UInt8) (proto : UInt8) (tgid : UInt32) : Option FlowKey :=
  let key (raddr : List UInt8) : FlowKey :=
    { tgid := tgid
      rport := UInt16.ofNat (bigEndian dport)
      lport := UInt16.ofNat (littleEndian num)
      raddr := raddrOf raddr
      family := UInt8.ofNat (littleEndian family)
      proto := proto }
  if littleEndian family = afInet then some (key (v4Mapped daddr))
  else if littleEndian family = afInet6 then some (key v6Daddr)
  else none

/-- `sock` is the memory from the socket on, and `readable` tells whether the one
probe read succeeds. -/
def sockKey (sock : Nat → UInt8) (readable : Bool) (o : Offsets) (proto : UInt8) (tgid : UInt32) : Option FlowKey :=
  if readable then
    let blk := probeRead sock o.skBase.toNat skBlock
    keyOf (rd 2 blk o.skcFamily) (rd 2 blk o.skcDport) (rd 2 blk o.skcNum) (rd 4 blk o.skcDaddr)
      (rd 16 blk o.skcV6Daddr) proto tgid
  else none

inductive Field
  | daddr
  | dport
  | num
  | family
  | v6Daddr

namespace Field

def name : Field → String
  | .daddr => "skc_daddr"
  | .dport => "skc_dport"
  | .num => "skc_num"
  | .family => "skc_family"
  | .v6Daddr => "skc_v6_daddr"

def size : Field → Nat
  | .daddr => 4
  | .dport | .num | .family => 2
  | .v6Daddr => 16

def within (s : SockFields) : Field → UInt32
  | .daddr => s.daddr
  | .dport => s.dport
  | .num => s.num
  | .family => s.family
  | .v6Daddr => s.v6Daddr

def relative (o : Offsets) : Field → UInt32
  | .daddr => o.skcDaddr
  | .dport => o.skcDport
  | .num => o.skcNum
  | .family => o.skcFamily
  | .v6Daddr => o.skcV6Daddr

end Field

def Located (btf : Btf) (at_ : Field → Nat) : Prop :=
  ∃ common, btf.offset "sock" "__sk_common" = .ok common ∧
    ∀ f : Field, ∃ off, btf.offset "sock_common" f.name = .ok off ∧ at_ f = common.toNat + off.toNat

/-- The block holds the fields, and what is read from it is what they are. -/
structure Reads (o : Offsets) (at_ : Field → Nat) : Prop where
  inRange : ∀ f : Field, (f.relative o).toNat + f.size ≤ skBlock
  field : ∀ (sock : Nat → UInt8) (f : Field),
    rd f.size (probeRead sock o.skBase.toNat skBlock) (f.relative o) = probeRead sock (at_ f) f.size
  key : ∀ (sock : Nat → UInt8) (proto : UInt8) (tgid : UInt32), sockKey sock true o proto tgid =
    keyOf (probeRead sock (at_ .family) 2) (probeRead sock (at_ .dport) 2) (probeRead sock (at_ .num) 2)
      (probeRead sock (at_ .daddr) 4) (probeRead sock (at_ .v6Daddr) 16) proto tgid

section Layout

variable {btf : Btf} {s : SockFields} {o : Offsets} {at_ : Field → Nat}

theorem sockFields_located (h : sockFields btf = .ok s) : ∃ at_, Located btf at_ ∧
    ∀ f : Field, at_ f < 2 ^ 32 → (f.within s).toNat = at_ f := by
  obtain ⟨common, hcommon, h⟩ := bind_ok h
  obtain ⟨daddr, hdaddr, h⟩ := bind_ok h
  obtain ⟨dport, hdport, h⟩ := bind_ok h
  obtain ⟨num, hnum, h⟩ := bind_ok h
  obtain ⟨family, hfamily, h⟩ := bind_ok h
  obtain ⟨v6Daddr, hv6Daddr, h⟩ := bind_ok h
  cases h
  refine ⟨fun f => common.toNat + ((f.within ⟨daddr, dport, num, family, v6Daddr⟩).toNat), ⟨common, hcommon, ?_⟩, ?_⟩
  · intro f
    cases f with
    | daddr => exact ⟨daddr, hdaddr, rfl⟩
    | dport => exact ⟨dport, hdport, rfl⟩
    | num => exact ⟨num, hnum, rfl⟩
    | family => exact ⟨family, hfamily, rfl⟩
    | v6Daddr => exact ⟨v6Daddr, hv6Daddr, rfl⟩
  · intro f hlt
    cases f with
    | daddr | dport | num | family | v6Daddr => exact (UInt32.toNat_add _ _).trans (Nat.mod_eq_of_lt hlt)

theorem located_unique {at' : Field → Nat} (h : Located btf at_) (h' : Located btf at') : at_ = at' := by
  obtain ⟨common, hcommon, hoff⟩ := h
  obtain ⟨common', hcommon', hoff'⟩ := h'
  obtain rfl : common = common' := Except.ok.inj (hcommon.symm.trans hcommon')
  funext f
  obtain ⟨off, hok, hat⟩ := hoff f
  obtain ⟨off', hok', hat'⟩ := hoff' f
  obtain rfl : off = off' := Except.ok.inj (hok.symm.trans hok')
  rw [hat, hat']

theorem sockFields_of_located (h : Located btf at_) : ∃ s, sockFields btf = .ok s := by
  obtain ⟨common, hcommon, hoff⟩ := h
  obtain ⟨daddr, hdaddr, -⟩ := hoff .daddr
  obtain ⟨dport, hdport, -⟩ := hoff .dport
  obtain ⟨num, hnum, -⟩ := hoff .num
  obtain ⟨family, hfamily, -⟩ := hoff .family
  obtain ⟨v6Daddr, hv6Daddr, -⟩ := hoff .v6Daddr
  simp only [Field.name] at hdaddr hdport hnum hfamily hv6Daddr
  refine ⟨⟨common + daddr, common + dport, common + num, common + family, common + v6Daddr⟩, ?_⟩
  rw [sockFields, hcommon, hdaddr, hdport, hnum, hfamily, hv6Daddr]
  rfl

theorem toNat_min (a b : UInt32) : (min a b).toNat = min a.toNat b.toNat := by
  change (if a ≤ b then a else b).toNat = _
  split_ifs with h
  · exact (Nat.min_eq_left h).symm
  · exact (Nat.min_eq_right (Nat.le_of_not_le h)).symm

theorem toNat_max (a b : UInt32) : (max a b).toNat = max a.toNat b.toNat := by
  change (if a ≤ b then b else a).toNat = _
  split_ifs with h
  · exact (Nat.max_eq_right h).symm
  · exact (Nat.max_eq_left (Nat.le_of_not_le h)).symm

theorem base_le (s : SockFields) (f : Field) : s.base.toNat ≤ (f.within s).toNat := by
  simp only [SockFields.base, toNat_min]
  cases f with
  | daddr | dport | num | family | v6Daddr =>
      simp only [Field.within]
      omega

theorem toNat_span (hsmall : ∀ f : Field, (f.within s).toNat + f.size < 2 ^ 32) :
    (∀ f : Field, (f.within s).toNat + f.size ≤ s.base.toNat + s.span.toNat) ∧
      ∃ f : Field, s.base.toNat + s.span.toNat = (f.within s).toNat + f.size := by
  have hdaddr := hsmall .daddr
  have hdport := hsmall .dport
  have hnum := hsmall .num
  have hfamily := hsmall .family
  have hv6Daddr := hsmall .v6Daddr
  simp only [Field.within, Field.size] at hdaddr hdport hnum hfamily hv6Daddr
  have hadd : ∀ (a : UInt32) (n : Nat), n < 2 ^ 32 → a.toNat + n < 2 ^ 32 → (a + UInt32.ofNat n).toNat = a.toNat + n := by
    intro a n hn hlt
    rw [UInt32.toNat_add, UInt32.toNat_ofNat', Nat.mod_eq_of_lt hn, Nat.mod_eq_of_lt hlt]
  have hstop : (max (s.daddr + 4) (max (s.dport + 2) (max (s.num + 2) (max (s.family + 2) (s.v6Daddr + 16))))).toNat =
      max (s.daddr.toNat + 4) (max (s.dport.toNat + 2) (max (s.num.toNat + 2) (max (s.family.toNat + 2)
        (s.v6Daddr.toNat + 16)))) := by
    simp only [toNat_max]
    rw [← hadd s.daddr 4 (by omega) hdaddr, ← hadd s.dport 2 (by omega) hdport, ← hadd s.num 2 (by omega) hnum,
      ← hadd s.family 2 (by omega) hfamily, ← hadd s.v6Daddr 16 (by omega) hv6Daddr]
    rfl
  have hbase := base_le s .daddr
  simp only [Field.within] at hbase
  have hspan : s.base.toNat + s.span.toNat = max (s.daddr.toNat + 4) (max (s.dport.toNat + 2) (max (s.num.toNat + 2)
      (max (s.family.toNat + 2) (s.v6Daddr.toNat + 16)))) := by
    rw [SockFields.span, UInt32.toNat_sub_of_le _ _ (by rw [UInt32.le_iff_toNat_le, hstop]; omega), hstop]
    omega
  rw [hspan]
  constructor
  · intro f
    cases f with
    | daddr | dport | num | family | v6Daddr =>
        simp only [Field.within, Field.size]
        omega
  · by_contra h
    simp only [not_exists] at h
    have h1 := h .daddr
    have h2 := h .dport
    have h3 := h .num
    have h4 := h .family
    have h5 := h .v6Daddr
    simp only [Field.within, Field.size] at h1 h2 h3 h4 h5
    omega

theorem rd_probeRead {sock : Nat → UInt8} {base n size : Nat} {off : UInt32} (h : off.toNat + size ≤ n) :
    rd size (probeRead sock base n) off = probeRead sock (base + off.toNat) size := by
  have hlen : (probeRead sock base n).length = n := by rw [probeRead, List.length_map, List.length_range]
  rw [rd, if_neg (by omega)]
  apply List.ext_getElem?
  intro i
  by_cases hi : i < size
  · rw [List.getElem?_take_of_lt hi, List.getElem?_drop, probeRead, probeRead, List.getElem?_map, List.getElem?_map,
      List.getElem?_range (by omega), List.getElem?_range hi, Option.map_some, Option.map_some, Nat.add_assoc]
  · rw [List.getElem?_eq_none (by rw [List.length_take]; omega),
      List.getElem?_eq_none (by rw [probeRead, List.length_map, List.length_range]; omega)]

theorem withIter_sock {i : Except Failure Collector.BtfReader.IterLayout} {o' : Offsets} (h : o.withIter i = .ok o') :
    o'.skBase = o.skBase ∧ ∀ f : Field, f.relative o' = f.relative o := by
  cases i with
  | ok i =>
      cases h
      refine ⟨rfl, fun f => ?_⟩
      cases f with
      | daddr | dport | num | family | v6Daddr => rfl
  | error e =>
      cases e with
      | err msg =>
          cases h
          exact ⟨rfl, fun _ => rfl⟩
      | panic => cases h

theorem resolveOffsets_ok {sniff : Bool} {selfTgid : UInt32} (h : resolveOffsets btf sniff selfTgid = .ok o) :
    ∃ s, sockFields btf = .ok s ∧ s.span.toNat ≤ skBlock ∧ o.skBase = s.base ∧
      ∀ f : Field, f.relative o = f.within s - s.base := by
  obtain ⟨s, hs, h⟩ := bind_ok h
  split at h
  · cases h
  rename_i hspan
  obtain ⟨groupLeader, -, h⟩ := bind_ok h
  obtain ⟨comm, -, h⟩ := bind_ok h
  obtain ⟨startBoottime, -, h⟩ := bind_ok h
  obtain ⟨msghdrName, -, h⟩ := bind_ok h
  refine ⟨s, hs, Nat.le_of_not_lt hspan, ?_⟩
  cases sniff with
  | true =>
      obtain ⟨hbase, hrel⟩ := withIter_sock h
      refine ⟨hbase, fun f => (hrel f).trans ?_⟩
      cases f with
      | daddr | dport | num | family | v6Daddr => rfl
  | false =>
      cases h
      refine ⟨rfl, fun f => ?_⟩
      cases f with
      | daddr | dport | num | family | v6Daddr => rfl

theorem resolveOffsets_wide {sniff : Bool} {selfTgid : UInt32} (hs : sockFields btf = .ok s)
    (hspan : skBlock < s.span.toNat) : ∃ msg, resolveOffsets btf sniff selfTgid = .error (.err msg) := by
  rw [resolveOffsets, hs]
  change ∃ msg, (if skBlock < s.span.toNat then _ else _) = _
  rw [if_pos hspan]
  exact ⟨_, rfl⟩

theorem fields_read {sniff : Bool} {selfTgid : UInt32} (h : resolveOffsets btf sniff selfTgid = .ok o) :
    ∃ at_, Located btf at_ ∧ ((∀ f : Field, at_ f + f.size < 2 ^ 32) → Reads o at_) := by
  obtain ⟨s, hs, hspan, hbase, hrel⟩ := resolveOffsets_ok h
  obtain ⟨at_, hat, hwithin⟩ := sockFields_located hs
  refine ⟨at_, hat, fun hsmall => ?_⟩
  have heq : ∀ f : Field, (f.within s).toNat = at_ f := fun f => hwithin f (by have := hsmall f; omega)
  have htotal := (toNat_span (s := s) fun f => by rw [heq f]; exact hsmall f).1
  have hoff : ∀ f : Field, (f.relative o).toNat = at_ f - s.base.toNat := by
    intro f
    rw [hrel f, UInt32.toNat_sub_of_le _ _ (UInt32.le_iff_toNat_le.mpr (base_le s f)), heq f]
  have hrange : ∀ f : Field, (f.relative o).toNat + f.size ≤ skBlock := by
    intro f
    have hle := base_le s f
    have hend := htotal f
    rw [hoff f]
    rw [heq f] at hle hend
    omega
  have hread : ∀ (sock : Nat → UInt8) (f : Field),
      rd f.size (probeRead sock o.skBase.toNat skBlock) (f.relative o) = probeRead sock (at_ f) f.size := by
    intro sock f
    have hle := base_le s f
    rw [heq f] at hle
    rw [rd_probeRead (hrange f), hbase, hoff f, Nat.add_sub_cancel' hle]
  refine ⟨hrange, hread, fun sock proto tgid => ?_⟩
  have hfamily := hread sock .family
  have hdport := hread sock .dport
  have hnum := hread sock .num
  have hdaddr := hread sock .daddr
  have hv6Daddr := hread sock .v6Daddr
  simp only [Field.size, Field.relative] at hfamily hdport hnum hdaddr hv6Daddr
  simp only [sockKey, if_true, hfamily, hdport, hnum, hdaddr, hv6Daddr]

theorem fields_too_wide {sniff : Bool} {selfTgid : UInt32} (hat : Located btf at_)
    (hsmall : ∀ f : Field, at_ f + f.size < 2 ^ 32) {f g : Field} (hwide : at_ g + skBlock < at_ f + f.size) :
    ∃ msg, resolveOffsets btf sniff selfTgid = .error (.err msg) := by
  obtain ⟨s, hs⟩ := sockFields_of_located hat
  obtain ⟨at', hat', hwithin⟩ := sockFields_located hs
  obtain rfl := located_unique hat hat'
  have heq : ∀ f : Field, (f.within s).toNat = at_ f := fun f => hwithin f (by have := hsmall f; omega)
  have htotal := (toNat_span (s := s) fun f => by rw [heq f]; exact hsmall f).1 f
  have hle := base_le s g
  rw [heq] at hle htotal
  exact resolveOffsets_wide hs (by omega)

end Layout

/-- The offsets that user space resolves let the one block read see the fields of
the socket where BTF says they are, and fields that do not fit in the block are
refused. -/
theorem block_reads_fields (btf : Btf) (sniff : Bool) (selfTgid : UInt32) :
    (∀ o, resolveOffsets btf sniff selfTgid = .ok o →
      ∃ at_, Located btf at_ ∧ ((∀ f : Field, at_ f + f.size < 2 ^ 32) → Reads o at_)) ∧
    ∀ at_, Located btf at_ → (∀ f : Field, at_ f + f.size < 2 ^ 32) →
      (∃ f g : Field, at_ g + skBlock < at_ f + f.size) →
        ∃ msg, resolveOffsets btf sniff selfTgid = .error (.err msg) :=
  ⟨fun _ h => fields_read h, fun _ hat hsmall ⟨_, _, hwide⟩ => fields_too_wide hat hsmall hwide⟩

def sampleNames : List String :=
  ["sock", "__sk_common", "sock_common", "skc_daddr", "skc_dport", "skc_num", "skc_family", "skc_v6_daddr",
    "task_struct", "group_leader", "comm", "start_boottime", "msghdr", "msg_name"]

/-- The layout of a recent kernel. The ports of a socket are in an anonymous
struct. -/
def sampleBtf : Btf where
  types :=
    [⟨0, 0, 0, [], []⟩,
      ⟨1, 4, 0, [⟨6, 2, 0⟩], []⟩,
      ⟨18, 4, 0, [⟨30, 0, 0⟩, ⟨0, 3, 96⟩, ⟨58, 0, 128⟩, ⟨69, 0, 448⟩], []⟩,
      ⟨0, 4, 0, [⟨40, 0, 0⟩, ⟨50, 0, 16⟩], []⟩,
      ⟨82, 4, 0, [⟨94, 0, 800⟩, ⟨107, 0, 1600⟩, ⟨112, 0, 2400⟩], []⟩,
      ⟨127, 4, 0, [⟨134, 0, 0⟩], []⟩]
  strings := 0 :: sampleNames.flatMap fun s => s.toList.map (fun c => UInt8.ofNat c.toNat) ++ [0]
  byName := ⟨[(("sock", 4), 1), (("sock_common", 4), 2), (("task_struct", 4), 4), (("msghdr", 4), 5)], by decide⟩

theorem sampleBtf_resolves : (resolveOffsets sampleBtf false 1).toOption.isSome = true := by decide +kernel

theorem block_reads_fields_sample : ∃ o at_, resolveOffsets sampleBtf false 1 = .ok o ∧ Located sampleBtf at_ ∧
    Reads o at_ := by
  cases ho : resolveOffsets sampleBtf false 1 with
  | error e => exact absurd sampleBtf_resolves (by rw [ho]; nofun)
  | ok o =>
      obtain ⟨at_, hat, hreads⟩ := (block_reads_fields sampleBtf false 1).1 o ho
      obtain rfl : at_ = fun f : Field => match f with
        | .daddr => 0
        | .dport => 12
        | .num => 14
        | .family => 16
        | .v6Daddr => 56 := by
        refine located_unique hat ⟨0, by decide +kernel, fun f => ?_⟩
        cases f with
        | daddr => exact ⟨0, by decide +kernel, rfl⟩
        | dport => exact ⟨12, by decide +kernel, rfl⟩
        | num => exact ⟨14, by decide +kernel, rfl⟩
        | family => exact ⟨16, by decide +kernel, rfl⟩
        | v6Daddr => exact ⟨56, by decide +kernel, rfl⟩
      refine ⟨o, _, rfl, hat, hreads fun f => ?_⟩
      cases f with
      | daddr | dport | num | family | v6Daddr => decide

end NetWatch.Kernel.SockKey
