import NetWatch.Collector.BtfNames

namespace NetWatch.Collector.Bitfields

open Lib.Reach Lib.LittleEndian BtfReader BtfParse BtfFormat BtfNames
open Lib.Runs (ok_bind)

def recordAt (records : List Record) (id : UInt32) : Option Record :=
  if id = 0 then none else records[id.toNat - 1]?

def rawMembers (r : Record) : List Words3 :=
  match r.body with
  | .compound _ members => members
  | _ => []

/-- The size of a bitfield, which the high byte of the offset holds where the kind flag is set. -/
def bitfieldSize (w : Words3) : ℕ := w.third.toNat / 2 ^ 24

def intOffset (data : UInt32) : ℕ := data.toNat / 2 ^ 16 % 2 ^ 8

def intBits (data : UInt32) : ℕ := data.toNat % 2 ^ 8

def BitfieldInt (r : Record) : Prop :=
  match r.body with
  | .word .int _ data => intOffset data ≠ 0 ∨ intBits data ≠ 8 * r.sizeOrType.toNat
  | _ => False

def IsBitfield (records : List Record) (btf : Btf) (r : Record) (w : Words3) : Prop :=
  if r.kindFlag then bitfieldSize w ≠ 0
  else ∃ z t, Behind btf w.second z ∧ recordAt records z = some t ∧ BitfieldInt t

inductive Leads (records : List Record) (btf : Btf) : UInt32 → List ℕ → Record → Words3 → Prop
  | member {id i r w} : recordAt records id = some r → (rawMembers r)[i]? = some w → Leads records btf id [i] r w
  | inner {id i r w x p r' w'} : recordAt records id = some r → (rawMembers r)[i]? = some w →
      Opens btf (memberOf r.kindFlag w) x → Leads records btf x p r' w' → Leads records btf id (i :: p) r' w'

def structAt (records : List Record) (strings : List UInt8) (structName : String) : Option UInt32 :=
  (records.findIdx? (Record.defines strings structName kindStruct)).map fun i => UInt32.ofNat (i + 1)

/-- A member of a struct as C looks it up, where nothing out of range comes before it: the path
to it, the sum of the offsets in bits, and its encoding. -/
structure Finds (records : List Record) (strings : List UInt8) (btf : Btf) (structName member : String)
    (p : List ℕ) (bits : ℕ) (r : Record) (w : Words3) : Prop where
  found : ∃ id, structAt records strings structName = some id ∧ FirstPath btf member id p bits ∧
    Leads records btf id p r w ∧ ∀ q, Dangling btf id q → p < q

section Leads

variable {records : List Record} {strings : List UInt8} {btf : Btf} {structName member : String} {id : UInt32}
  {p p' : List ℕ} {bits bits' : ℕ} {r r' : Record} {w w' : Words3}

theorem leads_unique (h : Leads records btf id p r w) (h' : Leads records btf id p r' w') : r = r' ∧ w = w' := by
  induction h with
  | member hr hw =>
      cases h' with
      | member hr' hw' =>
          cases hr.symm.trans hr'
          exact ⟨rfl, Option.some.inj (hw.symm.trans hw')⟩
      | inner _ _ _ hrest => cases hrest
  | inner hr hw hx hrest ih =>
      cases h' with
      | member _ _ => cases hrest
      | inner hr' hw' hx' hrest' =>
          cases hr.symm.trans hr'
          cases hw.symm.trans hw'
          cases behind_unique hx.2.1 hx'.2.1
          exact ih hrest'

variable (htypes : btf.types = void :: records.map Record.ty)
include htypes

theorem member_raw {t : Ty} {i : ℕ} {m : Member} (ht : btf.types[id.toNat]? = some t) (hm : t.members[i]? = some m) :
    ∃ r w, recordAt records id = some r ∧ (rawMembers r)[i]? = some w ∧ m = memberOf r.kindFlag w := by
  rw [htypes] at ht
  by_cases hid : id = 0
  · subst hid
    cases ht
    cases hm
  · have hpos : id.toNat ≠ 0 := fun hzero => hid (UInt32.toNat_inj.mp hzero)
    obtain ⟨n, hn⟩ := Nat.exists_eq_succ_of_ne_zero hpos
    rw [hn, List.getElem?_cons_succ, List.getElem?_map, Option.map_eq_some_iff] at ht
    obtain ⟨r, hr, rfl⟩ := ht
    have hat : recordAt records id = some r := by rw [recordAt, if_neg hid, hn, Nat.succ_sub_one, hr]
    obtain ⟨name, flag, size, body, fits⟩ := r
    cases body with
    | compound k members =>
        obtain ⟨w, hw, rfl⟩ := Option.map_eq_some_iff.mp (List.getElem?_map.symm.trans hm)
        exact ⟨_, w, hat, hw, rfl⟩
    | bare | word | array | enum | enum64 | funcProto | datasec => cases hm

theorem path_leads (h : Path btf member id p bits) : ∃ r w, Leads records btf id p r w := by
  induction h with
  | named ht hm _ _ =>
      obtain ⟨r, w, hr, hw, -⟩ := member_raw htypes ht hm
      exact ⟨r, w, .member hr hw⟩
  | inner ht hm hx _ ih =>
      obtain ⟨r, w, hr, hw, rfl⟩ := member_raw htypes ht hm
      obtain ⟨r', w', hleads⟩ := ih
      exact ⟨r', w', .inner hr hw hx hleads⟩

end Leads

section Offset

variable {d : List UInt8} {l : Layout} {records : List Record} {strings : List UInt8} {btf : Btf}
  {structName member : String} {p p' : List ℕ} {bits bits' : ℕ} {r r' : Record} {w w' : Words3}

theorem finds_unique (h : Finds records strings btf structName member p bits r w)
    (h' : Finds records strings btf structName member p' bits' r' w') : p = p' ∧ bits = bits' ∧ r = r' ∧ w = w' := by
  obtain ⟨id, hid, ⟨hpath, hleast⟩, hleads, -⟩ := h
  obtain ⟨id', hid', ⟨hpath', hleast'⟩, hleads', -⟩ := h'
  cases hid.symm.trans hid'
  obtain rfl : p = p' := le_antisymm (hleast p' bits' hpath') (hleast' p bits hpath)
  have hbits : some bits = some bits' := meets_unique hpath hpath'
  exact ⟨rfl, Option.some.inj hbits, leads_unique hleads hleads'⟩

/-- The search takes a member iff the offsets on the way to it add up to whole bytes. -/
theorem offset_ok_iff (h : Encodes d l records strings) (hparse : parse d = .ok btf) (hmod : Acyclic (Modifies btf))
    (hnest : Acyclic (Nests btf)) : (∃ n, btf.offset structName member = .ok n) ↔
      ∃ p bits r w, Finds records strings btf structName member p bits r w ∧ bits % 8 = 0 := by
  obtain ⟨m, hparse', hm⟩ := parse_ok h
  cases hparse.symm.trans hparse'
  generalize hbtf : (⟨void :: records.map Record.ty, strings, m⟩ : Btf) = btf at hmod hnest
  have htypes : btf.types = void :: records.map Record.ty := hbtf ▸ rfl
  have hname : btf.byName.get? (structName, kindStruct) = structAt records strings structName := hbtf ▸ hm structName kindStruct
  cases hid : structAt records strings structName with
  | none =>
      have herr : ∀ n, btf.offset structName member ≠ .ok n := by
        intro n hn
        rw [Btf.offset, hname, hid] at hn
        cases hn
      refine iff_of_false ?_ ?_
      · rintro ⟨n, hn⟩
        exact herr n hn
      · rintro ⟨_, _, _, _, ⟨_, hid', _⟩, _⟩
        cases hid.symm.trans hid'
  | some id =>
      have hlook := looksUp_of_yields (findMember_yields hmod hnest member id)
      have hoffset : ∀ n, btf.offset structName member = .ok n ↔ _ := offset_iff (hname.trans hid)
      constructor
      · rintro ⟨n, hn⟩
        obtain ⟨b, hb, height, -⟩ := (hoffset n).mp hn
        obtain ⟨p, bits, hfirst, hbits⟩ := hlook.sum b hb
        obtain ⟨r, w, hleads⟩ := path_leads htypes hfirst.1
        refine ⟨p, bits, r, w, ⟨id, hid, hfirst, hleads, fun q hq => ?_⟩, by omega⟩
        by_contra hle
        have hne : q ≠ p := by
          rintro rfl
          have hnone : none = some bits := meets_unique hq hfirst.1
          cases hnone
        have hlt := lt_of_le_of_ne (not_lt.mp hle) hne
        exact hlook.returns.mp ⟨_, hb⟩ ⟨q, hq, fun p' bits' hp' => hlt.trans_le (hfirst.2 p' bits' hp')⟩
      · rintro ⟨p, bits, r, w, ⟨id', hid', hfirst, -, hreached⟩, height⟩
        cases hid.symm.trans hid'
        have hno : ¬ ∃ q, Dangling btf id q ∧ ∀ p bits, Path btf member id p bits → q < p := by
          rintro ⟨q, hq, hbefore⟩
          exact lt_asymm (hreached q hq) (hbefore p bits hfirst.1)
        obtain ⟨res, hres⟩ := hlook.returns.mpr hno
        obtain ⟨b, rfl⟩ := Option.isSome_iff_exists.mp ((hlook.found res hres).mpr ⟨p, bits, hfirst.1⟩)
        obtain ⟨p', bits', hfirst', hb⟩ := hlook.sum b hres
        obtain rfl : p = p' := le_antisymm (hfirst.2 p' bits' hfirst'.1) (hfirst'.2 p bits hfirst.1)
        have hbits : some bits = some bits' := meets_unique hfirst.1 hfirst'.1
        cases hbits
        exact ⟨UInt32.ofNat (b.toNat / 8), (hoffset _).mpr ⟨b, hres, by omega, by rw [UInt32.toNat_ofNat']; omega⟩⟩

end Offset

def RefusesBitfields (records : List Record) (strings : List UInt8) (btf : Btf) (structName member : String) : Prop :=
  ∀ n, btf.offset structName member = .ok n → ∃ p bits r w,
    Finds records strings btf structName member p bits r w ∧ ¬ IsBitfield records btf r w

/-- A bitfield is refused exactly where the offsets on the way to it do not add up to whole bytes. -/
theorem offset_refuses_bitfields {d : List UInt8} {l : Layout} {records : List Record} {strings : List UInt8} {btf : Btf}
    (h : Encodes d l records strings) (hparse : parse d = .ok btf) (hmod : Acyclic (Modifies btf)) (hnest : Acyclic (Nests btf))
    (structName member : String) : RefusesBitfields records strings btf structName member ↔
      ∀ p bits r w, Finds records strings btf structName member p bits r w → IsBitfield records btf r w → bits % 8 ≠ 0 := by
  have hok : (∃ n, btf.offset structName member = .ok n) ↔ _ := offset_ok_iff h hparse hmod hnest
  constructor
  · intro hrefuses p bits r w hfinds hbitfield height
    obtain ⟨n, hn⟩ := hok.mpr ⟨p, bits, r, w, hfinds, height⟩
    obtain ⟨p', bits', r', w', hfinds', hnot⟩ := hrefuses n hn
    obtain ⟨-, -, rfl, rfl⟩ := finds_unique hfinds hfinds'
    exact hnot hbitfield
  · intro hunaligned n hn
    obtain ⟨p, bits, r, w, hfinds, height⟩ := hok.mp ⟨n, hn⟩
    exact ⟨p, bits, r, w, hfinds, fun hbitfield => hunaligned p bits r w hfinds hbitfield height⟩

section Sample

variable (m : Lib.Assoc.Dict (String × UInt32) UInt32)

def sampleBtf : Btf := ⟨void :: sampleRecords.map Record.ty, sampleStrings, m⟩

variable {m}

theorem not_modifies_sampleBtf (x y : UInt32) : ¬ Modifies (sampleBtf m) x y := by
  rintro ⟨t, ht, hkind, -⟩
  have hx : x.toNat < 3 := (List.getElem?_eq_some_iff.mp ht).1
  have hcases : ∀ n < 3, ∀ t ∈ (void :: sampleRecords.map Record.ty)[n]?, Btf.isModifier t.kind = false := by decide
  rw [hcases _ hx t ht] at hkind
  exact Bool.false_ne_true hkind

theorem named_sampleBtf {x : UInt32} {t : Ty} {w : Member} {i : ℕ} (ht : (sampleBtf m).types[x.toNat]? = some t)
    (hw : t.members[i]? = some w) : w.name = 5 := by
  have hx : x.toNat < 3 := (List.getElem?_eq_some_iff.mp ht).1
  have hcases : ∀ n < 3, ∀ t ∈ (void :: sampleRecords.map Record.ty)[n]?, ∀ w ∈ t.members, w.name = 5 := by decide
  exact hcases _ hx t ht w (List.mem_of_getElem? hw)

theorem sampleBtf_acyclic : Acyclic (Modifies (sampleBtf m)) ∧ Acyclic (Nests (sampleBtf m)) := by
  refine ⟨acyclic_of_rank UInt32.toNat fun x y h => absurd h (not_modifies_sampleBtf x y), ?_⟩
  apply acyclic_of_rank UInt32.toNat
  rintro x y ⟨t, ht, w, hw, hzero, -⟩
  obtain ⟨i, hi⟩ := List.mem_iff_getElem?.mp hw
  rw [named_sampleBtf ht hi] at hzero
  exact absurd hzero (by decide)

theorem not_dangling_sampleBtf (q : List ℕ) : ¬ Dangling (sampleBtf m) 1 q := by
  intro h
  cases h with
  | type hnone => cases hnone
  | name ht hw _ hlen =>
      rw [named_sampleBtf ht hw] at hlen
      exact absurd hlen (by change ¬ 7 < 5; decide)
  | modified ht hw hzero _ =>
      rw [named_sampleBtf ht hw] at hzero
      exact absurd hzero (by decide)
  | inner ht hw hx _ =>
      have hzero := hx.1
      rw [named_sampleBtf ht hw] at hzero
      exact absurd hzero (by decide)

theorem path_sampleBtf {p : List ℕ} {bits : ℕ} (h : Path (sampleBtf m) "a" 1 p bits) : p = [0] := by
  cases h with
  | @named _ _ i _ ht hw _ _ =>
      cases ht
      cases i with
      | zero => rfl
      | succ i => cases hw
  | inner ht hw hx _ =>
      have hzero := hx.1
      rw [named_sampleBtf ht hw] at hzero
      exact absurd hzero (by decide)

theorem finds_sampleBtf : Finds sampleRecords sampleStrings (sampleBtf m) "foo" "a" [0] 8
    (sampleRecords[0]) ⟨5, 2, 0x03000008⟩ := by
  have hstr : (sampleBtf m).str 5 = .ok "a" := by
    have htext : (((Lib.Utf8.fromUtf8 ((sampleStrings.drop 5).takeWhile (· ≠ 0))).map String.ofList).getD "") = "a" := by
      decide +kernel
    exact congrArg Except.ok htext
  refine ⟨1, by decide +kernel, ⟨@Path.named _ _ 1 _ 0 ⟨5, 2, 8⟩ rfl rfl (by decide) hstr, fun q bits hq => ?_⟩,
    .member rfl rfl, fun q hq => absurd hq (not_dangling_sampleBtf q)⟩
  rw [path_sampleBtf hq]

end Sample

/-- A bitfield of three bits in the second byte of a struct is accepted. -/
theorem bitfield_accepted : ∃ btf, parse sampleBlob = .ok btf ∧ Acyclic (Modifies btf) ∧ Acyclic (Nests btf) ∧
    ¬ RefusesBitfields sampleRecords sampleStrings btf "foo" "a" := by
  obtain ⟨m, hparse, -⟩ := parse_ok sampleBlob_encodes
  obtain ⟨hmod, hnest⟩ := sampleBtf_acyclic (m := m)
  refine ⟨sampleBtf m, hparse, hmod, hnest, fun hrefuses => ?_⟩
  obtain ⟨n, hn⟩ := (offset_ok_iff sampleBlob_encodes hparse hmod hnest).mpr ⟨_, _, _, _, finds_sampleBtf, rfl⟩
  obtain ⟨p, bits, r, w, hfinds, hnot⟩ := hrefuses n hn
  obtain ⟨-, -, rfl, rfl⟩ := finds_unique finds_sampleBtf hfinds
  exact hnot (show bitfieldSize _ ≠ 0 by decide)

theorem offset_refuses_bitfields_sample : ∃ btf, parse sampleBlob = .ok btf ∧
    (RefusesBitfields sampleRecords sampleStrings btf "foo" "a" ↔ ∀ p bits r w,
      Finds sampleRecords sampleStrings btf "foo" "a" p bits r w → IsBitfield sampleRecords btf r w → bits % 8 ≠ 0) := by
  obtain ⟨m, hparse, -⟩ := parse_ok sampleBlob_encodes
  obtain ⟨hmod, hnest⟩ := sampleBtf_acyclic (m := m)
  exact ⟨sampleBtf m, hparse, offset_refuses_bitfields sampleBlob_encodes hparse hmod hnest "foo" "a"⟩

end NetWatch.Collector.Bitfields
