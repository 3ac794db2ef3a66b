import NetWatch.Collector.BtfFormat
import NetWatch.Lib.Reach
import Mathlib.Data.List.Lex
import Mathlib.Data.Finset.Card

namespace NetWatch.Collector.BtfNames

open Lib.Assoc Lib.Reach BtfReader Relation
open Lib.Runs (ok_bind)

section Meaning

variable (btf : Btf)

def Modifies (x y : UInt32) : Prop := ∃ t, btf.types[x.toNat]? = some t ∧ Btf.isModifier t.kind ∧ t.ty = y

def Behind (x z : UInt32) : Prop :=
  ReflTransGen (Modifies btf) x z ∧ ∃ t, btf.types[z.toNat]? = some t ∧ Btf.isModifier t.kind = false

def Lost (x : UInt32) : Prop := ∃ z, ReflTransGen (Modifies btf) x z ∧ btf.types[z.toNat]? = none

def Opens (m : Member) (inner : UInt32) : Prop :=
  m.name = 0 ∧ Behind btf m.ty inner ∧
    ∃ t, btf.types[inner.toNat]? = some t ∧ (t.kind = kindStruct ∨ t.kind = kindUnion)

def Nests (x y : UInt32) : Prop := ∃ t, btf.types[x.toNat]? = some t ∧ ∃ m ∈ t.members, Opens btf m y

/-- The positions of the anonymous members on the way to a member of that name and at
last of the member itself, with the sum of the offsets in bits. -/
inductive Path (member : String) : UInt32 → List ℕ → ℕ → Prop
  | named {id t i m} : btf.types[id.toNat]? = some t → t.members[i]? = some m → m.name ≠ 0 →
      btf.str m.name = .ok member → Path member id [i] m.bitOff.toNat
  | inner {id t i m x p bits} : btf.types[id.toNat]? = some t → t.members[i]? = some m → Opens btf m x →
      Path member x p bits → Path member id (i :: p) (m.bitOff.toNat + bits)

inductive Dangling : UInt32 → List ℕ → Prop
  | type {id} : btf.types[id.toNat]? = none → Dangling id []
  | name {id t i m} : btf.types[id.toNat]? = some t → t.members[i]? = some m → m.name ≠ 0 →
      btf.strings.length < m.name.toNat → Dangling id [i]
  | modified {id t i m} : btf.types[id.toNat]? = some t → t.members[i]? = some m → m.name = 0 →
      Lost btf m.ty → Dangling id [i]
  | inner {id t i m x p} : btf.types[id.toNat]? = some t → t.members[i]? = some m → Opens btf m x →
      Dangling x p → Dangling id (i :: p)

/-- The first path in the order of the declarations, depth first. -/
def FirstPath (member : String) (id : UInt32) (p : List ℕ) (bits : ℕ) : Prop :=
  Path btf member id p bits ∧ ∀ q bits', Path btf member id q bits' → p ≤ q

end Meaning

variable {btf : Btf}

theorem type_ok {id : UInt32} {t : Ty} (h : btf.types[id.toNat]? = some t) : btf.type id = .ok t := by
  rw [Btf.type, h]

theorem type_panic {id : UInt32} (h : btf.types[id.toNat]? = none) : btf.type id = .error .panic := by
  rw [Btf.type, h]

def ids (btf : Btf) : Finset UInt32 := (Finset.range btf.types.length).image UInt32.ofNat

theorem mem_ids {id : UInt32} : id ∈ ids btf ↔ id.toNat < btf.types.length := by
  rw [ids, Finset.mem_image]
  constructor
  · rintro ⟨n, hn, rfl⟩
    have hle : (UInt32.ofNat n).toNat ≤ n := by
      rw [UInt32.toNat_ofNat']
      exact Nat.mod_le n _
    exact hle.trans_lt (Finset.mem_range.mp hn)
  · intro h
    exact ⟨id.toNat, Finset.mem_range.mpr h, UInt32.ofNat_toNat⟩

theorem card_ids : (ids btf).card ≤ btf.types.length := by
  have h := Finset.card_image_le (s := Finset.range btf.types.length) (f := UInt32.ofNat)
  rwa [Finset.card_range] at h

theorem type_of_mem {id : UInt32} (h : id ∈ ids btf) : ∃ t, btf.types[id.toNat]? = some t :=
  ⟨_, List.getElem?_eq_getElem (mem_ids.mp h)⟩

theorem none_of_not_mem {id : UInt32} (h : id ∉ ids btf) : btf.types[id.toNat]? = none := by
  rw [List.getElem?_eq_none_iff]
  rw [mem_ids] at h
  omega

section Modifiers

variable {x y z : UInt32}

theorem modifies_unique (hy : Modifies btf x y) (hz : Modifies btf x z) : y = z := by
  obtain ⟨t, ht, -, rfl⟩ := hy
  obtain ⟨t', ht', -, rfl⟩ := hz
  rw [ht] at ht'
  cases ht'
  rfl

theorem ends_unique (hy : ReflTransGen (Modifies btf) x y) (hz : ReflTransGen (Modifies btf) x z)
    (hyend : ∀ w, ¬ Modifies btf y w) (hzend : ∀ w, ¬ Modifies btf z w) : y = z := by
  induction hy using ReflTransGen.head_induction_on with
  | refl =>
      obtain rfl | ⟨w, hw, -⟩ := hz.cases_head
      · rfl
      · exact absurd hw (hyend w)
  | head hw _ ih =>
      obtain rfl | ⟨w, hw', hrest⟩ := hz.cases_head
      · exact absurd hw (hzend _)
      · cases modifies_unique hw hw'
        exact ih hrest

theorem behind_end (h : Behind btf x z) (w : UInt32) : ¬ Modifies btf z w := by
  obtain ⟨-, t, ht, hkind⟩ := h
  rintro ⟨t', ht', hmod, -⟩
  rw [ht] at ht'
  cases ht'
  rw [hkind] at hmod
  exact Bool.false_ne_true hmod

theorem none_end (h : btf.types[z.toNat]? = none) (w : UInt32) : ¬ Modifies btf z w := by
  rintro ⟨t, ht, -⟩
  rw [h] at ht
  cases ht

theorem behind_unique (hy : Behind btf x y) (hz : Behind btf x z) : y = z :=
  ends_unique hy.1 hz.1 (behind_end hy) (behind_end hz)

theorem not_lost_of_behind (hy : Behind btf x y) : ¬ Lost btf x := by
  rintro ⟨z, hz, hnone⟩
  cases ends_unique hy.1 hz (behind_end hy) (none_end hnone)
  obtain ⟨-, t, ht, -⟩ := hy
  rw [hnone] at ht
  cases ht

theorem skipModifiers_spec (hmod : Acyclic (Modifies btf)) (x : UInt32) :
    (∃ z, Behind btf x z ∧ btf.skipModifiers btf.types.length x = .ok z) ∨
      (Lost btf x ∧ btf.skipModifiers btf.types.length x = .error .panic) := by
  refine hmod.fuel (ids btf) (P := fun n x => (∃ z, Behind btf x z ∧ btf.skipModifiers n x = .ok z) ∨
      (Lost btf x ∧ btf.skipModifiers n x = .error .panic)) ?_ ?_ card_ids x
  · intro n x hx
    have hnone := none_of_not_mem hx
    refine .inr ⟨⟨x, .refl, hnone⟩, ?_⟩
    cases n with
    | zero => rfl
    | succ n =>
        rw [Btf.skipModifiers, type_panic hnone]
        rfl
  · intro n x hx ih
    obtain ⟨t, ht⟩ := type_of_mem hx
    rw [Btf.skipModifiers, type_ok ht, ok_bind]
    cases hkind : Btf.isModifier t.kind with
    | false => exact .inl ⟨x, ⟨.refl, t, ht, hkind⟩, rfl⟩
    | true =>
        have hstep : Modifies btf x t.ty := ⟨t, ht, hkind, rfl⟩
        rw [if_pos rfl]
        obtain ⟨z, ⟨hz, hend⟩, hok⟩ | ⟨⟨z, hz, hnone⟩, hpanic⟩ := ih _ hstep
        · exact .inl ⟨z, ⟨hz.head hstep, hend⟩, hok⟩
        · exact .inr ⟨⟨z, hz.head hstep, hnone⟩, hpanic⟩

end Modifiers

section Search

variable {member : String} {m : Member} {ms : List Member}

/-- What the search for a member meets on a path: the member, or a number that is out
of range. -/
def Meets (btf : Btf) (member : String) (id : UInt32) (p : List ℕ) : Option ℕ → Prop
  | some bits => Path btf member id p bits
  | none => Dangling btf id p

inductive MeetsAt (btf : Btf) (member : String) (m : Member) : List ℕ → Option ℕ → Prop
  | named : m.name ≠ 0 → btf.str m.name = .ok member → MeetsAt btf member m [] (some m.bitOff.toNat)
  | name : m.name ≠ 0 → btf.strings.length < m.name.toNat → MeetsAt btf member m [] none
  | modified : m.name = 0 → Lost btf m.ty → MeetsAt btf member m [] none
  | inner {x p o} : Opens btf m x → Meets btf member x p o →
      MeetsAt btf member m p (o.map (m.bitOff.toNat + ·))

def MeetsIn (btf : Btf) (member : String) (ms : List Member) (p : List ℕ) (o : Option ℕ) : Prop :=
  ∃ i q m, p = i :: q ∧ ms[i]? = some m ∧ MeetsAt btf member m q o

theorem meets_iff {id : UInt32} {t : Ty} (ht : btf.types[id.toNat]? = some t) {p : List ℕ} {o : Option ℕ} :
    Meets btf member id p o ↔ MeetsIn btf member t.members p o := by
  constructor
  · intro h
    cases o with
    | some bits =>
        cases h with
        | named ht' hm hname hstr =>
            cases ht.symm.trans ht'
            exact ⟨_, _, _, rfl, hm, .named hname hstr⟩
        | @inner _ _ _ _ _ _ bits ht' hm hx hpath =>
            cases ht.symm.trans ht'
            exact ⟨_, _, _, rfl, hm, .inner (o := some bits) hx hpath⟩
    | none =>
        cases h with
        | type hnone =>
            rw [ht] at hnone
            cases hnone
        | name ht' hm hname hlen =>
            cases ht.symm.trans ht'
            exact ⟨_, _, _, rfl, hm, .name hname hlen⟩
        | modified ht' hm hname hlost =>
            cases ht.symm.trans ht'
            exact ⟨_, _, _, rfl, hm, .modified hname hlost⟩
        | inner ht' hm hx hpath =>
            cases ht.symm.trans ht'
            exact ⟨_, _, _, rfl, hm, .inner (o := none) hx hpath⟩
  · rintro ⟨i, q, m, rfl, hm, h⟩
    cases h with
    | named hname hstr => exact Path.named ht hm hname hstr
    | name hname hlen => exact Dangling.name ht hm hname hlen
    | modified hname hlost => exact Dangling.modified ht hm hname hlost
    | @inner x _ o hx hmeets =>
        cases o with
        | some bits => exact Path.inner ht hm hx hmeets
        | none => exact Dangling.inner ht hm hx hmeets

def Yields (met : List ℕ → Option ℕ → Prop) : Except Failure (Option UInt32) → Prop
  | .ok none => ∀ p o, ¬ met p o
  | .ok (some b) => ∃ p bits, met p (some bits) ∧ b.toNat = bits % 2 ^ 32 ∧ ∀ q o, met q o → p ≤ q
  | .error e => e = .panic ∧ ∃ p, met p none ∧ ∀ q o, met q o → p ≤ q

theorem cons_le_iff {i j : ℕ} {p q : List ℕ} : i :: p ≤ j :: q ↔ i < j ∨ i = j ∧ p ≤ q := by
  rw [← not_lt, ← not_lt, List.cons_lt_cons_iff]
  have hij := Nat.lt_trichotomy i j
  constructor
  · intro h
    obtain hlt | rfl | hlt := hij
    · exact .inl hlt
    · exact .inr ⟨rfl, fun hqp => h (.inr ⟨rfl, hqp⟩)⟩
    · exact absurd (.inl hlt) h
  · rintro (hlt | ⟨rfl, hle⟩) (hlt' | ⟨heq, hqp⟩)
    · omega
    · omega
    · omega
    · exact hle hqp

theorem meetsIn_first {p : List ℕ} {o : Option ℕ} (hmet : MeetsAt btf member m p o)
    (hleast : ∀ q o', MeetsAt btf member m q o' → p ≤ q) :
    MeetsIn btf member (m :: ms) (0 :: p) o ∧ ∀ q o', MeetsIn btf member (m :: ms) q o' → 0 :: p ≤ q := by
  refine ⟨⟨0, p, m, rfl, rfl, hmet⟩, ?_⟩
  rintro q o' ⟨i, q, m', rfl, hm', hq⟩
  rw [cons_le_iff]
  cases i with
  | zero =>
      cases hm'
      exact .inr ⟨rfl, hleast q o' hq⟩
  | succ i => exact .inl i.succ_pos

theorem meetsIn_rest (hnone : ∀ p o, ¬ MeetsAt btf member m p o) {p : List ℕ} {o : Option ℕ} :
    MeetsIn btf member (m :: ms) p o ↔ ∃ i q, p = (i + 1) :: q ∧ MeetsIn btf member ms (i :: q) o := by
  constructor
  · rintro ⟨i, q, m', rfl, hm', hq⟩
    cases i with
    | zero =>
        cases hm'
        exact absurd hq (hnone q o)
    | succ i => exact ⟨i, q, rfl, i, q, m', rfl, hm', hq⟩
  · rintro ⟨i, q, rfl, _, _, m', heq, hm', hq⟩
    cases heq
    exact ⟨i + 1, q, m', rfl, hm', hq⟩

theorem yields_first {r : Except Failure (Option UInt32)} (hr : r ≠ .ok none)
    (h : Yields (MeetsAt btf member m) r) : Yields (MeetsIn btf member (m :: ms)) r := by
  match r, h with
  | .ok none, _ => exact absurd rfl hr
  | .ok (some b), ⟨p, bits, hmet, hb, hleast⟩ =>
      obtain ⟨hmet', hleast'⟩ := meetsIn_first hmet hleast
      exact ⟨0 :: p, bits, hmet', hb, hleast'⟩
  | .error e, ⟨he, p, hmet, hleast⟩ =>
      obtain ⟨hmet', hleast'⟩ := meetsIn_first hmet hleast
      exact ⟨he, 0 :: p, hmet', hleast'⟩

theorem meetsIn_later (hnone : ∀ p o, ¬ MeetsAt btf member m p o) {p : List ℕ} {o : Option ℕ}
    (hmet : MeetsIn btf member ms p o) (hleast : ∀ q o', MeetsIn btf member ms q o' → p ≤ q) :
    ∃ p', MeetsIn btf member (m :: ms) p' o ∧ ∀ q o', MeetsIn btf member (m :: ms) q o' → p' ≤ q := by
  obtain ⟨i, p, _, rfl, -⟩ := id hmet
  refine ⟨(i + 1) :: p, (meetsIn_rest hnone).mpr ⟨i, p, rfl, hmet⟩, ?_⟩
  intro q o' hq
  obtain ⟨j, q, rfl, hq'⟩ := (meetsIn_rest hnone).mp hq
  have hle := hleast _ _ hq'
  rw [cons_le_iff] at hle ⊢
  exact hle.imp Nat.succ_lt_succ (And.imp_left (congrArg Nat.succ))

theorem yields_rest {r : Except Failure (Option UInt32)} (hnone : ∀ p o, ¬ MeetsAt btf member m p o)
    (h : Yields (MeetsIn btf member ms) r) : Yields (MeetsIn btf member (m :: ms)) r := by
  match r, h with
  | .ok none, h =>
      intro p o hp
      obtain ⟨i, q, -, hq⟩ := (meetsIn_rest hnone).mp hp
      exact h _ _ hq
  | .ok (some b), ⟨p, bits, hmet, hb, hleast⟩ =>
      obtain ⟨p', hmet', hleast'⟩ := meetsIn_later hnone hmet hleast
      exact ⟨p', bits, hmet', hb, hleast'⟩
  | .error e, ⟨he, p, hmet, hleast⟩ =>
      obtain ⟨p', hmet', hleast'⟩ := meetsIn_later hnone hmet hleast
      exact ⟨he, p', hmet', hleast'⟩

theorem str_cases (btf : Btf) (off : UInt32) :
    (∃ name, btf.str off = .ok name) ∨ (btf.strings.length < off.toNat ∧ btf.str off = .error .panic) := by
  rw [Btf.str]
  split
  · exact .inl ⟨_, rfl⟩
  · exact .inr ⟨by omega, rfl⟩

theorem str_panic {off : UInt32} (h : btf.strings.length < off.toNat) : btf.str off = .error .panic := by
  rw [Btf.str, if_neg (by omega)]

theorem not_meetsAt_other {name : String} (hname : m.name ≠ 0) (hstr : btf.str m.name = .ok name)
    (hne : name ≠ member) (p : List ℕ) (o : Option ℕ) : ¬ MeetsAt btf member m p o := by
  intro h
  cases h with
  | named _ h =>
      rw [hstr] at h
      cases h
      exact hne rfl
  | name _ h =>
      rw [str_panic h] at hstr
      cases hstr
  | modified h _ => exact hname h
  | inner h _ => exact hname h.1

theorem not_meetsAt_plain {z : UInt32} {t : Ty} (hname : m.name = 0) (hz : Behind btf m.ty z)
    (ht : btf.types[z.toNat]? = some t) (hkind : ¬ (t.kind = kindStruct ∨ t.kind = kindUnion))
    (p : List ℕ) (o : Option ℕ) : ¬ MeetsAt btf member m p o := by
  intro h
  cases h with
  | named h _ => exact h hname
  | name h _ => exact h hname
  | modified _ h => exact not_lost_of_behind hz h
  | inner h _ =>
      obtain ⟨-, hx, t', ht', hkind'⟩ := h
      cases behind_unique hz hx
      rw [ht] at ht'
      cases ht'
      exact hkind hkind'

theorem meetsAt_inner {x : UInt32} (hx : Opens btf m x) {p : List ℕ} {o : Option ℕ} :
    MeetsAt btf member m p o ↔ ∃ o', o = o'.map (m.bitOff.toNat + ·) ∧ Meets btf member x p o' := by
  constructor
  · intro h
    cases h with
    | named h _ => exact absurd hx.1 h
    | name h _ => exact absurd hx.1 h
    | modified _ h => exact absurd h (not_lost_of_behind hx.2.1)
    | inner hx' h =>
        cases behind_unique hx.2.1 hx'.2.1
        exact ⟨_, rfl, h⟩
  · rintro ⟨o', rfl, h⟩
    exact .inner hx h

theorem nil_least (q : List ℕ) : [] ≤ q := not_lt.mp (List.not_lt_nil q)

theorem yields_named {b : UInt32} (h : MeetsAt btf member m [] (some b.toNat)) :
    Yields (MeetsAt btf member m) (.ok (some b)) :=
  ⟨[], b.toNat, h, (Nat.mod_eq_of_lt b.toNat_lt).symm, fun q _ _ => nil_least q⟩

theorem yields_panic (h : MeetsAt btf member m [] none) : Yields (MeetsAt btf member m) (.error .panic) :=
  ⟨rfl, [], h, fun q _ _ => nil_least q⟩

theorem searchMembers_yields (hmod : Acyclic (Modifies btf)) {inner : UInt32 → Except Failure (Option UInt32)}
    (hinner : ∀ m ∈ ms, ∀ x, Opens btf m x → Yields (Meets btf member x) (inner x)) :
    Yields (MeetsIn btf member ms) (btf.searchMembers member inner ms) := by
  induction ms with
  | nil =>
      rintro p o ⟨i, q, m, -, hm, -⟩
      cases hm
  | cons m ms ih =>
      have hrest := ih fun m' hm' => hinner m' (List.mem_cons_of_mem m hm')
      rw [Btf.searchMembers]
      by_cases hname : m.name = 0
      · rw [if_neg (not_not.mpr hname)]
        obtain ⟨z, hz, hskip⟩ | ⟨hlost, hskip⟩ := skipModifiers_spec hmod m.ty
        · obtain ⟨-, t, ht, -⟩ := id hz
          rw [hskip, ok_bind, type_ok ht, ok_bind]
          split
          · rename_i hkind
            have hx : Opens btf m z := ⟨hname, hz, t, ht, hkind⟩
            have hyields := hinner m List.mem_cons_self z hx
            match hr : inner z, hyields with
            | .ok none, hnone =>
                refine yields_rest (fun p o h => ?_) hrest
                obtain ⟨o', -, h⟩ := (meetsAt_inner hx).mp h
                exact hnone p o' h
            | .ok (some b), ⟨p, bits, hmet, hb, hleast⟩ =>
                apply yields_first (fun h => by cases h)
                refine ⟨p, m.bitOff.toNat + bits, (meetsAt_inner hx).mpr ⟨some bits, rfl, hmet⟩, ?_, ?_⟩
                · rw [UInt32.toNat_add, hb]
                  omega
                · intro q o hq
                  obtain ⟨o', -, hq⟩ := (meetsAt_inner hx).mp hq
                  exact hleast q o' hq
            | .error e, ⟨he, p, hmet, hleast⟩ =>
                apply yields_first (fun h => by cases h)
                refine ⟨he, p, (meetsAt_inner hx).mpr ⟨none, rfl, hmet⟩, ?_⟩
                intro q o hq
                obtain ⟨o', -, hq⟩ := (meetsAt_inner hx).mp hq
                exact hleast q o' hq
          · rename_i hkind
            exact yields_rest (not_meetsAt_plain hname hz ht hkind) hrest
        · rw [hskip]
          exact yields_first (fun h => by cases h) (yields_panic (.modified hname hlost))
      · rw [if_pos hname]
        obtain ⟨name, hstr⟩ | ⟨hlen, hstr⟩ := str_cases btf m.name
        · rw [hstr, ok_bind]
          split
          · rename_i heq
            subst heq
            exact yields_first (fun h => by cases h) (yields_named (.named hname hstr))
          · rename_i hne
            exact yields_rest (not_meetsAt_other hname hstr hne) hrest
        · rw [hstr]
          exact yields_first (fun h => by cases h) (yields_panic (.name hname hlen))

/-- The search finds what is met first. -/
theorem findMember_yields (hmod : Acyclic (Modifies btf)) (hnest : Acyclic (Nests btf)) (member : String) (id : UInt32) :
    Yields (Meets btf member id) (btf.findMember member btf.types.length id) := by
  refine hnest.fuel (ids btf) (P := fun n id => Yields (Meets btf member id) (btf.findMember member n id))
    ?_ ?_ card_ids id
  · intro n id hid
    have hnone := none_of_not_mem hid
    have hr : btf.findMember member n id = .error .panic := by
      cases n with
      | zero => rfl
      | succ n =>
          rw [Btf.findMember, type_panic hnone]
          rfl
    rw [hr]
    exact ⟨rfl, [], Dangling.type hnone, fun q _ _ => nil_least q⟩
  · intro n id hid ih
    obtain ⟨t, ht⟩ := type_of_mem hid
    rw [Btf.findMember, type_ok ht, ok_bind]
    have hmet : Meets btf member id = MeetsIn btf member t.members := by
      funext p o
      exact propext (meets_iff ht)
    rw [hmet]
    apply searchMembers_yields hmod
    intro m hm x hx
    exact ih x ⟨t, ht, m, hm, hx⟩

theorem type_of_meets {id : UInt32} {i : ℕ} {p : List ℕ} {o : Option ℕ} (h : Meets btf member id (i :: p) o) :
    ∃ t, btf.types[id.toNat]? = some t := by
  cases o with
  | some bits =>
      cases h with
      | named ht _ _ _ => exact ⟨_, ht⟩
      | inner ht _ _ _ => exact ⟨_, ht⟩
  | none =>
      cases h with
      | name ht _ _ _ => exact ⟨_, ht⟩
      | modified ht _ _ _ => exact ⟨_, ht⟩
      | inner ht _ _ _ => exact ⟨_, ht⟩

theorem meets_unique {id : UInt32} {p : List ℕ} {o o' : Option ℕ} (h : Meets btf member id p o)
    (h' : Meets btf member id p o') : o = o' := by
  induction p generalizing id o o' with
  | nil =>
      match o, h, o', h' with
      | none, _, none, _ => rfl
  | cons i p ih =>
      obtain ⟨t, ht⟩ := type_of_meets h
      obtain ⟨_, _, m, heq, hm, hat⟩ := (meets_iff ht).mp h
      cases heq
      obtain ⟨_, _, m', heq, hm', hat'⟩ := (meets_iff ht).mp h'
      cases heq
      cases hm.symm.trans hm'
      cases hat with
      | named hname hstr =>
          cases hat' with
          | named _ _ => rfl
          | name _ hlen =>
              rw [str_panic hlen] at hstr
              cases hstr
          | modified hzero _ => exact absurd hzero hname
          | inner hx _ => exact absurd hx.1 hname
      | name hname hlen =>
          cases hat' with
          | named _ hstr =>
              rw [str_panic hlen] at hstr
              cases hstr
          | name _ _ => rfl
          | modified hzero _ => exact absurd hzero hname
          | inner hx _ => exact absurd hx.1 hname
      | modified hzero hlost =>
          cases hat' with
          | named hname _ => exact absurd hzero hname
          | name hname _ => exact absurd hzero hname
          | modified _ _ => rfl
          | inner hx _ => exact absurd hlost (not_lost_of_behind hx.2.1)
      | inner hx hmet =>
          obtain ⟨o₁, rfl, hmet'⟩ := (meetsAt_inner hx).mp hat'
          rw [ih hmet hmet']

end Search

/-- The search returns unless it comes to something out of range before it comes to the
member. It then returns an offset if and only if there is a path to the member, and this
is the sum along the first one. -/
structure LooksUp (btf : Btf) (member : String) (id : UInt32) (result : Except Failure (Option UInt32)) : Prop where
  returns : (∃ r, result = .ok r) ↔ ¬ ∃ q, Dangling btf id q ∧ ∀ p bits, Path btf member id p bits → q < p
  found : ∀ r, result = .ok r → (r.isSome ↔ ∃ p bits, Path btf member id p bits)
  sum : ∀ b, result = .ok (some b) → ∃ p bits, FirstPath btf member id p bits ∧ b.toNat = bits % 2 ^ 32

theorem looksUp_of_yields {member : String} {id : UInt32} {result : Except Failure (Option UInt32)}
    (h : Yields (Meets btf member id) result) : LooksUp btf member id result := by
  match result, h with
  | .ok none, hnone =>
      refine ⟨⟨fun _ => ?_, fun _ => ⟨none, rfl⟩⟩, ?_, fun b hb => by cases hb⟩
      · rintro ⟨q, hq, -⟩
        exact hnone q none hq
      · intro r hr
        cases hr
        refine ⟨fun hr => absurd hr Bool.false_ne_true, ?_⟩
        rintro ⟨p, bits, hp⟩
        exact absurd hp (hnone p (some bits))
  | .ok (some b), ⟨p, bits, hp, hb, hleast⟩ =>
      have hpath : Path btf member id p bits := hp
      refine ⟨⟨fun _ => ?_, fun _ => ⟨some b, rfl⟩⟩, ?_, ?_⟩
      · rintro ⟨q, hq, hbefore⟩
        exact absurd (hbefore p bits hpath) (not_lt.mpr (hleast q none hq))
      · intro r hr
        cases hr
        exact ⟨fun _ => ⟨p, bits, hpath⟩, fun _ => rfl⟩
      · intro b' hb'
        cases hb'
        exact ⟨p, bits, ⟨hpath, fun q bits' hq => hleast q (some bits') hq⟩, hb⟩
  | .error e, ⟨he, q, hq, hleast⟩ =>
      refine ⟨⟨?_, fun hno => absurd ⟨q, hq, ?_⟩ hno⟩, fun r hr => (by cases hr), fun b hb => by cases hb⟩
      · rintro ⟨r, hr⟩
        cases hr
      intro p bits hp
      refine lt_of_le_of_ne (hleast p (some bits) hp) ?_
      rintro rfl
      have hnone : none = some bits := meets_unique hq hp
      cases hnone

theorem offset_iff {structName member : String} {id : UInt32}
    (hid : btf.byName.get? (structName, kindStruct) = some id) (n : UInt32) :
    btf.offset structName member = .ok n ↔
      ∃ b, btf.findMember member btf.types.length id = .ok (some b) ∧ b.toNat % 8 = 0 ∧ n.toNat = b.toNat / 8 := by
  have hmod : ∀ b : UInt32, b % 8 = 0 ↔ b.toNat % 8 = 0 := by
    intro b
    rw [← UInt32.toNat_inj, UInt32.toNat_mod]
    rfl
  rw [Btf.offset, hid]
  dsimp only
  match hr : btf.findMember member btf.types.length id with
  | .error e => exact ⟨fun h => (by cases h), fun ⟨_, h, _⟩ => by cases h⟩
  | .ok none => exact ⟨fun h => (by cases h), fun ⟨_, h, _⟩ => by cases h⟩
  | .ok (some b) =>
      rw [ok_bind]
      dsimp only
      constructor
      · intro h
        split at h
        · cases h
        · rename_i hb
          cases h
          refine ⟨b, rfl, (hmod b).mp (not_not.mp hb), ?_⟩
          rw [UInt32.toNat_div]
          rfl
      · rintro ⟨b', hb', height, hn⟩
        cases hb'
        rw [if_neg (not_not.mpr ((hmod b).mpr height))]
        have hdiv : b / 8 = n := by
          rw [← UInt32.toNat_inj, UInt32.toNat_div, hn]
          rfl
        rw [hdiv]
        rfl

/-- The offsets of members are found as C looks up names, through the anonymous members
and in the order of the declarations, and are in bytes. -/
theorem members_looked_up (btf : Btf) (hmod : Acyclic (Modifies btf)) (hnest : Acyclic (Nests btf))
    (id : UInt32) (member : String) :
    LooksUp btf member id (btf.findMember member btf.types.length id) ∧
      ∀ structName, btf.byName.get? (structName, kindStruct) = some id → ∀ n, btf.offset structName member = .ok n ↔
        ∃ b, btf.findMember member btf.types.length id = .ok (some b) ∧ b.toNat % 8 = 0 ∧ n.toNat = b.toNat / 8 :=
  ⟨looksUp_of_yields (findMember_yields hmod hnest member id), fun _ hid => offset_iff hid⟩

def nestedBtf : Btf where
  types :=
    [BtfParse.void, ⟨1, kindStruct, 16, [⟨0, 2, 32⟩], []⟩, ⟨0, kindConst, 3, [], []⟩, ⟨0, kindUnion, 4, [⟨5, 0, 8⟩], []⟩]
  strings := [0, 102, 111, 111, 0, 97, 0]
  byName := Dict.empty.insert ("foo", kindStruct) 1

theorem modifies_nestedBtf {x y : UInt32} (h : Modifies nestedBtf x y) : x = 2 ∧ y = 3 := by
  obtain ⟨t, ht, hkind, rfl⟩ := h
  have hx : x.toNat < 4 := (List.getElem?_eq_some_iff.mp ht).1
  have hcases : ∀ n < 4, ∀ t ∈ nestedBtf.types[n]?, Btf.isModifier t.kind = true → n = 2 ∧ t.ty = 3 := by decide
  obtain ⟨htwo, hthree⟩ := hcases _ hx t ht hkind
  exact ⟨UInt32.toNat_inj.mp htwo, hthree⟩

theorem nests_nestedBtf {x y : UInt32} (h : Nests nestedBtf x y) : x.toNat = 1 ∧ y.toNat = 3 := by
  obtain ⟨t, ht, m, hm, hzero, ⟨hbehind, t', ht', hkind⟩, -⟩ := h
  have hx : x.toNat < 4 := (List.getElem?_eq_some_iff.mp ht).1
  have hcases : ∀ n < 4, ∀ t ∈ nestedBtf.types[n]?, ∀ m ∈ t.members, m.name = 0 → n = 1 ∧ m.ty = 2 := by decide
  obtain ⟨hone, htwo⟩ := hcases _ hx t ht m hm hzero
  rw [htwo] at hbehind
  refine ⟨hone, ?_⟩
  obtain rfl | ⟨w, hw, hrest⟩ := hbehind.cases_head
  · cases ht'
    exact absurd hkind (by decide)
  · obtain ⟨-, rfl⟩ := modifies_nestedBtf hw
    obtain rfl | ⟨w, hw, -⟩ := hrest.cases_head
    · rfl
    · exact absurd (modifies_nestedBtf hw).1 (by decide)

theorem members_looked_up_nested : LooksUp nestedBtf "a" 1 (nestedBtf.findMember "a" 4 1) ∧
    nestedBtf.offset "foo" "a" = .ok 5 := by
  have hmod : Acyclic (Modifies nestedBtf) := by
    apply acyclic_of_rank UInt32.toNat
    intro x y h
    obtain ⟨rfl, rfl⟩ := modifies_nestedBtf h
    decide
  have hnest : Acyclic (Nests nestedBtf) := by
    apply acyclic_of_rank UInt32.toNat
    intro x y h
    obtain ⟨hx, hy⟩ := nests_nestedBtf h
    omega
  obtain ⟨hlook, hoffset⟩ := members_looked_up nestedBtf hmod hnest 1 "a"
  exact ⟨hlook, (hoffset "foo" (by decide +kernel) 5).mpr ⟨40, by decide +kernel, rfl, rfl⟩⟩

def brokenRecords : List BtfFormat.Record :=
  [⟨1, false, 8, .compound .struct [⟨0, 9, 0⟩, ⟨5, 0, 32⟩], by decide⟩]

def brokenBlob : List UInt8 :=
  BtfFormat.Layout.encode ⟨1, 0, 24, 0, 36⟩ 36 7 ++ (brokenRecords.flatMap BtfFormat.Record.encode ++ BtfFormat.sampleStrings)

theorem brokenBlob_encodes : BtfFormat.Encodes brokenBlob ⟨1, 0, 24, 0, 36⟩ brokenRecords BtfFormat.sampleStrings where
  header := ⟨[], _, rfl, rfl⟩
  hdrLen := by decide
  types := ⟨_, _, rfl, rfl⟩
  table := ⟨BtfFormat.Layout.encode ⟨1, 0, 24, 0, 36⟩ 36 7 ++ brokenRecords.flatMap BtfFormat.Record.encode, [], by decide, by decide⟩
  typesFit := by decide
  stringsFit := by decide
  names := by decide

def brokenBtf (m : Dict (String × UInt32) UInt32) : Btf :=
  ⟨BtfParse.void :: brokenRecords.map BtfFormat.Record.ty, BtfFormat.sampleStrings, m⟩

theorem not_modifies_brokenBtf (m : Dict (String × UInt32) UInt32) (x y : UInt32) : ¬ Modifies (brokenBtf m) x y := by
  rintro ⟨t, ht, hkind, -⟩
  have hx : x.toNat < 2 := (List.getElem?_eq_some_iff.mp ht).1
  have hcases : ∀ n < 2, ∀ t ∈ (BtfParse.void :: brokenRecords.map BtfFormat.Record.ty)[n]?,
      Btf.isModifier t.kind = false := by decide
  rw [hcases _ hx t ht] at hkind
  exact Bool.false_ne_true hkind

theorem not_nests_brokenBtf (m : Dict (String × UInt32) UInt32) (x y : UInt32) : ¬ Nests (brokenBtf m) x y := by
  rintro ⟨t, ht, member, hmember, hzero, ⟨hbehind, t', ht', -⟩, -⟩
  have hx : x.toNat < 2 := (List.getElem?_eq_some_iff.mp ht).1
  have hcases : ∀ n < 2, ∀ t ∈ (BtfParse.void :: brokenRecords.map BtfFormat.Record.ty)[n]?,
      ∀ member ∈ t.members, member.name = 0 → member.ty = 9 := by decide
  rw [hcases _ hx t ht member hmember hzero] at hbehind
  obtain rfl | ⟨w, hw, -⟩ := hbehind.cases_head
  · cases ht'
  · exact not_modifies_brokenBtf m _ _ hw

/-- There is a path to the member, and the search panics before it comes there. -/
theorem broken_panics : ∃ btf, BtfParse.parse brokenBlob = .ok btf ∧ Acyclic (Modifies btf) ∧ Acyclic (Nests btf) ∧
    (∃ p bits, Path btf "a" 1 p bits) ∧ btf.findMember "a" btf.types.length 1 = .error .panic := by
  obtain ⟨m, hparse, -⟩ := BtfFormat.parse_ok brokenBlob_encodes
  refine ⟨brokenBtf m, hparse, ?_, ?_, ⟨[1], 32, ?_⟩, rfl⟩
  · exact acyclic_of_rank UInt32.toNat fun x y h => absurd h (not_modifies_brokenBtf m x y)
  · exact acyclic_of_rank UInt32.toNat fun x y h => absurd h (not_nests_brokenBtf m x y)
  · have hstr : (brokenBtf m).str 5 = .ok "a" := by
      have htext : (((Lib.Utf8.fromUtf8 ((BtfFormat.sampleStrings.drop 5).takeWhile (· ≠ 0))).map String.ofList).getD "") = "a" := by
        decide +kernel
      exact congrArg Except.ok htext
    exact @Path.named _ _ 1 _ 1 ⟨5, 0, 32⟩ rfl rfl (by decide) hstr

end NetWatch.Collector.BtfNames
