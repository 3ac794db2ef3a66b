import Mathlib.Algebra.Order.Floor.Ring
import NetWatch.GeoIp.Asn
import NetWatch.Lib.JsNumber
import NetWatch.Lib.Runs
import NetWatch.Lib.Utf8

namespace NetWatch.GeoIp.Reload

open Lib Lib.Assoc Lib.JsValue Ip Asn
open Lib.JsNumber (mathRound mathRound_int)
open Lib.Runs (Run Free)

structure GeoDb where
  file : String
  table : Option AsnTable
  fileDate : Option ℤ
  error : Option String
  /-- A load is under way. -/
  loading : Bool

structure GeoStatus where
  loaded : Bool
  entries : ℕ
  fileDate : Option ℤ
  error : Option String
  deriving DecidableEq

def GeoDb.status (db : GeoDb) : GeoStatus :=
  ⟨db.table.isSome, (db.table.map AsnTable.size).getD 0, db.fileDate, db.error⟩

def GeoDb.lookup (db : GeoDb) (ip : Units) : Option Geo := db.table.bind fun t => t.lookup ip

def GeoDb.lookupParsed (db : GeoDb) (ip : ParsedIp) : Option Geo := db.table.bind fun t => t.lookupParsed ip

structure Row where
  ip : Units
  geo : Option Geo
  deriving DecidableEq

def Row.tag (r : Row) (g : Option Geo) : Row := if g.isSome then { r with geo := g } else r

def enrichRow (t : AsnTable) (s : Dict Units (Option Geo) × List Row) (r : Row) : Dict Units (Option Geo) × List Row :=
  match s.1.get? r.ip with
  | some g => (s.1, s.2 ++ [r.tag g])
  | none => (s.1.insert r.ip (t.lookup r.ip), s.2 ++ [r.tag (t.lookup r.ip)])

def GeoDb.enrich (db : GeoDb) (rows : List Row) : List Row :=
  match db.table with
  | none => rows
  | some t => (rows.foldl (enrichRow t) (.empty, [])).2

structure StatError where
  code : String
  message : String

/-- What the file system answers to one load: the modification time in milliseconds, and the
bytes of the file in case it is read. -/
structure Attempt (K : Type) where
  stat : Except StatError K
  content : Except String (List UInt8)

/-- What a load does beside setting the fields. -/
inductive Effect
  | readFile (file : String)
  | parseTable (text : Units)
  | info (text : String) (entries skipped : ℕ)
  | warn (text : String)
  deriving DecidableEq

def utf8Text (buf : List UInt8) : Units := (Utf8.fromUtf8Lossy buf).flatMap charUnits

def tryRead (gunzip : List UInt8 → Except String (List UInt8)) (file : String) (content : Except String (List UInt8)) :
    List Effect × Except String (AsnTable × ℕ) :=
  match content with
  | .error msg => ([.readFile file], .error msg)
  | .ok buf =>
      match if buf[0]? = some 0x1f ∧ buf[1]? = some 0x8b then gunzip buf else .ok buf with
      | .error msg => ([.readFile file], .error msg)
      | .ok buf =>
          let (table, skipped) := parseTable (utf8Text buf)
          ([.readFile file, .parseTable (utf8Text buf)],
            if table.size = 0 then .error "no ranges in the file" else .ok (table, skipped))

section Load

variable {K : Type} [Field K] [LinearOrder K] [FloorRing K]

/-- The file is taken to be the one that is loaded. -/
def GeoDb.Unchanged (db : GeoDb) (mtime : K) : Prop :=
  db.table.isSome ∧ (db.fileDate.map fun d : ℤ => (d : K)) = some mtime

instance (db : GeoDb) (mtime : K) : Decidable (db.Unchanged mtime) := inferInstanceAs (Decidable (_ ∧ _))

def GeoDb.load (gunzip : List UInt8 → Except String (List UInt8)) (db : GeoDb) (a : Attempt K) : GeoDb × List Effect :=
  match a.stat with
  | .error e =>
      let msg := if e.code = "ENOENT" then db.file ++ " not found (run \"npm run geo:update\")" else e.message
      ({ db with error := some msg },
        if db.error = some msg then [] else [.warn ("geo: " ++ msg ++ "; destinations are shown without ASN/country")])
  | .ok mtime =>
      if db.Unchanged mtime then (db, [])
      else
        match tryRead gunzip db.file a.content with
        | (effects, .ok (table, skipped)) =>
            ({ db with table := some table, fileDate := some (mathRound mtime), error := none },
              effects ++ [.info "geo: IP → ASN table loaded" table.size skipped])
        | (effects, .error msg) =>
            ({ db with error := some msg }, effects ++ [.warn "geo: could not load the IP → ASN table"])

def GeoDb.Loads (gunzip : List UInt8 → Except String (List UInt8)) (db : GeoDb) (a : Attempt K) (mtime : K) (t : AsnTable) : Prop :=
  a.stat = .ok mtime ∧ ¬ db.Unchanged mtime ∧ ∃ skipped, (tryRead gunzip db.file a.content).2 = .ok (t, skipped)

def GeoDb.Fails (gunzip : List UInt8 → Except String (List UInt8)) (db : GeoDb) (a : Attempt K) : Prop :=
  (∃ e, a.stat = .error e) ∨ ∃ mtime msg, a.stat = .ok mtime ∧ ¬ db.Unchanged mtime ∧
    (tryRead gunzip db.file a.content).2 = .error msg

end Load

section Enrich

variable {t : AsnTable}

def Known (t : AsnTable) (seen : Dict Units (Option Geo)) : Prop := ∀ ip g, seen.get? ip = some g → g = t.lookup ip

theorem enrichRow_known {s : Dict Units (Option Geo) × List Row} (h : Known t s.1) (r : Row) :
    Known t (enrichRow t s r).1 ∧ (enrichRow t s r).2 = s.2 ++ [r.tag (t.lookup r.ip)] := by
  unfold enrichRow
  split
  · rename_i g hg
    exact ⟨h, by rw [h r.ip g hg]⟩
  · refine ⟨fun ip g hip => ?_, rfl⟩
    by_cases heq : ip = r.ip
    · rw [Dict.get?_insert, if_pos heq] at hip
      rw [heq]
      exact (Option.some.inj hip).symm
    · rw [Dict.get?_insert, if_neg heq] at hip
      exact h ip g hip

theorem enrich_table (db : GeoDb) (ht : db.table = some t) (rows : List Row) :
    db.enrich rows = rows.map fun r => r.tag (t.lookup r.ip) := by
  have hfold : ∀ (rows : List Row) (s : Dict Units (Option Geo) × List Row), Known t s.1 →
      (rows.foldl (enrichRow t) s).2 = s.2 ++ rows.map fun r => r.tag (t.lookup r.ip) := by
    intro rows
    induction rows with
    | nil => exact fun s _ => (List.append_nil s.2).symm
    | cons r rows ih =>
        intro s hs
        obtain ⟨hknown, hrow⟩ := enrichRow_known hs r
        rw [List.foldl_cons, ih _ hknown, hrow, List.append_assoc]
        rfl
  rw [GeoDb.enrich, ht]
  exact hfold rows (.empty, []) fun ip g h => by cases h

end Enrich

section Runs

variable {K : Type} [Field K] [LinearOrder K] [FloorRing K]

/-- A load that is under way is not started again. -/
def GeoDb.reloadIfChanged (db : GeoDb) : GeoDb := if db.loading then db else { db with loading := true }

def GeoDb.settle (gunzip : List UInt8 → Except String (List UInt8)) (db : GeoDb) (a : Attempt K) : GeoDb :=
  { (db.load gunzip a).1 with loading := false }

inductive Event (K : Type)
  | reload
  | settled (a : Attempt K)

/-- A database and the modification time at the last load that gave a table. -/
structure Traced (K : Type) where
  db : GeoDb
  last : Option K

def loads? (gunzip : List UInt8 → Except String (List UInt8)) (db : GeoDb) (a : Attempt K) : Option K :=
  match a.stat with
  | .error _ => none
  | .ok mtime => if db.Unchanged mtime then none else ((tryRead gunzip db.file a.content).2.toOption).map fun _ => mtime

def step (gunzip : List UInt8 → Except String (List UInt8)) (s : Traced K) : Event K → Option (Traced K)
  | .reload => some { s with db := s.db.reloadIfChanged }
  | .settled a => if s.db.loading then some ⟨s.db.settle gunzip a, (loads? gunzip s.db a).or s.last⟩ else none

def start (file : String) : Traced K := ⟨⟨file, none, none, none, false⟩, none⟩

def Effect.Reads : Effect → Prop
  | .readFile _ | .parseTable _ => True
  | .info _ _ _ | .warn _ => False

/-- A load of the file that is loaded reads nothing and leaves no error; a failed load keeps the
table and its date; a load that gives a table makes it the one of every lookup. -/
def Truthful (gunzip : List UInt8 → Except String (List UInt8)) (s : Traced K) (a : Attempt K) : Prop :=
  (∀ mtime, a.stat = .ok mtime → s.last = some mtime →
    (∀ e ∈ (s.db.load gunzip a).2, ¬ e.Reads) ∧ (s.db.load gunzip a).1.status.error = none) ∧
  (s.db.Fails gunzip a →
    (s.db.load gunzip a).1.table = s.db.table ∧ (s.db.load gunzip a).1.status.fileDate = s.db.status.fileDate) ∧
  ∀ mtime t, s.db.Loads gunzip a mtime t → (∀ ip, (s.db.load gunzip a).1.lookup ip = t.lookup ip) ∧
    (∀ ip, (s.db.load gunzip a).1.lookupParsed ip = t.lookupParsed ip) ∧
    ∀ rows, (s.db.load gunzip a).1.enrich rows = rows.map fun r => r.tag (t.lookup r.ip)

variable {gunzip : List UInt8 → Except String (List UInt8)} {db : GeoDb} {a : Attempt K} {mtime : K} {t : AsnTable}
  {s : Traced K} {file : String} {es : List (Event K)}

theorem readFile_mem (content : Except String (List UInt8)) : .readFile file ∈ (tryRead gunzip file content).1 := by
  unfold tryRead
  split
  · exact List.mem_cons_self
  · split <;> exact List.mem_cons_self

theorem load_unchanged (ha : a.stat = .ok mtime) (hm : db.Unchanged mtime) : db.load gunzip a = (db, []) := by
  rw [GeoDb.load, ha]
  exact if_pos hm

theorem load_read (ha : a.stat = .ok mtime) (hm : ¬ db.Unchanged mtime) : db.load gunzip a =
    match tryRead gunzip db.file a.content with
    | (effects, .ok (table, skipped)) =>
        ({ db with table := some table, fileDate := some (mathRound mtime), error := none },
          effects ++ [.info "geo: IP → ASN table loaded" table.size skipped])
    | (effects, .error msg) => ({ db with error := some msg }, effects ++ [.warn "geo: could not load the IP → ASN table"]) := by
  rw [GeoDb.load, ha]
  exact if_neg hm

theorem reads_changed (ha : a.stat = .ok mtime) (hm : ¬ db.Unchanged mtime) : .readFile db.file ∈ (db.load gunzip a).2 := by
  have hmem : .readFile db.file ∈ (tryRead gunzip db.file a.content).1 := readFile_mem a.content
  rw [load_read ha hm]
  split
  · rename_i heq
    rw [heq] at hmem
    exact List.mem_append_left _ hmem
  · rename_i heq
    rw [heq] at hmem
    exact List.mem_append_left _ hmem

theorem load_fails (h : db.Fails gunzip a) : ∃ msg, (db.load gunzip a).1 = { db with error := some msg } := by
  obtain ⟨e, he⟩ | ⟨mtime, msg, ha, hm, hread⟩ := h
  · rw [GeoDb.load, he]
    exact ⟨_, rfl⟩
  · rw [load_read ha hm]
    split
    · rename_i heq
      rw [heq] at hread
      cases hread
    · exact ⟨_, rfl⟩

theorem load_loads (h : db.Loads gunzip a mtime t) :
    (db.load gunzip a).1 = { db with table := some t, fileDate := some (mathRound mtime), error := none } := by
  obtain ⟨ha, hm, skipped, hread⟩ := h
  rw [load_read ha hm]
  split
  · rename_i heq
    rw [heq] at hread
    cases hread
    rfl
  · rename_i heq
    rw [heq] at hread
    cases hread

omit [FloorRing K] in
theorem load_cases (gunzip : List UInt8 → Except String (List UInt8)) (db : GeoDb) (a : Attempt K) :
    db.Fails gunzip a ∨ (∃ mtime, a.stat = .ok mtime ∧ db.Unchanged mtime) ∨ ∃ mtime t, db.Loads gunzip a mtime t := by
  cases ha : a.stat with
  | error e => exact .inl (.inl ⟨e, ha⟩)
  | ok mtime =>
      by_cases hm : db.Unchanged mtime
      · exact .inr (.inl ⟨mtime, rfl, hm⟩)
      · cases hread : (tryRead gunzip db.file a.content).2 with
        | error msg => exact .inl (.inr ⟨mtime, msg, ha, hm, hread⟩)
        | ok r => exact .inr (.inr ⟨mtime, r.1, ha, hm, r.2, hread⟩)

omit [FloorRing K] in
theorem loads?_loads (h : db.Loads gunzip a mtime t) : loads? gunzip db a = some mtime := by
  obtain ⟨ha, hm, skipped, hread⟩ := h
  rw [loads?, ha]
  exact (if_neg hm).trans (by rw [hread]; rfl)

omit [FloorRing K] in
theorem loads?_unchanged (ha : a.stat = .ok mtime) (hm : db.Unchanged mtime) : loads? gunzip db a = none := by
  rw [loads?, ha]
  exact if_pos hm

omit [FloorRing K] in
theorem loads?_fails (h : db.Fails gunzip a) : loads? gunzip db a = none := by
  obtain ⟨e, he⟩ | ⟨mtime, msg, ha, hm, hread⟩ := h
  · rw [loads?, he]
  · rw [loads?, ha]
    exact (if_neg hm).trans (by rw [hread]; rfl)

/-- The date of the table is the rounded time at which it was loaded. -/
structure Dated (s : Traced K) : Prop where
  table : s.db.table.isSome = s.last.isSome
  date : s.db.fileDate = s.last.map mathRound

theorem settle_dated (h : Dated s) (a : Attempt K) : Dated ⟨s.db.settle gunzip a, (loads? gunzip s.db a).or s.last⟩ := by
  obtain hfails | ⟨mtime, ha, hm⟩ | ⟨mtime, t, hloads⟩ := load_cases gunzip s.db a
  · obtain ⟨msg, hload⟩ := load_fails hfails
    rw [GeoDb.settle, hload, loads?_fails hfails]
    exact ⟨h.table, h.date⟩
  · rw [GeoDb.settle, load_unchanged ha hm, loads?_unchanged ha hm]
    exact ⟨h.table, h.date⟩
  · rw [GeoDb.settle, load_loads hloads, loads?_loads hloads]
    exact ⟨rfl, rfl⟩

theorem step_dated (h : Dated s) {e : Event K} {s' : Traced K} (hs : step gunzip s e = some s') : Dated s' := by
  cases e with
  | reload =>
      cases hs
      unfold GeoDb.reloadIfChanged
      split <;> exact ⟨h.table, h.date⟩
  | settled a =>
      obtain ⟨-, heq⟩ := Option.ite_none_right_eq_some.mp hs
      cases heq
      exact settle_dated h a

theorem run_dated (hrun : Run (step gunzip) Free (start file) es s) : Dated s :=
  hrun.invariant ⟨rfl, rfl⟩ fun _ _ _ h _ hs => step_dated h hs

variable [IsStrictOrderedRing K]

/-- A time is compared with itself only when it is a whole number. -/
theorem unchanged_iff (h : Dated s) (hlast : s.last = some mtime) : s.db.Unchanged mtime ↔ ∃ z : ℤ, (z : K) = mtime := by
  have htable : s.db.table.isSome = true := by rw [h.table, hlast, Option.isSome_some]
  rw [GeoDb.Unchanged, h.date, hlast, Option.map_some, Option.map_some, Option.some.injEq]
  constructor
  · intro hm
    exact ⟨_, hm.2⟩
  · rintro ⟨z, rfl⟩
    refine ⟨htable, congrArg Int.cast ?_⟩
    exact mathRound_int z

/-- In every run, the loads behave so except where the file is the one that is loaded and its time
is not a whole number, or the loads since then have left an error. -/
theorem reload_truthful_iff (hrun : Run (step gunzip) Free (start file) es s) (a : Attempt K) : Truthful gunzip s a ↔
    ∀ mtime, a.stat = .ok mtime → s.last = some mtime → (∃ z : ℤ, (z : K) = mtime) ∧ s.db.error = none := by
  have hdated := run_dated hrun
  constructor
  · rintro ⟨hsame, -, -⟩ mtime ha hlast
    obtain ⟨hreads, herror⟩ := hsame mtime ha hlast
    have hm : s.db.Unchanged mtime := by
      by_contra hm
      exact hreads _ (reads_changed ha hm) trivial
    rw [load_unchanged ha hm] at herror
    exact ⟨(unchanged_iff hdated hlast).mp hm, herror⟩
  · intro hcond
    refine ⟨fun mtime ha hlast => ?_, fun hfails => ?_, fun mtime t hloads => ?_⟩
    · obtain ⟨hwhole, herror⟩ := hcond mtime ha hlast
      rw [load_unchanged ha ((unchanged_iff hdated hlast).mpr hwhole)]
      exact ⟨fun e he => absurd he List.not_mem_nil, herror⟩
    · obtain ⟨msg, hload⟩ := load_fails hfails
      rw [hload]
      exact ⟨rfl, rfl⟩
    · rw [load_loads hloads]
      exact ⟨fun _ => rfl, fun _ => rfl, fun rows => enrich_table _ rfl rows⟩

end Runs

section Sample

def sampleFile : List UInt8 := "1.0.0.0\t1.0.0.255\t1\tAU\tONE\n".toList.map fun c => c.toNat.toUInt8

def dated (mtime : ℚ) : Attempt ℚ := ⟨.ok mtime, .ok sampleFile⟩

def noGunzip (_ : List UInt8) : Except String (List UInt8) := .error "incorrect header check"

def again (mtime : ℚ) : Traced ℚ :=
  let db := (start "t.tsv" : Traced ℚ).db.reloadIfChanged
  ⟨(db.settle noGunzip (dated mtime)).reloadIfChanged, (loads? noGunzip db (dated mtime)).or none⟩

theorem run_again (mtime : ℚ) : Run (step noGunzip) Free (start "t.tsv") [.reload, .settled (dated mtime), .reload] (again mtime) :=
  .cons trivial rfl (.cons trivial rfl (.cons trivial rfl (.nil _)))

/-- The same file is not read again when its time is a whole number. -/
theorem reload_truthful_whole : Truthful noGunzip (again 1700000000000) (dated 1700000000000) ∧
    (again 1700000000000).last = some 1700000000000 := by
  refine ⟨(reload_truthful_iff (run_again _) _).mpr fun mtime hm _ => ⟨?_, ?_⟩, by decide +kernel⟩
  · cases hm
    exact ⟨1700000000000, by norm_num⟩
  · decide +kernel

/-- With half a millisecond, the same file is read at each load. -/
theorem fraction_reads_again : ¬ ∀ (es : List (Event ℚ)) (s : Traced ℚ) (a : Attempt ℚ),
    Run (step noGunzip) Free (start "t.tsv") es s → Truthful noGunzip s a := by
  intro h
  obtain ⟨hsame, -, -⟩ := h _ _ (dated (1700000000000 + 1 / 2)) (run_again (1700000000000 + 1 / 2))
  have hlast : (again (1700000000000 + 1 / 2)).last = some (1700000000000 + 1 / 2) := by decide +kernel
  obtain ⟨hreads, -⟩ := hsame _ rfl hlast
  have hread : .readFile "t.tsv" ∈ ((again (1700000000000 + 1 / 2)).db.load noGunzip (dated (1700000000000 + 1 / 2))).2 := by
    decide +kernel
  exact hreads _ hread trivial

end Sample

end NetWatch.GeoIp.Reload
