import Mathlib.Data.List.Induction
import NetWatch.Storage.Delete

namespace NetWatch.Storage.Guarded

open Lib.JsValue Lib.Runs Delete

variable {cfg : Config} {s t : Server} {r r' : Request} {rs : List Request} {i : Nat}

def wrong (r : Request) : Bool := r.stage = refuse wrongPassword

def wrongTimes (rs : List Request) : List Int := (rs.filter wrong).map Request.now

def failures (earlier : List Request) (r : Request) : List Int := recent r.now (wrongTimes earlier)

def Matched (cfg : Config) (r : Request) : Prop :=
  ∃ password, field r.body "password" = some (.str password) ∧ cfg.passwordMatches password = true

/-- A partition id that has the form of the ids of its table and is in a list of
partitions. -/
def Droppable (parts : List PartRow) (table key : Units) : Prop :=
  (table = units "flows" ∧ isDay key = true ∨ table = units "flows_1m" ∧ isMonth key = true) ∧
    ⟨table, key⟩ ∈ parts

structure Names (r : Request) (table : Units) (keys : List Units) : Prop where
  table : field r.body "table" = some (.str table)
  keys : field r.body "keys" = some (.arr (keys.map .str))

/-- The request asked for the partition, and read a list of partitions that has
all it asked for. -/
def DropAllowed (r : Request) (table key : Units) : Prop :=
  ∃ keys parts, Names r table keys ∧ r.existing = some parts ∧ key ∈ keys ∧ ∀ k ∈ keys, Droppable parts table k

def Granted (cfg : Config) (earlier : List Request) (r : Request) : Prop :=
  Matched cfg r ∧ (failures earlier r).length < maxFails

def Allowed (cfg : Config) (earlier : List Request) (r : Request) : Deletion → Prop
  | .partition table key => Granted cfg earlier r ∧ DropAllowed r table key
  | .endedDays _ _ => Granted cfg earlier r

/-- What a request that waits has behind it. -/
def Waits (r : Request) : Stage → Prop
  | .answered _ => True
  | .listing table keys =>
      r.existing = none ∧ (∃ spec, specOf table = some spec ∧ spec.deletable) ∧
        ∃ asked, Names r table asked ∧ ∀ k, k ∈ asked ↔ k ∈ keys
  | .dropping table left _ => ∀ k ∈ left, DropAllowed r table k
  | .ending _ _ => True

theorem flows_or_flows_1m {table : Units} {spec : Spec} (h : specOf table = some spec) (hd : spec.deletable) :
    table = units "flows" ∧ spec.id = isDay ∨ table = units "flows_1m" ∧ spec.id = isMonth := by
  obtain ⟨⟨name, found⟩, hfind, rfl⟩ := Option.map_eq_some_iff.mp h
  have hname : name = table := by simpa using List.find?_some hfind
  subst hname
  have hmem := List.mem_of_find?_eq_some hfind
  simp only [tables, List.mem_cons, List.not_mem_nil, or_false, Prod.mk.injEq] at hmem
  rcases hmem with ⟨rfl, rfl⟩ | ⟨rfl, rfl⟩ | ⟨rfl, rfl⟩
  · exact .inl ⟨rfl, rfl⟩
  · exact .inr ⟨rfl, rfl⟩
  · cases hd

theorem droppable_of_accepts {table key : Units} {spec : Spec} {parts : List PartRow}
    (h : specOf table = some spec) (hd : spec.deletable) (ha : accepts spec parts table key = true) :
    Droppable parts table key := by
  rw [accepts, Bool.and_eq_true, List.any_filter, List.any_eq_true] at ha
  obtain ⟨hid, ⟨table', partition⟩, hmem, heq⟩ := ha
  simp only [Bool.and_eq_true, decide_eq_true_eq] at heq
  obtain ⟨rfl, rfl⟩ := heq
  refine ⟨?_, hmem⟩
  rcases flows_or_flows_1m h hd with ⟨ht, hspec⟩ | ⟨ht, hspec⟩
  · exact .inl ⟨ht, hspec ▸ hid⟩
  · exact .inr ⟨ht, hspec ▸ hid⟩

theorem keysParam_names {body : Option Json} {keys : List Units} (h : keysParam body = some keys) :
    ∃ asked : List Units, field body "keys" = some (.arr (asked.map .str)) ∧ ∀ k, k ∈ asked ↔ k ∈ keys := by
  obtain ⟨asked, hasked, hkeys⟩ := Option.bind_eq_some_iff.mp h
  obtain ⟨j, hj, hstrings⟩ := Option.bind_eq_some_iff.mp hasked
  split at hkeys
  · cases hkeys
  · cases hkeys
    rw [hj, Json.strings?_eq_some hstrings]
    exact ⟨asked, rfl, fun k => List.mem_eraseDups.symm⟩

theorem begin_waits (cfg : Config) (ready : Bool) (r : Request) (hr : r.existing = none) :
    begin cfg ready r.body ≠ refuse wrongPassword ∧ Waits r (begin cfg ready r.body) := by
  have hrefuse : ∀ e : HttpError, e.statusCode ≠ 403 → refuse e ≠ refuse wrongPassword ∧ Waits r (refuse e) := by
    intro e he
    refine ⟨fun h => he ?_, trivial⟩
    cases h
    rfl
  rw [begin]
  split
  · exact hrefuse _ (by decide)
  · cases hkeys : keysParam r.body with
    | none => exact hrefuse _ (by decide)
    | some keys =>
        obtain ⟨asked, hasked, hsub⟩ := keysParam_names hkeys
        dsimp only
        split
        · cases htable : (field r.body "table").bind Json.str? with
          | none => exact hrefuse _ (by decide)
          | some table =>
              obtain ⟨j, hj, hstr⟩ := Option.bind_eq_some_iff.mp htable
              rw [Json.str?_eq_some hstr] at hj
              dsimp only
              rw [startDrop]
              cases hspec : specOf table with
              | none => exact hrefuse _ (show 400 ≠ 403 by decide)
              | some spec =>
                  dsimp only
                  split
                  case isTrue hd => exact ⟨nofun, hr, ⟨spec, hspec, hd⟩, asked, ⟨hj, hasked⟩, hsub⟩
                  case isFalse => exact hrefuse _ (show 400 ≠ 403 by decide)
        · rw [startEnding]
          split
          · exact hrefuse _ (by decide)
          · split
            · exact hrefuse _ (by decide)
            · split
              · exact ⟨nofun, trivial⟩
              case h_2 e he =>
                apply hrefuse e
                rw [timezoneParam] at he
                split at he
                · cases he; decide
                · split at he
                  · cases he; decide
                  · split at he
                    · cases he
                    · cases he; decide

/-- What a call of the endpoint can do before its first wait. -/
theorem storageDelete_cases (cfg : Config) (ready : Bool) (fails : List Int) (now : Int) (body : Option Json) :
    let v := storageDelete cfg ready fails now body
    (cfg.storageAdminPassword = [] ∧ v = ⟨fails, false, refuse disabled⟩) ∨
    (maxFails ≤ (recent now fails).length ∧ v = ⟨recent now fails, false, refuse tooMany⟩) ∨
    ((recent now fails).length < maxFails ∧ v.fails = recent now fails ++ [now] ∧ v.stage = refuse wrongPassword) ∨
    ((recent now fails).length < maxFails ∧ v.fails = recent now fails ∧ v.stage = begin cfg ready body ∧
      ∃ password, field body "password" = some (.str password) ∧ cfg.passwordMatches password = true) := by
  dsimp only
  rw [storageDelete]
  split
  case isTrue h => exact .inl ⟨h, rfl⟩
  case isFalse =>
    split
    case isTrue h => exact .inr (.inl ⟨h, rfl⟩)
    case isFalse h =>
      cases hp : (field body "password").bind Json.str? with
      | none => exact .inr (.inr (.inl ⟨by omega, rfl, rfl⟩))
      | some password =>
          obtain ⟨j, hj, hstr⟩ := Option.bind_eq_some_iff.mp hp
          rw [Json.str?_eq_some hstr] at hj
          dsimp only
          split
          case isTrue hm => exact .inr (.inr (.inr ⟨by omega, rfl, rfl, password, hj, hm⟩))
          case isFalse => exact .inr (.inr (.inl ⟨by omega, rfl, rfl⟩))

structure Judged (cfg : Config) (earlier : List Request) (r : Request) : Prop where
  limited : maxFails ≤ (failures earlier r).length → r.stage = refuse tooMany ∧ r.compared = false
  granted : (∀ a, r.stage ≠ .answered a) → Granted cfg earlier r
  waits : Waits r r.stage

structure Sound (cfg : Config) (s : Server) : Prop where
  fails : ∀ now, (∀ r ∈ s.requests, r.now ≤ now) → recent now s.fails = recent now (wrongTimes s.requests)
  off : cfg.storageAdminPassword = [] → s.fails = []
  judged : ∀ i r, s.requests[i]? = some r → Judged cfg (s.requests.take i) r
  sent : ∀ i d, (i, d) ∈ s.sent → ∃ r, s.requests[i]? = some r ∧ Allowed cfg (s.requests.take i) r d

theorem sound_start (cfg : Config) : Sound cfg .start :=
  ⟨fun _ _ => rfl, fun _ => rfl, nofun, nofun⟩

theorem wrongTimes_append (rs : List Request) (r : Request) :
    wrongTimes (rs ++ [r]) = if wrong r then wrongTimes rs ++ [r.now] else wrongTimes rs := by
  rw [wrongTimes, List.filter_append, List.map_append]
  cases h : wrong r with
  | true => simp [h, wrongTimes]
  | false => simp [h, wrongTimes]

theorem recent_recent {now later : Int} (h : now ≤ later) (ts : List Int) :
    recent later (recent now ts) = recent later ts := by
  rw [recent, recent, List.filter_filter]
  apply List.filter_congr
  intro t _
  simp only [Bool.and_eq_decide, decide_eq_true_eq, decide_eq_decide]
  constructor
  · exact fun h => h.1
  · intro ht
    exact ⟨ht, by omega⟩

theorem recent_append (now : Int) (ts us : List Int) : recent now (ts ++ us) = recent now ts ++ recent now us :=
  List.filter_append ts us

theorem issued_allowed {earlier : List Request} {d : Deletion} {j : Nat} (hg : Granted cfg earlier r)
    (hw : Waits r r.stage) (h : (j, d) ∈ issued i r.stage) : j = i ∧ Allowed cfg earlier r d := by
  cases hs : r.stage with
  | answered a => rw [hs] at h; cases h
  | listing table keys => rw [hs] at h; cases h
  | ending tz days =>
      rw [hs, issued, List.mem_singleton, Prod.mk.injEq] at h
      obtain ⟨rfl, rfl⟩ := h
      exact ⟨rfl, hg⟩
  | dropping table left count =>
      rw [hs] at h hw
      cases left with
      | nil => cases h
      | cons k left =>
          rw [issued, List.mem_singleton, Prod.mk.injEq] at h
          obtain ⟨rfl, rfl⟩ := h
          exact ⟨rfl, hg, hw k List.mem_cons_self⟩

theorem answered_of_issued {j : Nat} {d : Deletion} {st : Stage} (h : (j, d) ∈ issued i st) :
    ∀ a, st ≠ .answered a := by
  rintro a rfl
  cases h

theorem judged_post (hs : Sound cfg s) {now : Int} (hnow : ∀ r ∈ s.requests, r.now ≤ now) (body : Option Json)
    (ready : Bool) (v : Verdict) (hv : storageDelete cfg ready s.fails now body = v) :
    Judged cfg s.requests ⟨now, body, v.compared, none, v.stage⟩ := by
  have hfails : ∀ c st, failures s.requests ⟨now, body, c, none, st⟩ = recent now s.fails :=
    fun _ _ => (hs.fails now hnow).symm
  have hcases := storageDelete_cases cfg ready s.fails now body
  rw [hv] at hcases
  rcases hcases with ⟨hp, rfl⟩ | ⟨hn, rfl⟩ | ⟨hn, -, hw⟩ | ⟨hn, -, hw, hm⟩
  · refine ⟨fun h => ?_, fun h => absurd rfl (h _), trivial⟩
    rw [hfails, hs.off hp] at h
    cases h
  · exact ⟨fun _ => ⟨rfl, rfl⟩, fun h => absurd rfl (h _), trivial⟩
  · refine ⟨fun h => ?_, fun h => absurd hw (h _), ?_⟩
    · rw [hfails] at h
      omega
    · rw [hw]
      trivial
  · refine ⟨fun h => ?_, fun _ => ⟨hm, ?_⟩, ?_⟩
    · rw [hfails] at h
      omega
    · rwa [hfails]
    · rw [hw]
      exact (begin_waits cfg ready ⟨now, body, v.compared, none, _⟩ rfl).2

theorem fails_post (hs : Sound cfg s) {now : Int} (hnow : ∀ r ∈ s.requests, r.now ≤ now) (body : Option Json)
    (ready : Bool) (v : Verdict) (hv : storageDelete cfg ready s.fails now body = v) {later : Int} (hl : now ≤ later) :
    recent later v.fails = recent later (wrongTimes (s.requests ++ [⟨now, body, v.compared, none, v.stage⟩])) := by
  have hold : recent later s.fails = recent later (wrongTimes s.requests) :=
    hs.fails later fun r hr => (hnow r hr).trans hl
  have hcases := storageDelete_cases cfg ready s.fails now body
  rw [hv] at hcases
  rw [wrongTimes_append]
  rcases hcases with ⟨-, rfl⟩ | ⟨-, rfl⟩ | ⟨-, hf, hw⟩ | ⟨-, hf, hw, -⟩
  · exact hold
  · exact (recent_recent hl _).trans hold
  · rw [if_pos (by simp [wrong, hw]), hf, recent_append, recent_append, recent_recent hl, hold]
  · have hne : wrong ⟨now, body, v.compared, none, v.stage⟩ = false := by
      have := (begin_waits cfg ready ⟨now, body, v.compared, none, v.stage⟩ rfl).1
      rw [wrong, hw]
      exact decide_eq_false this
    rw [hne, hf]
    exact (recent_recent hl _).trans hold

theorem getElem?_snoc {α : Type} {xs : List α} {x y : α} {i : Nat} (h : (xs ++ [x])[i]? = some y) :
    xs[i]? = some y ∧ (xs ++ [x]).take i = xs.take i ∨ i = xs.length ∧ y = x := by
  rw [List.getElem?_append] at h
  split at h
  case isTrue hi => exact .inl ⟨h, List.take_append_of_le_length (Nat.le_of_lt hi)⟩
  case isFalse hi =>
    rw [List.getElem?_singleton] at h
    split at h
    case isTrue hz => exact .inr ⟨by omega, (Option.some.inj h).symm⟩
    case isFalse => cases h

theorem getElem?_snoc_of {α : Type} {xs : List α} {x y : α} {i : Nat} (h : xs[i]? = some y) :
    (xs ++ [x])[i]? = some y ∧ (xs ++ [x]).take i = xs.take i := by
  have hi := (List.getElem?_eq_some_iff.mp h).1
  exact ⟨by rwa [List.getElem?_append_left hi], List.take_append_of_le_length (Nat.le_of_lt hi)⟩

theorem sound_post (hs : Sound cfg s) {now : Int} (hnow : ∀ r ∈ s.requests, r.now ≤ now) (body : Option Json)
    (ready : Bool) (h : s.step cfg (.post now body ready) = some t) : Sound cfg t := by
  obtain ⟨v, hv⟩ : ∃ v, storageDelete cfg ready s.fails now body = v := ⟨_, rfl⟩
  have hjudged := judged_post hs hnow body ready v hv
  simp only [Server.step, hv, Option.some.injEq] at h
  subst h
  refine ⟨?_, ?_, ?_, ?_⟩
  · intro later hl
    refine fails_post hs hnow body ready v hv (hl ⟨now, body, v.compared, none, v.stage⟩ ?_)
    exact List.mem_append_right _ List.mem_cons_self
  · intro hp
    have hoff : v = ⟨s.fails, false, refuse disabled⟩ := by
      rw [← hv, storageDelete, if_pos hp]
    rw [hoff]
    exact hs.off hp
  · intro i r hr
    rcases getElem?_snoc hr with ⟨hold, htake⟩ | ⟨rfl, rfl⟩
    · rw [htake]
      exact hs.judged i r hold
    · rwa [List.take_left']
      rfl
  · intro i d hd
    rcases List.mem_append.mp hd with hd | hd
    · obtain ⟨r, hr, hallowed⟩ := hs.sent i d hd
      obtain ⟨hr', htake⟩ := getElem?_snoc_of (x := ⟨now, body, v.compared, none, v.stage⟩) hr
      exact ⟨r, hr', htake ▸ hallowed⟩
    · have hgranted := hjudged.granted (answered_of_issued hd)
      obtain ⟨rfl, hallowed⟩ := issued_allowed hgranted hjudged.waits hd
      refine ⟨_, List.getElem?_concat_length, ?_⟩
      rwa [List.take_left']
      rfl

/-- A step of a request that waits: it keeps what it came with, and it keeps the
list of partitions once it has read it. -/
structure Moves (r r' : Request) : Prop where
  now : r'.now = r.now
  body : r'.body = r.body
  compared : r'.compared = r.compared
  waiting : ∀ a, r.stage ≠ .answered a
  existing : r.existing = none ∨ r'.existing = r.existing
  notWrong : r'.stage ≠ refuse wrongPassword
  waits : Waits r' r'.stage

theorem wrongTimes_set (hr : rs[i]? = some r) (hm : Moves r r') : wrongTimes (rs.set i r') = wrongTimes rs := by
  have hwrong : wrong r = false := decide_eq_false (hm.waiting _)
  have hwrong' : wrong r' = false := decide_eq_false hm.notWrong
  induction rs generalizing i with
  | nil => rfl
  | cons q rs ih =>
      cases i with
      | zero =>
          cases hr
          simp [wrongTimes, hwrong, hwrong']
      | succ i =>
          have := ih hr
          simp only [wrongTimes] at this ⊢
          rw [List.set_cons_succ, List.filter_cons, List.filter_cons]
          split
          · rw [List.map_cons, List.map_cons, this]
          · exact this

theorem wrongTimes_take_set (hr : rs[i]? = some r) (hm : Moves r r') (j : Nat) :
    wrongTimes ((rs.set i r').take j) = wrongTimes (rs.take j) := by
  rw [List.take_set]
  by_cases hj : i < j
  · exact wrongTimes_set ((List.getElem?_take_of_lt hj).trans hr) hm
  · rw [List.set_eq_of_length_le]
    rw [List.length_take]
    omega

theorem granted_congr {earlier earlier' : List Request} (he : wrongTimes earlier' = wrongTimes earlier)
    (hnow : r'.now = r.now) (hbody : r'.body = r.body) (h : Granted cfg earlier r) : Granted cfg earlier' r' := by
  obtain ⟨⟨p, hp, hmatch⟩, hlt⟩ := h
  refine ⟨⟨p, ?_, hmatch⟩, ?_⟩
  · rwa [hbody]
  · rwa [failures, he, hnow]

theorem dropAllowed_congr {table key : Units} (hbody : r'.body = r.body) (hread : r'.existing = r.existing)
    (h : DropAllowed r table key) : DropAllowed r' table key := by
  obtain ⟨keys, parts, hn, hparts, hdrop⟩ := h
  refine ⟨keys, parts, ⟨?_, ?_⟩, ?_, hdrop⟩
  · rw [hbody]
    exact hn.table
  · rw [hbody]
    exact hn.keys
  · rw [hread, hparts]

theorem allowed_congr {earlier earlier' : List Request} {d : Deletion} (he : wrongTimes earlier' = wrongTimes earlier)
    (hnow : r'.now = r.now) (hbody : r'.body = r.body) (hread : r.existing = none ∨ r'.existing = r.existing)
    (h : Allowed cfg earlier r d) : Allowed cfg earlier' r' d := by
  cases d with
  | endedDays tz days => exact granted_congr he hnow hbody h
  | partition table key =>
      obtain ⟨hg, hdrop⟩ := h
      refine ⟨granted_congr he hnow hbody hg, ?_⟩
      rcases hread with hnone | hsame
      · obtain ⟨keys, parts, -, hparts, -⟩ := hdrop
        rw [hparts] at hnone
        cases hnone
      · exact dropAllowed_congr hbody hsame hdrop

theorem sound_move (hs : Sound cfg s) (hr : s.requests[i]? = some r) (hm : Moves r r') : Sound cfg (s.move i r') := by
  have hi := (List.getElem?_eq_some_iff.mp hr).1
  have htimes := wrongTimes_take_set hr hm
  have hset : (s.requests.set i r')[i]? = some r' := List.getElem?_set_self hi
  have hjudged : Judged cfg ((s.requests.set i r').take i) r' := by
    have hold := hs.judged i r hr
    have hfail : failures ((s.requests.set i r').take i) r' = failures (s.requests.take i) r := by
      rw [failures, failures, htimes, hm.now]
    refine ⟨fun h => ?_, fun _ => ?_, hm.waits⟩
    · rw [hfail] at h
      exact absurd (hold.limited h).1 (hm.waiting _)
    · exact granted_congr (htimes i) hm.now hm.body (hold.granted hm.waiting)
  refine ⟨?_, hs.off, ?_, ?_⟩
  · intro now hnow
    have hfull : wrongTimes (s.requests.set i r') = wrongTimes s.requests := wrongTimes_set hr hm
    refine (hs.fails now fun q hq => ?_).trans (by rw [Server.move, hfull])
    obtain ⟨j, hj⟩ := List.mem_iff_getElem?.mp hq
    by_cases hij : i = j
    · subst hij
      have hqr : q = r := Option.some.inj (hj.symm.trans hr)
      rw [hqr, ← hm.now]
      exact hnow r' (List.mem_of_getElem? hset)
    · exact hnow q (List.mem_of_getElem? ((List.getElem?_set_ne hij).trans hj))
  · intro j q hq
    by_cases hij : i = j
    · subst hij
      have hqr : q = r' := Option.some.inj (hq.symm.trans hset)
      rwa [hqr]
    · obtain ⟨hl, hg, hw⟩ := hs.judged j q ((List.getElem?_set_ne hij).symm.trans hq)
      refine ⟨?_, ?_, hw⟩
      · rwa [failures, Server.move, htimes]
      · exact fun h => granted_congr (htimes j) rfl rfl (hg h)
  · intro j d hd
    rcases List.mem_append.mp hd with hd | hd
    · obtain ⟨q, hq, hallowed⟩ := hs.sent j d hd
      by_cases hij : i = j
      · subst hij
        have hqr : q = r := Option.some.inj (hq.symm.trans hr)
        subst hqr
        exact ⟨r', hset, allowed_congr (htimes i) hm.now hm.body hm.existing hallowed⟩
      · exact ⟨q, (List.getElem?_set_ne hij).trans hq, allowed_congr (htimes j) rfl rfl (.inr rfl) hallowed⟩
    · obtain ⟨rfl, hallowed⟩ := issued_allowed (hjudged.granted (answered_of_issued hd)) hjudged.waits hd
      exact ⟨r', hset, hallowed⟩

theorem refuse_moves {e : HttpError} (hw : ∀ a, r.stage ≠ .answered a) (he : e.statusCode ≠ 403) :
    Moves r { r with stage := refuse e } := by
  refine ⟨rfl, rfl, rfl, hw, .inr rfl, fun h => he ?_, trivial⟩
  cases h
  rfl

theorem dropNext_waits {table : Units} {left : List Units} (count : Nat) (h : ∀ k ∈ left, DropAllowed r table k) :
    dropNext table count left ≠ refuse wrongPassword ∧ Waits r (dropNext table count left) := by
  cases left with
  | nil => exact ⟨nofun, trivial⟩
  | cons k left => exact ⟨nofun, h⟩

theorem checkKeys_moves {table : Units} {keys : List Units} {spec : Spec} (hstage : r.stage = .listing table keys)
    (hw : Waits r r.stage) (hspec : specOf table = some spec) (parts : List PartRow) :
    Moves r { r with existing := some parts, stage := checkKeys spec parts table keys } := by
  rw [hstage] at hw
  obtain ⟨hread, ⟨spec', hspec', hdel⟩, asked, hnames, hasked⟩ := hw
  cases hspec.symm.trans hspec'
  have hwaiting : ∀ a, r.stage ≠ .answered a := by rw [hstage]; nofun
  suffices h : checkKeys spec parts table keys ≠ refuse wrongPassword ∧
      ∀ st, Waits { r with existing := some parts, stage := st } (checkKeys spec parts table keys) from
    ⟨rfl, rfl, rfl, hwaiting, .inl hread, h.1, h.2 _⟩
  rw [checkKeys]
  cases hfind : keys.find? fun k => !accepts spec parts table k with
  | some k => exact ⟨nofun, fun _ => trivial⟩
  | none =>
      have hall : ∀ k ∈ keys, accepts spec parts table k = true := by
        simpa using List.find?_eq_none.mp hfind
      have hdrop : ∀ st, ∀ k ∈ keys, DropAllowed { r with existing := some parts, stage := st } table k := by
        intro st k hk
        refine ⟨asked, parts, ⟨hnames.table, hnames.keys⟩, rfl, (hasked k).mpr hk, fun k' hk' => ?_⟩
        exact droppable_of_accepts hspec hdel (hall k' ((hasked k').mp hk'))
      exact ⟨(dropNext_waits keys.length (hdrop r.stage)).1, fun st => (dropNext_waits keys.length (hdrop st)).2⟩

theorem sound_step {e : Event} (hs : Sound cfg s) (hg : InOrder s e) (h : s.step cfg e = some t) : Sound cfg t := by
  cases e with
  | post now body ready => exact sound_post hs hg body ready h
  | listed i result =>
      obtain ⟨r, hr, hnext⟩ := Option.bind_eq_some_iff.mp h
      clear h
      have hw := (hs.judged i r hr).waits
      split at hnext
      case h_2 => cases hnext
      case h_1 table keys hstage =>
        cases hnext
        apply sound_move hs hr
        cases result with
        | ok parts =>
            have hlisting := hw
            rw [hstage] at hlisting
            obtain ⟨spec, hspec, -⟩ := hlisting.2.1
            simp only [listedStage, hspec]
            exact checkKeys_moves hstage hw hspec parts
        | error f =>
            refine refuse_moves (by rw [hstage]; nofun) ?_
            cases f with
            | timeout => exact show 504 ≠ 403 by decide
            | other message => exact show 502 ≠ 403 by decide
  | dropped i failure =>
      obtain ⟨r, hr, hnext⟩ := Option.bind_eq_some_iff.mp h
      clear h hg
      have hw := (hs.judged i r hr).waits
      split at hnext
      case h_1 table k left count hstage =>
        cases hnext
        rw [hstage] at hw
        have hdrop : ∀ k ∈ left, DropAllowed { r with stage := dropNext table count left } table k := by
          intro k hk
          exact dropAllowed_congr (r := r) rfl rfl (hw k (List.mem_cons_of_mem _ hk))
        obtain ⟨hnot, hwaits⟩ := dropNext_waits count hdrop
        exact sound_move hs hr ⟨rfl, rfl, rfl, by rw [hstage]; nofun, .inr rfl, hnot, hwaits⟩
      case h_2 hstage =>
        cases hnext
        exact sound_move hs hr (refuse_moves (by rw [hstage]; nofun) (show 502 ≠ 403 by decide))
      case h_3 => cases hnext
  | ended i result =>
      obtain ⟨r, hr, hnext⟩ := Option.bind_eq_some_iff.mp h
      clear h hg
      split at hnext
      case h_1 hstage =>
        cases hnext
        exact sound_move hs hr ⟨rfl, rfl, rfl, by rw [hstage]; nofun, .inr rfl, nofun, trivial⟩
      case h_2 hstage =>
        cases hnext
        exact sound_move hs hr ⟨rfl, rfl, rfl, by rw [hstage]; nofun, .inr rfl, nofun, trivial⟩
      case h_3 => cases hnext

/-- Requests each of which was judged by those before it: in a window shorter than
a minute the sixth wrong password would have been refused without looking. -/
theorem wrong_le_maxFails {a b : Int} (hab : b - a < failWindowMs)
    (h : ∀ i r, rs[i]? = some r → Judged cfg (rs.take i) r) :
    ((wrongTimes rs).filter fun t => a ≤ t ∧ t ≤ b).length ≤ maxFails := by
  induction rs using List.reverseRecOn with
  | nil => simp [wrongTimes]
  | append_singleton rs r ih =>
      have hinit := ih fun i q hq => by
        obtain ⟨hq', htake⟩ := getElem?_snoc_of (x := r) hq
        exact htake ▸ h i q hq'
      rw [wrongTimes_append]
      split
      case isFalse => exact hinit
      case isTrue hwrong =>
        rw [List.filter_append, List.length_append]
        by_cases hin : a ≤ r.now ∧ r.now ≤ b
        · have hjudged := h rs.length r List.getElem?_concat_length
          rw [List.take_left' rfl] at hjudged
          have hfew : (failures rs r).length < maxFails := by
            by_contra hmany
            have := (hjudged.limited (by omega)).1
            rw [wrong, this] at hwrong
            exact absurd (of_decide_eq_true hwrong) (by decide)
          have hsub : ((wrongTimes rs).filter fun t => a ≤ t ∧ t ≤ b).length ≤ (failures rs r).length := by
            apply List.Sublist.length_le
            apply List.monotone_filter_right
            intro t ht
            simp only [decide_eq_true_eq] at ht ⊢
            omega
          have hone : ([r.now].filter fun t => a ≤ t ∧ t ≤ b).length ≤ 1 := List.length_filter_le _ _
          omega
        · have hnone : ([r.now].filter fun t => a ≤ t ∧ t ≤ b) = [] := by simp [hin]
          rw [hnone]
          exact hinit

/-- What the endpoint promises over a whole run. Passwords cannot be tried more
than five times in less than a minute, and what is sent to a store was asked for by
a request that knew the password: only partitions of the two flow tables, and only
if every key of the request names one that was there. -/
theorem delete_guarded {es : List Event} (h : Run (Server.step cfg) InOrder .start es s) :
    (∀ a b, b - a < failWindowMs → ((wrongTimes s.requests).filter fun t => a ≤ t ∧ t ≤ b).length ≤ maxFails) ∧
    (∀ i r, s.requests[i]? = some r → maxFails ≤ (failures (s.requests.take i) r).length →
      r.stage = refuse tooMany ∧ r.compared = false) ∧
    (∀ i d, (i, d) ∈ s.sent → ∃ r, s.requests[i]? = some r ∧ Matched cfg r ∧
      (failures (s.requests.take i) r).length < maxFails) ∧
    (∀ i table key, (i, .partition table key) ∈ s.sent → ∃ r, ∃ keys : List Units, ∃ parts, s.requests[i]? = some r ∧
      field r.body "table" = some (.str table) ∧ field r.body "keys" = some (.arr (keys.map .str)) ∧
      r.existing = some parts ∧ key ∈ keys ∧ ∀ k ∈ keys, Droppable parts table k) := by
  have hs : Sound cfg s := h.invariant (sound_start cfg) fun _ _ _ hs hg hstep => sound_step hs hg hstep
  refine ⟨fun a b hab => wrong_le_maxFails hab hs.judged, fun i r hr => (hs.judged i r hr).limited, ?_, ?_⟩
  · intro i d hd
    obtain ⟨r, hr, hallowed⟩ := hs.sent i d hd
    cases d with
    | partition table key => exact ⟨r, hr, hallowed.1⟩
    | endedDays tz days => exact ⟨r, hr, hallowed⟩
  · intro i table key hd
    obtain ⟨r, hr, -, keys, parts, hnames, hparts, hkey, hdrop⟩ := hs.sent i _ hd
    exact ⟨r, keys, parts, hr, hnames.table, hnames.keys, hparts, hkey, hdrop⟩

instance (s : Server) (e : Event) : Decidable (InOrder s e) :=
  match e with
  | .post now _ _ => inferInstanceAs (Decidable (∀ r ∈ s.requests, r.now ≤ now))
  | .listed _ _ => .isTrue trivial
  | .dropped _ _ => .isTrue trivial
  | .ended _ _ => .isTrue trivial

/-- SHA-256 of the two passwords of the sample below. -/
def sampleDigest (given : Units) : List UInt8 :=
  if given = units "s3cret" then
    [30, 193, 194, 107, 80, 213, 211, 197, 141, 149, 131, 24, 26, 248, 7, 102,
      85, 254, 0, 117, 107, 247, 40, 89, 64, 186, 54, 112, 249, 159, 203, 160]
  else
    [241, 171, 225, 176, 131, 209, 45, 24, 26, 225, 54, 207, 199, 91, 141, 24,
      168, 236, 180, 58, 196, 233, 209, 163, 109, 106, 156, 117, 182, 1, 107, 97]

def sampleConfig : Config := ⟨units "s3cret", sampleDigest, fun _ => true⟩

def sampleBody (password : String) : Option Json :=
  some (.obj [(units "store", .str (units "clickhouse")), (units "table", .str (units "flows")),
    (units "keys", .arr [.str (units "2026-07-01")]), (units "password", .str (units password))])

/-- A wrong password, then the right one, and the partition of a day is dropped. -/
def sampleEvents : List Event :=
  [.post 1000 (sampleBody "guess") true, .post 2000 (sampleBody "s3cret") true,
   .listed 1 (.ok [⟨units "flows", units "2026-07-01"⟩]), .dropped 1 none]

theorem delete_guarded_sample : ∃ s, Run (Server.step sampleConfig) InOrder .start sampleEvents s ∧
    wrongTimes s.requests = [1000] ∧ s.sent.length = 1 ∧
    ∀ i d, (i, d) ∈ s.sent → ∃ r, s.requests[i]? = some r ∧ Matched sampleConfig r ∧
      (failures (s.requests.take i) r).length < maxFails := by
  have hruns : ((exec (checked (Server.step sampleConfig) InOrder) .start sampleEvents).map
      fun s => (wrongTimes s.requests, s.sent.length)) = some ([1000], 1) := by decide
  obtain ⟨s, hs, hend⟩ := Option.map_eq_some_iff.mp hruns
  have hrun := Run.of_checked hs
  exact ⟨s, hrun, congrArg Prod.fst hend, congrArg Prod.snd hend, (delete_guarded hrun).2.2.1⟩

end NetWatch.Storage.Guarded
