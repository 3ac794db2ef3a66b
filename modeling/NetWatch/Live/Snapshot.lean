import Mathlib.Algebra.Order.Ring.Unbundled.Rat
import NetWatch.Lib.JsValue
import NetWatch.Live.Recovery

namespace NetWatch.Live.Snapshot

open Hub Reader ReaderInvariant Turns Recovery Lib.JsValue Lib.Timeline

/-- A snapshot that `parseSnapshot` lets pass, with the fields that are read. -/
structure LiveSnapshot where
  tsMs : Lib.JsValue.Num
  intervalMs : Option Json
  processes : List Json
  flows : List Json

/-- What the code leaves to the language: `JSON.parse` with the reviver
`keepStartNs`, which value is greater than zero, and whether the time between two
snapshots exceeds their intervals. -/
structure Js where
  parse : Units → Option Json
  positive : Json → Bool
  far : LiveSnapshot → LiveSnapshot → Bool

mutual

/-- Whether a parsed value converts to a text or a number. A field `toString` of an
object hides the method of that name and cannot be called, and an array converts its
elements. -/
def primitive : Json → Bool
  | .obj fields => fields.all fun x => x.1 ≠ units "toString"
  | .arr xs => primitives xs
  | _ => true

def primitives : List Json → Bool
  | [] => true
  | x :: xs => primitive x && primitives xs

end

def isNull : Json → Bool
  | .null => true
  | _ => false

/-- An absent field converts as well. -/
def converts (j : Json) (name : String) : Bool := (j.get? (units name)).all primitive

variable (js : Js)

def parseSnapshot (json : Units) : Option LiveSnapshot :=
  match js.parse json with
  | none => none
  | some snap =>
      match snap.get? (units "ts_ms"), snap.get? (units "processes"), snap.get? (units "flows") with
      | some (.num tsMs), some (.arr processes), some (.arr flows) =>
          some ⟨tsMs, snap.get? (units "interval_ms"), processes, flows⟩
      | _, _, _ => none

/-- Whether the loop over the processes gets past one of them. Its id is made only if
it has traffic. -/
def processReturns (p : Json) : Bool :=
  let busy := (p.get? (units "tx_kbps")).any js.positive || (p.get? (units "rx_kbps")).any js.positive
  !isNull p && converts p "tx_kbps" && converts p "rx_kbps" && (!busy || converts p "pid" && converts p "start_ns")

def flowReturns (f : Json) : Bool := !isNull f && converts f "app" && converts f "tx_kbps" && converts f "rx_kbps"

/-- Whether `compactTick` returns. The object it sums the apps in is taken to inherit
nothing that an app could be named after. -/
def compactTickReturns (s : LiveSnapshot) : Bool := s.processes.all (processReturns js) && s.flows.all flowReturns

def decode (json : Option Units) : Decoded LiveSnapshot :=
  match parseSnapshot js (json.getD []) with
  | none => .unparsable
  | some s => if compactTickReturns js s then .snap s else .broken

def format : Format (Option Units) LiveSnapshot Lib.JsValue.Num (List Json) where
  decode := decode js
  ts := LiveSnapshot.tsMs
  converts s := s.intervalMs.all primitive
  far := js.far
  flows := LiveSnapshot.flows

variable {js}

theorem decode_ne_broken {json : Option Units} :
    (format js).decode json ≠ .broken ↔
      ∀ s, parseSnapshot js (json.getD []) = some s → compactTickReturns js s = true := by
  change decode js json ≠ .broken ↔ _
  rw [decode]
  cases parseSnapshot js (json.getD []) with
  | none => simp
  | some s => cases hret : compactTickReturns js s <;> simp [hret]

/-- The hub keeps up with its stream just when no entry of its backfill parses and
then makes `compactTick` throw, and no interval that does not convert is compared. -/
theorem keeps_up_iff (js : Js) (cap : Capacity) (throws : Nat → Reader.Tick LiveSnapshot → Bool)
    (old more : List (Entry (Option Units))) (hs : Sorted (old ++ more)) (hpos : ∀ e ∈ old ++ more, zeroId < e.id) :
    KeepsUp (format js) cap throws old more ↔
      (∀ e ∈ latest cap.val old, ∀ s, parseSnapshot js (e.message.getD []) = some s → compactTickReturns js s = true) ∧
        Clean (format js) ((latest cap.val old ++ more).map Entry.message) := by
  rw [keepsUp_iff throws hs hpos]
  simp only [decode_ne_broken]

def sampleText (processes : String) : Units :=
  units "\x7b\"ts_ms\":1,\"interval_ms\":1000,\"processes\":[" ++ units processes ++ units "],\"flows\":[]\x7d"

def sampleValue (processes : List Json) : Json :=
  .obj [(units "ts_ms", .num (1 : ℚ)), (units "interval_ms", .num (1000 : ℚ)), (units "processes", .arr processes),
    (units "flows", .arr [])]

def sampleJs : Js where
  parse json :=
    if json = sampleText "" then some (sampleValue [])
    else if json = sampleText "null" then some (sampleValue [.null])
    else none
  positive _ := false
  far _ _ := false

def sampleCap : Capacity := ⟨3600, by decide, by decide⟩

def goodEntry (id : Nat) : Entry (Option Units) := ⟨toLex (id, 0), some (sampleText "")⟩

def badEntry (id : Nat) : Entry (Option Units) := ⟨toLex (id, 0), some (sampleText "null")⟩

theorem sampleGood : parseSnapshot sampleJs (sampleText "") = some ⟨(1 : ℚ), some (.num (1000 : ℚ)), [], []⟩ := rfl

/-- An entry that does not compact is skipped when it comes after the backfill. -/
theorem keeps_up_sample :
    Sorted ([goodEntry 1] ++ [badEntry 2]) ∧ KeepsUp (format sampleJs) sampleCap (fun _ _ => false) [goodEntry 1] [badEntry 2] := by
  have hs : Sorted ([goodEntry 1] ++ [badEntry 2]) := by decide
  have hpos : ∀ e ∈ [goodEntry 1] ++ [badEntry 2], zeroId < e.id := by decide
  have hlatest : latest sampleCap.val [goodEntry 1] = [goodEntry 1] := rfl
  refine ⟨hs, (keeps_up_iff sampleJs sampleCap _ _ _ hs hpos).mpr ⟨?_, .inl ?_⟩⟩
  · rw [hlatest]
    intro e he s hparse
    rw [List.mem_singleton.mp he] at hparse
    obtain rfl := Option.some.inj (sampleGood.symm.trans hparse)
    rfl
  · rw [hlatest]
    exact le_of_eq rfl

/-- With a null among the processes of its only entry, the backfill is tried for ever. -/
theorem backfill_never_ends :
    ¬ KeepsUp (format sampleJs) sampleCap (fun _ _ => false) [badEntry 1] [] ∧
      ∀ n, ((turn (format sampleJs) sampleCap fun _ _ => false)^[n] (holding [badEntry 1])).hub.lastId = none := by
  have hs : Sorted [badEntry 1] := by decide
  have hb : (format sampleJs).decode (badEntry 1).message = .broken := rfl
  have hnone : ∀ n, ((turn (format sampleJs) sampleCap fun _ _ => false)^[n] (holding [badEntry 1])).hub.lastId = none :=
    fun n => (stuck _ hs List.mem_cons_self hb n).lastId
  refine ⟨?_, hnone⟩
  rintro ⟨N, hN⟩
  exact absurd ((hN N le_rfl).1.symm.trans (hnone N)) nofun

end NetWatch.Live.Snapshot
