import NetWatch.Lib.JsValue
import NetWatch.Lib.Runs

namespace NetWatch.Storage.Delete

open Lib.JsValue

def maxKeys : Nat := 400

def maxFails : Nat := 5

def failWindowMs : Int := 60000

structure HttpError where
  statusCode : Nat
  message : Units
deriving DecidableEq

def badRequest (message : Units) : HttpError := ⟨400, message⟩

def digit (u : UInt16) : Bool := 48 ≤ u && u ≤ 57

def isDay : Units → Bool
  | [a, b, c, d, e, f, g, h, i, j] =>
      digit a && digit b && digit c && digit d && e == 45 && digit f && digit g && h == 45 && digit i && digit j
  | _ => false

def isMonth (s : Units) : Bool := s.length == 6 && s.all digit

structure Spec where
  id : Units → Bool
  deletable : Bool

def tables : List (Units × Spec) :=
  [(units "flows", ⟨isDay, true⟩),
   (units "flows_1m", ⟨isMonth, true⟩),
   (units "processes", ⟨fun s => s == units "tuple()", false⟩)]

def specOf (table : Units) : Option Spec := (tables.find? (·.1 = table)).map (·.2)

/-- What the endpoint takes from its surroundings: the password it is configured
with, the hash it compares by and the timezone names the runtime knows. -/
structure Config where
  storageAdminPassword : Units
  digest : Units → List UInt8
  knownZone : Units → Bool

def Config.passwordMatches (cfg : Config) (given : Units) : Bool :=
  cfg.digest given == cfg.digest cfg.storageAdminPassword

inductive Answer
  | deleted (count : Nat) (aofRewrite : Bool)
  | error (e : HttpError)
  | internal (message : Units)
deriving DecidableEq

/-- Where a request stands: it has its answer, or waits for the list of partitions,
for a partition to be dropped (the first of `left`) or for the ended processes. -/
inductive Stage
  | answered (a : Answer)
  | listing (table : Units) (keys : List Units)
  | dropping (table : Units) (left : List Units) (count : Nat)
  | ending (tz : Units) (days : List Units)
deriving DecidableEq

structure PartRow where
  table : Units
  partition : Units
deriving DecidableEq

structure Request where
  now : Int
  body : Option Json
  /-- Whether the password given was compared with the configured one. -/
  compared : Bool
  /-- The partitions `dropPartitions` has read. -/
  existing : Option (List PartRow)
  stage : Stage

inductive Deletion
  | partition (table key : Units)
  | endedDays (tz : Units) (days : List Units)

/-- `fails` is the endpoint's own state. The requests in order of arrival and the
deletions they have sent to a store are the history of the run. -/
structure Server where
  fails : List Int
  requests : List Request
  sent : List (Nat × Deletion)

def Server.start : Server := ⟨[], [], []⟩

def disabled : HttpError :=
  ⟨403, units "deleting is disabled: STORAGE_ADMIN_PASSWORD is not set on the server"⟩

def tooMany : HttpError := ⟨429, units "too many wrong passwords; wait a minute"⟩

def wrongPassword : HttpError := ⟨403, units "wrong password"⟩

def refuse (e : HttpError) : Stage := .answered (.error e)

def field (body : Option Json) (name : String) : Option Json := body.bind fun j => j.get? (units name)

def timezoneParam (cfg : Config) (raw : Option Json) : Except HttpError Units :=
  match raw.bind Json.str? with
  | none => .error (badRequest (units "tz: required"))
  | some tz =>
      if tz = [] then .error (badRequest (units "tz: required"))
      else if cfg.knownZone tz then .ok tz
      else .error (badRequest (units "tz: unknown timezone"))

/-- The keys of a request: 1 to 400 strings, of which the distinct ones are kept. -/
def keysParam (body : Option Json) : Option (List Units) :=
  ((field body "keys").bind Json.strings?).bind fun keys =>
    if keys.length = 0 || keys.length > maxKeys then none else some keys.eraseDups

/-- `dropPartitions` up to where it waits for the list of partitions. -/
def startDrop (table : Units) (keys : List Units) : Stage :=
  match specOf table with
  | some spec =>
      if spec.deletable then .listing table keys
      else refuse (badRequest (units "table: cannot delete from \"" ++ table ++ units "\""))
  | none => refuse (badRequest (units "table: cannot delete from \"" ++ table ++ units "\""))

def startEnding (cfg : Config) (redisReady : Bool) (body : Option Json) (keys : List Units) : Stage :=
  if keys.any fun k => !isDay k then refuse (badRequest (units "keys: days as YYYY-MM-DD"))
  else if !redisReady then refuse ⟨502, units "Redis: not connected"⟩
  else
    match timezoneParam cfg (field body "tz") with
    | .ok tz => .ending tz keys
    | .error e => refuse e

def begin (cfg : Config) (redisReady : Bool) (body : Option Json) : Stage :=
  let store := (field body "store").bind Json.str?
  if store ≠ some (units "clickhouse") ∧ store ≠ some (units "redis") then
    refuse (badRequest (units "store: clickhouse or redis"))
  else
    match keysParam body with
    | none => refuse (badRequest (units "keys: 1 to 400 strings"))
    | some keys =>
        if store = some (units "clickhouse") then
          match (field body "table").bind Json.str? with
          | none => refuse (badRequest (units "table: required"))
          | some table => startDrop table keys
        else startEnding cfg redisReady body keys

def recent (now : Int) (fails : List Int) : List Int := fails.filter fun t => now - t < failWindowMs

structure Verdict where
  fails : List Int
  compared : Bool
  stage : Stage

/-- The endpoint from its call to its first wait. Nothing else runs in between. -/
def storageDelete (cfg : Config) (redisReady : Bool) (fails : List Int) (now : Int) (body : Option Json) : Verdict :=
  if cfg.storageAdminPassword = [] then ⟨fails, false, refuse disabled⟩
  else if maxFails ≤ (recent now fails).length then ⟨recent now fails, false, refuse tooMany⟩
  else
    match (field body "password").bind Json.str? with
    | none => ⟨recent now fails ++ [now], false, refuse wrongPassword⟩
    | some password =>
        if cfg.passwordMatches password then ⟨recent now fails, true, begin cfg redisReady body⟩
        else ⟨recent now fails ++ [now], true, refuse wrongPassword⟩

/-- The loop over the keys that are left, with the next command sent. -/
def dropNext (table : Units) (count : Nat) : List Units → Stage
  | [] => .answered (.deleted count false)
  | left => .dropping table left count

inductive ChFailure
  | timeout
  | other (message : Units)

def ChFailure.error : ChFailure → HttpError
  | .timeout => ⟨504, units "ClickHouse: the query took longer than 20 s"⟩
  | .other message => ⟨502, units "ClickHouse: " ++ message⟩

def accepts (spec : Spec) (parts : List PartRow) (table key : Units) : Bool :=
  spec.id key && (parts.filter (·.table = table)).any (·.partition = key)

/-- `dropPartitions` from the list of partitions on. -/
def checkKeys (spec : Spec) (parts : List PartRow) (table : Units) (keys : List Units) : Stage :=
  match keys.find? fun k => !accepts spec parts table k with
  | some k => refuse (badRequest (units "keys: no such partition \"" ++ k.take 20 ++ units "\" in " ++ table))
  | none => dropNext table keys.length keys

inductive Event
  | post (now : Int) (body : Option Json) (redisReady : Bool)
  | listed (i : Nat) (result : Except ChFailure (List PartRow))
  | dropped (i : Nat) (failure : Option Units)
  | ended (i : Nat) (result : Except Units (Nat × Bool))

/-- The deletion that is sent on reaching a stage. -/
def issued (i : Nat) : Stage → List (Nat × Deletion)
  | .dropping table (k :: _) _ => [(i, .partition table k)]
  | .ending tz days => [(i, .endedDays tz days)]
  | _ => []

def Server.move (s : Server) (i : Nat) (r : Request) : Server :=
  { s with requests := s.requests.set i r, sent := s.sent ++ issued i r.stage }

def listedStage (table : Units) (keys : List Units) (result : Except ChFailure (List PartRow)) (r : Request) : Request :=
  match result, specOf table with
  | .ok parts, some spec => { r with existing := some parts, stage := checkKeys spec parts table keys }
  | .error f, _ => { r with stage := refuse f.error }
  | _, none => r

def Server.step (cfg : Config) (s : Server) : Event → Option Server
  | .post now body redisReady =>
      let v := storageDelete cfg redisReady s.fails now body
      some
        { fails := v.fails
          requests := s.requests ++ [⟨now, body, v.compared, none, v.stage⟩]
          sent := s.sent ++ issued s.requests.length v.stage }
  | .listed i result =>
      s.requests[i]?.bind fun r =>
        match r.stage with
        | .listing table keys => some (s.move i (listedStage table keys result r))
        | _ => none
  | .dropped i failure =>
      s.requests[i]?.bind fun r =>
        match r.stage, failure with
        | .dropping table (_ :: left) count, none => some (s.move i { r with stage := dropNext table count left })
        | .dropping _ _ _, some message =>
            some (s.move i { r with stage := refuse ⟨502, units "ClickHouse: " ++ message⟩ })
        | _, _ => none
  | .ended i result =>
      s.requests[i]?.bind fun r =>
        match r.stage, result with
        | .ending _ _, .ok (count, aofRewrite) => some (s.move i { r with stage := .answered (.deleted count aofRewrite) })
        | .ending _ _, .error message => some (s.move i { r with stage := .answered (.internal message) })
        | _, _ => none

/-- Requests arrive at times that do not go back. -/
def InOrder (s : Server) : Event → Prop
  | .post now _ _ => ∀ r ∈ s.requests, r.now ≤ now
  | _ => True

end NetWatch.Storage.Delete
