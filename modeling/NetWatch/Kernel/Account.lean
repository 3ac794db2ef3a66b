import NetWatch.Kernel.Types
import NetWatch.Lib.SlotMap

namespace NetWatch.Kernel.Account

open Kernel.Types NetWatch.Lib.SlotMap
open scoped UInt64.CommRing

inductive Side
  | a
  | b
  deriving DecidableEq

/-- What a call does to one counter, with the call, its flow key, the map it
picked and the start time of its process. -/
structure Credit where
  call : Nat
  side : Side
  key : FlowKey
  startNs : UInt64
  counter : Counter
  amount : UInt64
  deriving DecidableEq

def Credit.weigh (c : Counter) (cr : Credit) : UInt64 := if cr.counter = c then cr.amount else 0

/-- A map value with the ledger of the calls that went into its counters. The
ledger is not in the kernel: no step reads it. -/
structure Element where
  stats : FlowStats
  credits : List Credit
  sound : ∀ c, stats.counter c = (credits.map (Credit.weigh c)).sum

namespace Element

def zeroed : Element := ⟨FlowStats.zeroed, [], fun c => by cases c <;> rfl⟩

def add (cr : Credit) (e : Element) : Element where
  stats := e.stats.atomicXadd cr.amount cr.counter
  credits := cr :: e.credits
  sound := by
    intro c
    rw [FlowStats.counter_atomicXadd, List.map_cons, List.sum_cons, ← e.sound c, Credit.weigh]
    split
    · exact add_comm _ _
    · exact (zero_add _).symm

end Element

/-- The current task as `leader_info` sees it. The flags tell whether the
probe reads of its leader's fields succeed. -/
structure Task where
  startBoottime : UInt64
  comm : Vector UInt8 commLen
  uid : UInt32
  startRead : Bool
  commRead : Bool

/-- The arguments of `account` and its context. `sniffMsg` is absent for a null
message, and otherwise holds what `sniff_head` could copy from the payload. -/
structure Call where
  key : FlowKey
  tx : UInt64
  rx : UInt64
  task : Task
  sniffMsg : Option (Option (Vector UInt8 headLen))

def leaderInfo (t : Task) (st : FlowStats) : FlowStats :=
  { st with
    comm := if t.commRead then t.comm else st.comm
    startNs := if t.startRead then t.startBoottime else st.startNs }

def sniffHead (head : Option (Vector UInt8 headLen)) (st : FlowStats) : FlowStats :=
  match head with
  | some h => { st with head := h, headLen := UInt32.ofNat Types.headLen }
  | none => st

namespace Call

def firstStats (c : Call) : FlowStats :=
  let st := leaderInfo c.task
    { FlowStats.zeroed with
      txBytes := c.tx
      rxBytes := c.rx
      txCalls := if c.tx ≠ 0 then 1 else 0
      rxCalls := if c.rx ≠ 0 then 1 else 0
      uid := c.task.uid }
  match c.sniffMsg with
  | some head => if UInt64.ofNat headLen ≤ c.tx then sniffHead head st else st
  | none => st

/-- The atomic adds of `add`, in program order. -/
def adds (c : Call) : List (Counter × UInt64) :=
  (if c.tx ≠ 0 then [(.txBytes, c.tx), (.txCalls, 1)] else []) ++
    (if c.rx ≠ 0 then [(.rxBytes, c.rx), (.rxCalls, 1)] else [])

def amount (c : Call) : Counter → UInt64
  | .txBytes => c.tx
  | .txCalls => if c.tx ≠ 0 then 1 else 0
  | .rxBytes => c.rx
  | .rxCalls => if c.rx ≠ 0 then 1 else 0

end Call

inductive Pc
  | readActive
  | lookup (m : Side)
  | insert (m : Side)
  | retry (m : Side)
  | add (m : Side) (slot done : Nat)
  | drop (m : Side)
  | register (m : Side)
  | done (m : Side) (recorded : Bool)
  deriving DecidableEq

structure Thread where
  id : Nat
  call : Call
  pc : Pc

namespace Thread

def credits (t : Thread) (m : Side) : List Credit :=
  t.call.adds.map fun x => ⟨t.id, m, t.call.key, t.call.task.startBoottime, x.1, x.2⟩

end Thread

theorem sum_weigh_credits (t : Thread) (m : Side) (c : Counter) :
    ((t.credits m).map (Credit.weigh c)).sum = t.call.amount c := by
  by_cases htx : t.call.tx = 0 <;> by_cases hrx : t.call.rx = 0 <;>
    cases c <;> simp [Thread.credits, Call.adds, Call.amount, Credit.weigh, htx, hrx]

theorem firstStats_counter (c : Call) (d : Counter) : c.firstStats.counter d = c.amount d := by
  rw [Call.firstStats]
  cases hm : c.sniffMsg with
  | none => cases d <;> rfl
  | some head =>
      dsimp only
      split
      · cases head <;> cases d <;> rfl
      · cases d <;> rfl

theorem firstStats_startNs (c : Call) (h : c.task.startRead = true) :
    c.firstStats.startNs = c.task.startBoottime := by
  rw [Call.firstStats]
  cases hm : c.sniffMsg with
  | none => simp [leaderInfo, h]
  | some head =>
      dsimp only
      split
      · cases head <;> simp [sniffHead, leaderInfo, h]
      · simp [leaderInfo, h]

def Thread.firstElement (t : Thread) (m : Side) : Element where
  stats := t.call.firstStats
  credits := t.credits m
  sound := fun c => by rw [firstStats_counter, sum_weigh_credits]

/-- A flow record together with the map it sits in or was drained from. -/
structure Record where
  side : Side
  key : FlowKey
  elem : Element

structure Drain where
  side : Side
  records : List Record
  exits : List ExitEvent

/-- The collector between two steps of a tick. While it drains, the buckets
not visited yet are listed. -/
inductive Phase
  | running
  | grace (m : Side)
  | draining (m : Side) (buckets : List Nat)
  | drained (m : Side)

structure State where
  active : UInt32
  cur : UInt32
  flows : Side → Slots FlowKey Element
  procs : UInt32 → Option UInt64
  ring : List ExitEvent
  drops : Nat
  threads : List Thread
  phase : Phase
  out : List Record
  drains : List Drain

structure Table where
  buckets : Nat
  hash : FlowKey → Fin buckets

def batch : Nat := 16 * 1024

def init (capacity : Nat) : State where
  active := 0
  cur := 0
  flows := fun _ => empty capacity Element.zeroed
  procs := fun _ => none
  ring := []
  drops := 0
  threads := []
  phase := .running
  out := []
  drains := []

def sideOf (active : UInt32) : Side := if active = 1 then .b else .a

namespace State

def setMap (s : State) (m : Side) (f : Slots FlowKey Element) : State :=
  { s with flows := Function.update s.flows m f }

def setPc (s : State) (i : Nat) (t : Thread) (pc : Pc) : State :=
  { s with threads := s.threads.set i { t with pc := pc } }

end State

/-- The next atomic step of thread `i`. An insert takes the free element `j`;
it fails when the key is present or no element is free. -/
def advance (s : State) (i j : Nat) (t : Thread) : Option State :=
  match t.pc with
  | .readActive => some (s.setPc i t (.lookup (sideOf s.active)))
  | .lookup m => match lookup (s.flows m) t.call.key with
    | some k => some (s.setPc i t (.add m k 0))
    | none => some (s.setPc i t (.insert m))
  | .insert m =>
      if (lookup (s.flows m) t.call.key).isSome || full (s.flows m) then
        some (s.setPc i t (.retry m))
      else match (s.flows m)[j]? with
        | some ⟨none, _⟩ =>
            some ((s.setMap m (insertAt (s.flows m) j t.call.key (t.firstElement m))).setPc i t
              (.register m))
        | _ => none
  | .retry m => match lookup (s.flows m) t.call.key with
    | some k => some (s.setPc i t (.add m k 0))
    | none => some (s.setPc i t (.drop m))
  | .add m k n => match (t.credits m)[n]? with
    | some cr => some ((s.setMap m (update (s.flows m) k (Element.add cr))).setPc i t (.add m k (n + 1)))
    | none => some (s.setPc i t (.done m true))
  | .drop m => some ({ s with drops := s.drops + 1 }.setPc i t (.done m false))
  | .register m =>
      some ({ s with procs := Function.update s.procs t.call.key.tgid (some t.call.firstStats.startNs) }.setPc i t
        (.done m true))
  | .done _ _ => none

def schedProcessExit (s : State) (pid tgid : UInt32) (tsNs : UInt64) (reserved : Bool) : State :=
  if tgid ≠ pid then s
  else match s.procs tgid with
    | none => s
    | some startNs =>
        let s := { s with procs := Function.update s.procs tgid none }
        if reserved then { s with ring := s.ring ++ [⟨tgid, startNs, tsNs⟩] } else s

def flip (s : State) : State :=
  { s with cur := s.cur ^^^ 1, active := s.cur ^^^ 1, phase := .grace (sideOf s.cur) }

def inBuckets (T : Table) (bs : List Nat) (k : FlowKey) : Bool := bs.contains (T.hash k).val

/-- One `BPF_MAP_LOOKUP_AND_DELETE_BATCH` call: it visits the next `n` buckets
and ends the drain once the table has been traversed. -/
def lookupAndDeleteBatch (T : Table) (s : State) (m : Side) (bs : List Nat) (n : Nat) : State :=
  { s.setMap m (delete (inBuckets T (bs.take n)) (s.flows m)) with
    out := s.out ++ (taken (inBuckets T (bs.take n)) (s.flows m)).map fun e => ⟨m, e.1, e.2⟩
    phase := if bs.drop n = [] then .drained m else .draining m (bs.drop n) }

def drainStart (T : Table) (s : State) (m : Side) : State :=
  { s with phase := .draining m (List.range T.buckets) }

def enter (s : State) (c : Call) : State :=
  { s with threads := s.threads ++ [⟨s.threads.length, c, .readActive⟩] }

def evict (s : State) (tgid : UInt32) : State :=
  { s with procs := Function.update s.procs tgid none }

def collect (s : State) (m : Side) : State :=
  { s with phase := .running, out := [], ring := [], drains := s.drains ++ [⟨m, s.out, s.ring⟩] }

inductive Event
  | enter (c : Call)
  | advance (i slot : Nat)
  | exit (pid tgid : UInt32) (tsNs : UInt64) (reserved : Bool)
  | evict (tgid : UInt32)
  | flip
  | drainStart
  | drainBatch (n : Nat)
  | collect

def step (T : Table) (s : State) : Event → Option State
  | .enter c => some (enter s c)
  | .advance i j => (s.threads[i]?).bind (advance s i j)
  | .exit pid tgid tsNs reserved => some (schedProcessExit s pid tgid tsNs reserved)
  | .evict tgid => some (evict s tgid)
  | .flip => match s.phase with
    | .running => some (flip s)
    | _ => none
  | .drainStart => match s.phase with
    | .grace m => some (drainStart T s m)
    | _ => none
  | .drainBatch n => match s.phase with
    | .draining m bs =>
        if (taken (inBuckets T (bs.take n)) (s.flows m)).length ≤ batch then
          some (lookupAndDeleteBatch T s m bs n)
        else none
    | _ => none
  | .collect => match s.phase with
    | .drained m => some (collect s m)
    | _ => none

/-- All that one atomic step of a thread can do. -/
inductive Moves (s : State) (i : Nat) (t : Thread) : State → Prop
  | picked (hpc : t.pc = .readActive) : Moves s i t (s.setPc i t (.lookup (sideOf s.active)))
  | found {m k} (hpc : t.pc = .lookup m ∨ t.pc = .retry m) (hk : lookup (s.flows m) t.call.key = some k) :
      Moves s i t (s.setPc i t (.add m k 0))
  | missed {m} (hpc : t.pc = .lookup m) : Moves s i t (s.setPc i t (.insert m))
  | refused {m} (hpc : t.pc = .insert m) : Moves s i t (s.setPc i t (.retry m))
  | inserted {m j w} (hpc : t.pc = .insert m) (hk : lookup (s.flows m) t.call.key = none)
      (hj : (s.flows m)[j]? = some ⟨none, w⟩) :
      Moves s i t ((s.setMap m (insertAt (s.flows m) j t.call.key (t.firstElement m))).setPc i t (.register m))
  | lost {m} (hpc : t.pc = .retry m) : Moves s i t (s.setPc i t (.drop m))
  | added {m k n cr} (hpc : t.pc = .add m k n) (hcr : (t.credits m)[n]? = some cr) :
      Moves s i t ((s.setMap m (update (s.flows m) k (Element.add cr))).setPc i t (.add m k (n + 1)))
  | returned {m k n} (hpc : t.pc = .add m k n) (hn : (t.credits m)[n]? = none) :
      Moves s i t (s.setPc i t (.done m true))
  | dropped {m} (hpc : t.pc = .drop m) :
      Moves s i t ({ s with drops := s.drops + 1 }.setPc i t (.done m false))
  | registered {m} (hpc : t.pc = .register m) :
      Moves s i t ({ s with procs := Function.update s.procs t.call.key.tgid (some t.call.firstStats.startNs) }.setPc
        i t (.done m true))

theorem advance_moves {s s' : State} {i j : Nat} {t : Thread} (h : advance s i j t = some s') :
    Moves s i t s' := by
  rw [advance] at h
  cases hpc : t.pc with
  | readActive =>
      rw [hpc] at h
      cases h
      exact .picked hpc
  | lookup m =>
      simp only [hpc] at h
      cases hk : lookup (s.flows m) t.call.key with
      | some k => rw [hk] at h; cases h; exact .found (.inl hpc) hk
      | none => rw [hk] at h; cases h; exact .missed hpc
  | insert m =>
      simp only [hpc] at h
      split at h
      · cases h; exact .refused hpc
      · rename_i hfree
        split at h
        · rename_i w hj
          cases h
          have hk : lookup (s.flows m) t.call.key = none := by
            simp only [Bool.or_eq_true, not_or] at hfree
            simpa using hfree.1
          exact .inserted hpc hk hj
        · cases h
  | retry m =>
      simp only [hpc] at h
      cases hk : lookup (s.flows m) t.call.key with
      | some k => rw [hk] at h; cases h; exact .found (.inr hpc) hk
      | none => rw [hk] at h; cases h; exact .lost hpc
  | add m k n =>
      simp only [hpc] at h
      cases hcr : (t.credits m)[n]? with
      | some cr => rw [hcr] at h; cases h; exact .added hpc hcr
      | none => rw [hcr] at h; cases h; exact .returned hpc hcr
  | drop m => rw [hpc] at h; cases h; exact .dropped hpc
  | register m => rw [hpc] at h; cases h; exact .registered hpc
  | done m r => rw [hpc] at h; cases h

inductive Steps (T : Table) (s : State) : Event → State → Prop
  | enter (c) : Steps T s (.enter c) (enter s c)
  | advance {i j t s'} (hi : s.threads[i]? = some t) (hm : Moves s i t s') : Steps T s (.advance i j) s'
  | exit (pid tgid tsNs reserved) :
      Steps T s (.exit pid tgid tsNs reserved) (schedProcessExit s pid tgid tsNs reserved)
  | evict (tgid) : Steps T s (.evict tgid) (evict s tgid)
  | flip (hp : s.phase = .running) : Steps T s .flip (flip s)
  | drainStart {m} (hp : s.phase = .grace m) : Steps T s .drainStart (drainStart T s m)
  | drainBatch {m bs n} (hp : s.phase = .draining m bs) :
      Steps T s (.drainBatch n) (lookupAndDeleteBatch T s m bs n)
  | collect {m} (hp : s.phase = .drained m) : Steps T s .collect (collect s m)

theorem step_steps {T : Table} {s s' : State} {e : Event} (h : step T s e = some s') :
    Steps T s e s' := by
  cases e with
  | enter c => cases h; exact .enter c
  | advance i j =>
      obtain ⟨t, hi, hm⟩ := Option.bind_eq_some_iff.mp h
      exact .advance hi (advance_moves hm)
  | exit pid tgid tsNs reserved => cases h; exact .exit pid tgid tsNs reserved
  | evict tgid => cases h; exact .evict tgid
  | flip =>
      cases hp : s.phase <;> simp only [step, hp, reduceCtorEq, Option.some.injEq] at h
      exact h ▸ .flip hp
  | drainStart =>
      cases hp : s.phase <;> simp only [step, hp, reduceCtorEq, Option.some.injEq] at h
      exact h ▸ .drainStart hp
  | drainBatch n =>
      cases hp : s.phase <;> simp only [step, hp, reduceCtorEq] at h
      split at h
      · cases h; exact .drainBatch hp
      · cases h
  | collect =>
      cases hp : s.phase <;> simp only [step, hp, reduceCtorEq, Option.some.injEq] at h
      exact h ▸ .collect hp

/-- An exit touches nothing but `PROCS` and the ring buffer. -/
theorem schedProcessExit_frame (s : State) (pid tgid : UInt32) (tsNs : UInt64) (reserved : Bool) :
    ∃ p r, schedProcessExit s pid tgid tsNs reserved = { s with procs := p, ring := r } := by
  rw [schedProcessExit]
  split
  · exact ⟨s.procs, s.ring, rfl⟩
  · split
    · exact ⟨s.procs, s.ring, rfl⟩
    · dsimp only
      split
      · exact ⟨_, _, rfl⟩
      · exact ⟨_, s.ring, rfl⟩

end NetWatch.Kernel.Account
