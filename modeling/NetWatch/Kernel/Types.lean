import Mathlib.Data.UInt

namespace NetWatch.Kernel.Types

def commLen : Nat := 16

def headLen : Nat := 8

def ipprotoTcp : UInt8 := 6

def ipprotoUdp : UInt8 := 17

/-- One entry per process, transport, remote endpoint and local port. The
explicit padding of the C layout is always zero and is left out. -/
structure FlowKey where
  tgid : UInt32
  rport : UInt16
  lport : UInt16
  raddr : Vector UInt8 16
  family : UInt8
  proto : UInt8
  deriving DecidableEq

structure FlowStats where
  txBytes : UInt64
  rxBytes : UInt64
  txCalls : UInt64
  rxCalls : UInt64
  startNs : UInt64
  comm : Vector UInt8 commLen
  head : Vector UInt8 headLen
  headLen : UInt32
  uid : UInt32
  deriving DecidableEq

structure ExitEvent where
  tgid : UInt32
  startNs : UInt64
  tsNs : UInt64
  deriving DecidableEq

inductive Counter
  | txBytes
  | txCalls
  | rxBytes
  | rxCalls
  deriving DecidableEq

namespace FlowStats

def zeroed : FlowStats :=
  ⟨0, 0, 0, 0, 0, Vector.replicate commLen 0, Vector.replicate Types.headLen 0, 0, 0⟩

def counter (s : FlowStats) : Counter → UInt64
  | .txBytes => s.txBytes
  | .txCalls => s.txCalls
  | .rxBytes => s.rxBytes
  | .rxCalls => s.rxCalls

def atomicXadd (s : FlowStats) (n : UInt64) : Counter → FlowStats
  | .txBytes => { s with txBytes := s.txBytes + n }
  | .txCalls => { s with txCalls := s.txCalls + n }
  | .rxBytes => { s with rxBytes := s.rxBytes + n }
  | .rxCalls => { s with rxCalls := s.rxCalls + n }

theorem counter_atomicXadd (s : FlowStats) (n : UInt64) (c d : Counter) :
    (s.atomicXadd n c).counter d = if c = d then s.counter d + n else s.counter d := by
  cases c <;> cases d <;> rfl

theorem startNs_atomicXadd (s : FlowStats) (n : UInt64) (c : Counter) :
    (s.atomicXadd n c).startNs = s.startNs := by
  cases c <;> rfl

end FlowStats

end NetWatch.Kernel.Types
