import Mathlib.Algebra.Group.Int.Defs
import Mathlib.Algebra.Group.Nat.Defs
import Mathlib.Data.Int.Basic
import NetWatch.Lib.Utf8

namespace NetWatch.Collector.Procfs

open Lib.Utf8

/-- What reading `/proc/<pid>/stat` and `/proc/<pid>/cmdline` gives at one
moment, where `none` stands for a failed read. -/
structure ProcFs where
  stat : Option (List UInt8)
  cmdline : Option (List UInt8)

def ProcFs.gone : ProcFs := ⟨none, none⟩

def commStr (comm : List UInt8) : String := String.ofList (fromUtf8Lossy (comm.takeWhile (· ≠ 0)))

/-- The characters with the Unicode property White_Space. -/
def isWhitespace (c : Char) : Bool :=
  let n := c.toNat
  (9 ≤ n && n ≤ 13) || n = 0x20 || n = 0x85 || n = 0xA0 || n = 0x1680 || (0x2000 ≤ n && n ≤ 0x200A) ||
    n = 0x2028 || n = 0x2029 || n = 0x202F || n = 0x205F || n = 0x3000

def trimEnd (cs : List Char) : List Char := (cs.reverse.dropWhile isWhitespace).reverse

/-- `String::truncate`: a text that is longer than `n` bytes is cut there, and
`none` is the panic when the cut would fall inside a character. -/
def truncate (n : Nat) : List Char → Option (List Char)
  | [] => some []
  | c :: cs =>
    if n = 0 then some []
    else if n < c.utf8Size then none
    else (truncate (n - c.utf8Size) cs).map (c :: ·)

def readCmdline (fs : ProcFs) : Option String :=
  match fs.cmdline with
  | none => some ""
  | some raw =>
    let s := trimEnd ((fromUtf8Lossy raw).map fun c => if c = '\x00' then ' ' else c)
    (truncate 4096 s).map String.ofList

def splitAsciiWhitespace (cs : List Char) : List (List Char) :=
  (cs.splitOnP fun c => c = ' ' || c = '\t' || c = '\n' || c = '\x0c' || c = '\r').filter (· ≠ [])

def parseDigits (acc : Nat) : List Char → Option Nat
  | [] => some acc
  | c :: cs => if c.isDigit then parseDigits (acc * 10 + (c.toNat - '0'.toNat)) cs else none

def parseU64 (cs : List Char) : Option UInt64 :=
  let digits := if cs.head? = some '+' then cs.tail else cs
  if digits = [] then none
  else
    match parseDigits 0 digits with
    | some n => if n < 2 ^ 64 then some (UInt64.ofNat n) else none
    | none => none

def afterLast (sep : Char) (cs : List Char) : Option (List Char) :=
  if sep ∈ cs then some (cs.reverse.takeWhile (· ≠ sep)).reverse else none

def procStarttimeTicks (fs : ProcFs) : Option UInt64 := do
  let stat ← fs.stat
  let text ← fromUtf8 stat
  let rest ← afterLast ')' text
  let field ← (splitAsciiWhitespace rest)[19]?
  parseU64 field

/-- Correlates the clock of the kernel's timestamps with wall-clock time. -/
structure Clock where
  wallMs : Int
  bootNs : UInt64
  nonneg : 0 ≤ wallMs
  inRange : wallMs < 2 ^ 62

def asI64 (n : UInt64) : Int := Int.bmod n.toNat (2 ^ 64)

/-- The subtraction wraps like `i64` arithmetic does, the division rounds
towards zero. -/
def Clock.bootToWallMs (c : Clock) (bootNs : UInt64) : Int :=
  c.wallMs - (Int.bmod (asI64 c.bootNs - asI64 bootNs) (2 ^ 64)).tdiv 1000000

end NetWatch.Collector.Procfs
