import NetWatch.Collector.Model
import NetWatch.Lib.Texts

namespace NetWatch.Collector.Liveness

open Procfs Model Lib.Assoc Lib.Texts Lib.Utf8

def chars (bs : List UInt8) : List Char := bs.map fun b => Char.ofNat b.toNat

def asciiBytes (cs : List Char) : List UInt8 := cs.map fun c => UInt8.ofNat c.toNat

def isPlain (b : UInt8) : Bool := 0x20 < b && b < 0x7F && b ≠ 0x29

/-- `/proc/<pid>/stat` of a running process. The kernel puts the bytes of `comm`
there as they are, and the numbers from field 4 on after the letter of field 3. -/
structure StatLine where
  pid : UInt32
  comm : List UInt8
  fields : List (List UInt8)
  startTicks : UInt64
  plain : ∀ f ∈ fields, f ≠ [] ∧ ∀ b ∈ f, isPlain b = true
  field22 : fields[19]? = some (asciiBytes (decimal startTicks.toNat))

def StatLine.rest (l : StatLine) : List UInt8 := 0x20 :: ([0x20].intercalate l.fields ++ [0x0A])

def StatLine.bytes (l : StatLine) : List UInt8 :=
  asciiBytes (decimal l.pid.toNat) ++ [0x20, 0x28] ++ (l.comm ++ 0x29 :: l.rest)

theorem decimal_isDigit {n : Nat} {c : Char} (h : c ∈ decimal n) : c.isDigit = true := by
  by_contra hc
  exact notMem_decimal (Bool.eq_false_iff.mpr hc) n h

theorem isDigit_ascii {c : Char} (h : c.isDigit = true) : 0x30 ≤ c.toNat ∧ c.toNat ≤ 0x39 := by
  simp only [Char.isDigit, Bool.and_eq_true, decide_eq_true_eq] at h
  exact ⟨h.1, h.2⟩

theorem chars_asciiBytes {cs : List Char} (h : ∀ c ∈ cs, c.isDigit = true) : chars (asciiBytes cs) = cs := by
  rw [chars, asciiBytes, List.map_map]
  refine (List.map_congr_left fun c hc => ?_).trans (List.map_id cs)
  have hle := isDigit_ascii (h c hc)
  have hnat : (UInt8.ofNat c.toNat).toNat = c.toNat := by
    rw [UInt8.toNat_ofNat']
    omega
  rw [Function.comp_apply, hnat, Char.ofNat_toNat]
  rfl

theorem parseDigits_append (acc : Nat) (cs : List Char) (c : Char) (hc : c.isDigit = true) :
    parseDigits acc (cs ++ [c]) = (parseDigits acc cs).map fun n => n * 10 + (c.toNat - '0'.toNat) := by
  induction cs generalizing acc with
  | nil => simp [parseDigits, hc]
  | cons x cs ih =>
      rw [List.cons_append, parseDigits, parseDigits]
      split_ifs
      · exact ih _
      · rfl

theorem digitChar_ten : ∀ n < 10, (Nat.digitChar n).isDigit = true ∧ (Nat.digitChar n).toNat - '0'.toNat = n := by
  decide

theorem parseDigits_toDigits (n : Nat) : parseDigits 0 (Nat.toDigits 10 n) = some n := by
  induction n using Nat.strongRecOn with
  | ind n ih =>
      obtain ⟨hdigit, hval⟩ := digitChar_ten (n % 10) (Nat.mod_lt n (by omega))
      by_cases hn : n < 10
      · rw [Nat.mod_eq_of_lt hn] at hdigit hval
        rw [Nat.toDigits_of_lt_base hn, parseDigits, if_pos hdigit, parseDigits, hval]
        simp
      · rw [Nat.toDigits_of_base_le (by omega) (by omega), parseDigits_append _ _ _ hdigit, ih (n / 10) (by omega),
          Option.map_some, hval]
        congr 1
        omega

theorem decimal_eq (n : Nat) : decimal n = Nat.toDigits 10 n := Nat.toList_repr

theorem parseU64_decimal (t : UInt64) : parseU64 (decimal t.toNat) = some t := by
  have hplus : (decimal t.toNat).head? ≠ some '+' := by
    intro h
    exact absurd (decimal_isDigit (List.mem_of_mem_head? h)) (by decide)
  have hne : decimal t.toNat ≠ [] := by
    rw [decimal_eq]
    exact Nat.toDigits_ne_nil
  simp only [parseU64, if_neg hplus, if_neg hne]
  rw [decimal_eq, parseDigits_toDigits]
  simp only [if_pos t.toNat_lt, UInt64.ofNat_toNat]

def isBlank (c : Char) : Bool := c = ' ' || c = '\t' || c = '\n' || c = '\x0c' || c = '\r'

theorem printable_char : ∀ n < 127, 32 < n → n ≠ 41 → Char.ofNat n ≠ ')' ∧ isBlank (Char.ofNat n) = false := by
  decide

theorem plain_char {b : UInt8} (h : isPlain b = true) :
    b < 0x80 ∧ Char.ofNat b.toNat ≠ ')' ∧ isBlank (Char.ofNat b.toNat) = false := by
  simp only [isPlain, ne_eq, Bool.and_eq_true, decide_eq_true_eq] at h
  obtain ⟨⟨hlow, hhigh⟩, hne⟩ := h
  refine ⟨UInt8.lt_trans hhigh (by decide), printable_char b.toNat hhigh hlow ?_⟩
  exact fun heq => hne (UInt8.toNat_inj.mp heq)

theorem split_intercalate {fs : List (List Char)} (h : ∀ f ∈ fs, f ≠ [] ∧ ∀ c ∈ f, isBlank c = false) :
    splitAsciiWhitespace ([' '].intercalate fs ++ ['\n']) = fs := by
  change (List.splitOnP isBlank _).filter _ = fs
  induction fs with
  | nil => rfl
  | cons f fs ih =>
      obtain ⟨hne, hf⟩ := h f List.mem_cons_self
      have hrest := ih fun g hg => h g (List.mem_cons_of_mem f hg)
      cases fs with
      | nil =>
          rw [List.intercalate_singleton, List.splitOnP_append_cons_of_forall_mem hf '\n' rfl, List.splitOnP_nil,
            List.filter_cons_of_pos (by simpa using hne)]
          rfl
      | cons g gs =>
          rw [List.intercalate_cons_cons, List.append_assoc, List.append_assoc, List.singleton_append,
            List.splitOnP_append_cons_of_forall_mem hf ' ' rfl, List.filter_cons_of_pos (by simpa using hne), hrest]

section Line

variable (l : StatLine)

theorem chars_rest : chars l.rest = ' ' :: ([' '].intercalate (l.fields.map chars) ++ ['\n']) := by
  rw [StatLine.rest, chars, List.map_cons, List.map_append, map_intercalate]
  rfl

theorem rest_ascii {b : UInt8} (h : b ∈ l.rest) : b < 0x80 ∧ Char.ofNat b.toNat ≠ ')' := by
  rcases List.mem_cons.mp h with rfl | h
  · decide
  rcases List.mem_append.mp h with h | h
  · rcases mem_intercalate h with rfl | ⟨f, hf, hb⟩
    · decide
    · obtain ⟨hascii, hparen, -⟩ := plain_char ((l.plain f hf).2 b hb)
      exact ⟨hascii, hparen⟩
  · rw [List.mem_singleton.mp h]
    decide

theorem afterLast_rest (pre : List Char) : afterLast ')' (pre ++ ')' :: chars l.rest) = some (chars l.rest) := by
  have hnone : ∀ c ∈ (chars l.rest).reverse, decide (c ≠ ')') = true := by
    intro c hc
    obtain ⟨b, hb, rfl⟩ := List.mem_map.mp (List.mem_reverse.mp hc)
    simpa using (rest_ascii l hb).2
  rw [afterLast, if_pos (by simp), List.reverse_append, List.reverse_cons, List.append_assoc,
    List.takeWhile_append_of_pos hnone]
  simp

theorem fields_split : (splitAsciiWhitespace (chars l.rest))[19]? = some (decimal l.startTicks.toNat) := by
  have hblank : splitAsciiWhitespace (chars l.rest) =
      splitAsciiWhitespace ([' '].intercalate (l.fields.map chars) ++ ['\n']) := by
    rw [chars_rest]
    change (List.splitOnP isBlank _).filter _ = (List.splitOnP isBlank _).filter _
    rw [List.splitOnP_cons_eq_if_modifyHead]
    rfl
  have hfields : ∀ f ∈ l.fields.map chars, f ≠ [] ∧ ∀ c ∈ f, isBlank c = false := by
    intro f hf
    obtain ⟨g, hg, rfl⟩ := List.mem_map.mp hf
    refine ⟨fun hnil => (l.plain g hg).1 (List.map_eq_nil_iff.mp hnil), fun c hc => ?_⟩
    obtain ⟨b, hb, rfl⟩ := List.mem_map.mp hc
    exact (plain_char ((l.plain g hg).2 b hb)).2.2
  rw [hblank, split_intercalate hfields, List.getElem?_map, l.field22, Option.map_some,
    chars_asciiBytes fun c hc => decimal_isDigit hc]

theorem head_ascii {b : UInt8} (h : b ∈ asciiBytes (decimal l.pid.toNat) ++ [0x20, 0x28]) : b < 0x80 := by
  rcases List.mem_append.mp h with h | h
  · obtain ⟨c, hc, rfl⟩ := List.mem_map.mp h
    have hle := isDigit_ascii (decimal_isDigit hc)
    rw [UInt8.lt_iff_toNat_lt, UInt8.toNat_ofNat']
    change _ < 128
    omega
  · simp only [List.mem_cons, List.not_mem_nil, or_false] at h
    rcases h with rfl | rfl
    · decide
    · decide

theorem procStarttimeTicks_line (cmdline : Option (List UInt8)) :
    procStarttimeTicks ⟨some l.bytes, cmdline⟩ = (fromUtf8 l.comm).map fun _ => l.startTicks := by
  have htext := fromUtf8_surrounded (fun b hb => head_ascii l hb) (by decide : (0x29 : UInt8) < 0x80)
    (fun b hb => (rest_ascii l hb).1) l.comm
  cases hcomm : fromUtf8 l.comm with
  | none =>
      rw [hcomm, Option.map_none] at htext
      simp only [procStarttimeTicks, Option.bind_eq_bind, Option.bind_some, StatLine.bytes, htext]
      rfl
  | some cs =>
      rw [hcomm, Option.map_some] at htext
      change fromUtf8 l.bytes = some (chars _ ++ (cs ++ ')' :: chars l.rest)) at htext
      have hrest := afterLast_rest l
        (chars (asciiBytes (decimal l.pid.toNat) ++ [0x20, 0x28]) ++ cs)
      rw [List.append_assoc] at hrest
      simp only [procStarttimeTicks, Option.bind_eq_bind, Option.bind_some, htext, hrest, fields_split,
        parseU64_decimal, Option.map_some]

end Line

/-- The process that `/proc/<pid>/stat` shows is taken for the running one: no
sweep marks it as ended, and its command line is read. -/
structure Recognized (clkTck : ClkTck) (l : StatLine) : Prop where
  ticks : ∀ cmdline, procStarttimeTicks ⟨some l.bytes, cmdline⟩ = some l.startTicks
  sweep : ∀ (now : Int) (fs : ProcId → ProcFs) (procs : Dict ProcId Proc) (id : ProcId) (p : Proc),
    (fs id).stat = some l.bytes → id.2 / clkTck.nsPerTick = l.startTicks → procs.get? id = some p →
      p.view.endedMs = none → (sweepDead clkTck now fs procs).get? id = some p
  cmdline : ∀ (c : Clock) (x : Sample), x.fs.stat = some l.bytes → x.stats.startNs / clkTck.nsPerTick = l.startTicks →
    newProc c clkTck x = (readCmdline x.fs).map (Proc.fresh c x.key x.stats)

theorem sweepDead_running {clkTck : ClkTck} {now : Int} {fs : ProcId → ProcFs} {procs : Dict ProcId Proc} {id : ProcId}
    {p : Proc} (hp : procs.get? id = some p)
    (halive : procStarttimeTicks (fs id) = some (id.2 / clkTck.nsPerTick)) :
    (sweepDead clkTck now fs procs).get? id = some p := by
  rw [sweepDead, Dict.get?_mapVals, hp, Option.map_some, sweepOne]
  split_ifs with hskip hdead
  · rfl
  · exact absurd halive hdead
  · rfl

/-- A running process is recognized when the name of its main thread is valid
UTF-8. -/
theorem recognized_iff (clkTck : ClkTck) (l : StatLine) :
    Recognized clkTck l ↔ (fromUtf8 l.comm).isSome = true := by
  have hstat : ∀ {fs : ProcFs}, fs.stat = some l.bytes →
      procStarttimeTicks fs = (fromUtf8 l.comm).map fun _ => l.startTicks := by
    intro fs h
    rw [← procStarttimeTicks_line l fs.cmdline, ← h]
  constructor
  · intro h
    have hticks := h.ticks none
    rw [procStarttimeTicks_line] at hticks
    rw [← Option.isSome_map (f := fun _ => l.startTicks), hticks]
    rfl
  · intro h
    obtain ⟨cs, hcs⟩ := Option.isSome_iff_exists.mp h
    have halive : ∀ {fs : ProcFs}, fs.stat = some l.bytes → procStarttimeTicks fs = some l.startTicks := by
      intro fs hfs
      rw [hstat hfs, hcs, Option.map_some]
    refine ⟨fun cmdline => halive rfl, ?_, ?_⟩
    · intro now fs procs id p hfs hid hp _
      exact sweepDead_running hp (hid ▸ halive hfs)
    · intro c x hfs hstart
      simp only [newProc, halive hfs, hstart, if_true]

/-- A name of two-byte characters that is cut after 15 bytes. -/
def cutName : StatLine where
  pid := 7
  comm := List.flatten (List.replicate 7 [0xC3, 0xA9]) ++ [0xC3]
  fields := [0x53] :: List.replicate 18 [0x31] ++ [asciiBytes (decimal 500)]
  startTicks := 500
  plain := by decide +kernel
  field22 := rfl

theorem running_not_recognized : ¬ ∀ (clkTck : ClkTck) (l : StatLine), Recognized clkTck l := by
  intro h
  have hticks := (h ⟨100, by decide, by decide⟩ cutName).ticks none
  exact absurd hticks (by decide +kernel)

end NetWatch.Collector.Liveness
