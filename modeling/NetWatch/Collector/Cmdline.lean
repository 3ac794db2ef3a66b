import NetWatch.Collector.Model

namespace NetWatch.Collector.Cmdline

open Procfs Model Lib.Assoc Lib.Runs Lib.Utf8

def decoded (raw : List UInt8) : List Char :=
  trimEnd ((fromUtf8Lossy raw).map fun c => if c = '\x00' then ' ' else c)

/-- A text of at most 4096 bytes, or one with a character boundary at byte 4096. -/
def Cuttable (cs : List Char) : Prop := byteLength cs ≤ 4096 ∨ ∃ p, p <+: cs ∧ byteLength p = 4096

theorem truncate_fits {n : Nat} {cs : List Char} (h : byteLength cs ≤ n) : truncate n cs = some cs := by
  induction cs generalizing n with
  | nil => rfl
  | cons c cs ih =>
      rw [byteLength_cons] at h
      have hpos := c.utf8Size_pos
      rw [truncate, if_neg (by omega), if_neg (by omega), ih (by omega), Option.map_some]

theorem truncate_prefix {p cs : List Char} (h : p <+: cs) : truncate (byteLength p) cs = some p := by
  induction p generalizing cs with
  | nil =>
      cases cs with
      | nil => rfl
      | cons c cs => rfl
  | cons c p ih =>
      obtain ⟨rest, rfl⟩ := h
      have hpos := c.utf8Size_pos
      rw [byteLength_cons, List.cons_append, truncate, if_neg (by omega), if_neg (by omega), Nat.add_sub_cancel_left,
        ih (List.prefix_append p rest), Option.map_some]

theorem truncate_spec {n : Nat} {cs out : List Char} (h : truncate n cs = some out) :
    out <+: cs ∧ byteLength out ≤ n ∧ (out = cs ∨ byteLength out = n) := by
  induction cs generalizing n out with
  | nil =>
      obtain rfl := Option.some.inj h
      exact ⟨List.prefix_refl _, Nat.zero_le n, .inl rfl⟩
  | cons c cs ih =>
      rw [truncate] at h
      split_ifs at h with hzero hsize
      · obtain rfl := Option.some.inj h
        exact ⟨List.nil_prefix, Nat.zero_le n, .inr hzero.symm⟩
      · obtain ⟨rest, hrest, rfl⟩ := Option.map_eq_some_iff.mp h
        obtain ⟨hpre, hle, hend⟩ := ih hrest
        rw [byteLength_cons]
        refine ⟨List.cons_prefix_cons.mpr ⟨rfl, hpre⟩, by omega, ?_⟩
        rcases hend with rfl | hend
        · exact .inl rfl
        · exact .inr (by omega)

theorem truncate_isSome (cs : List Char) : (truncate 4096 cs).isSome = true ↔ Cuttable cs := by
  constructor
  · intro h
    obtain ⟨out, hout⟩ := Option.isSome_iff_exists.mp h
    obtain ⟨hpre, hle, rfl | heq⟩ := truncate_spec hout
    · exact .inl hle
    · exact .inr ⟨out, hpre, heq⟩
  · rintro (hle | ⟨p, hpre, heq⟩)
    · rw [truncate_fits hle]
      rfl
    · rw [← heq, truncate_prefix hpre]
      rfl

def Reads (fs : ProcFs) (raw : List UInt8) : Prop :=
  ∃ s, readCmdline fs = some s ∧ s.utf8ByteSize ≤ 4096 ∧ s.toList <+: decoded raw

theorem readCmdline_eq {fs : ProcFs} {raw : List UInt8} (h : fs.cmdline = some raw) :
    readCmdline fs = (truncate 4096 (decoded raw)).map String.ofList := by
  rw [readCmdline, h]
  rfl

theorem reads_iff {fs : ProcFs} {raw : List UInt8} (h : fs.cmdline = some raw) :
    Reads fs raw ↔ Cuttable (decoded raw) := by
  rw [Reads, readCmdline_eq h, ← truncate_isSome]
  constructor
  · rintro ⟨s, hs, -, -⟩
    rw [← Option.isSome_map (f := String.ofList), hs]
    rfl
  · intro hcut
    obtain ⟨out, hout⟩ := Option.isSome_iff_exists.mp hcut
    obtain ⟨hpre, hle, -⟩ := truncate_spec hout
    refine ⟨String.ofList out, by rw [hout, Option.map_some], ?_, ?_⟩
    · rwa [utf8ByteSize_ofList]
    · rwa [String.toList_ofList]

/-- What the process of a record needs for its command line to be read: `/proc`
is of another process, has nothing to read, or has a text that can be cut. -/
def Creatable (clkTck : ClkTck) (x : Sample) : Prop :=
  procStarttimeTicks x.fs = some (x.stats.startNs / clkTck.nsPerTick) →
    ∀ raw, x.fs.cmdline = some raw → Cuttable (decoded raw)

theorem newProc_isSome (c : Clock) (clkTck : ClkTck) (x : Sample) :
    (newProc c clkTck x).isSome = true ↔ Creatable clkTck x := by
  rw [newProc, Option.isSome_map, Creatable]
  split_ifs with halive
  · cases hraw : x.fs.cmdline with
    | none =>
        rw [readCmdline, hraw]
        exact ⟨fun _ _ => nofun, fun _ => rfl⟩
    | some raw =>
        rw [readCmdline_eq hraw, Option.isSome_map, truncate_isSome]
        exact ⟨fun h _ raw' heq => Option.some.inj heq ▸ h, fun h => h halive raw rfl⟩
  · exact ⟨fun _ h => absurd h halive, fun _ => rfl⟩

def Creates (procs : Dict ProcId Proc) (flows : List Sample) (x : Sample) : Prop :=
  ∃ pre post, flows = pre ++ x :: post ∧ procs.get? x.id = none ∧ ∀ y ∈ pre, y.id ≠ x.id

theorem creates_head {procs : Dict ProcId Proc} {flows : List Sample} {x : Sample} (h : procs.get? x.id = none) :
    Creates procs (x :: flows) x :=
  ⟨[], flows, rfl, h, nofun⟩

theorem creates_cons {procs : Dict ProcId Proc} {flows : List Sample} {x y : Sample} {p : Proc}
    (h : Creates procs (x :: flows) y) : (y = x ∧ procs.get? x.id = none) ∨ Creates (procs.insert x.id p) flows y := by
  obtain ⟨pre, post, hflows, hnone, hpre⟩ := h
  cases pre with
  | nil =>
      obtain ⟨rfl, rfl⟩ := List.cons.inj hflows
      exact .inl ⟨rfl, hnone⟩
  | cons z pre =>
      obtain ⟨rfl, rfl⟩ := List.cons.inj hflows
      have hne : y.id ≠ x.id := (hpre x List.mem_cons_self).symm
      refine .inr ⟨pre, post, rfl, ?_, fun w hw => hpre w (List.mem_cons_of_mem x hw)⟩
      rw [Dict.get?_insert, if_neg hne, hnone]

theorem creates_of_insert {procs : Dict ProcId Proc} {flows : List Sample} {x y : Sample} {p : Proc}
    (h : Creates (procs.insert x.id p) flows y) : Creates procs (x :: flows) y := by
  obtain ⟨pre, post, rfl, hnone, hpre⟩ := h
  rw [Dict.get?_insert] at hnone
  split_ifs at hnone with hid
  refine ⟨x :: pre, post, rfl, hnone, fun w hw => ?_⟩
  rcases List.mem_cons.mp hw with rfl | hw
  · exact Ne.symm hid
  · exact hpre w hw

theorem loop_isSome {clkTck : ClkTck} {c : Clock} {elapsed : Duration} {flows : List Sample} {st : Loop} :
    (exec (ingestFlow clkTck c elapsed) st flows).isSome = true ↔
      ∀ x, Creates st.procs flows x → Creatable clkTck x := by
  induction flows generalizing st with
  | nil =>
      refine ⟨fun _ x hx => ?_, fun _ => rfl⟩
      obtain ⟨pre, post, hnil, -⟩ := hx
      exact absurd (congrArg List.length hnil) (by simp)
  | cons x flows ih =>
      have hhead : (procEntry clkTck c st.procs x).isSome = true ↔
          (st.procs.get? x.id = none → Creatable clkTck x) := by
        rw [procEntry]
        cases hid : st.procs.get? x.id with
        | some p => simp
        | none => exact (newProc_isSome c clkTck x).trans ⟨fun h _ => h, fun h => h rfl⟩
      cases hp : procEntry clkTck c st.procs x with
      | none =>
          have hstep : ingestFlow clkTck c elapsed st x = none := by rw [ingestFlow, hp, Option.map_none]
          rw [exec, hstep]
          rw [hp] at hhead
          constructor
          · intro h
            cases h
          · exact fun h => hhead.mpr fun hnone => h x (creates_head hnone)
      | some p =>
          obtain ⟨st', hstep, hprocs⟩ : ∃ st', ingestFlow clkTck c elapsed st x = some st' ∧
              ∃ q, st'.procs = st.procs.insert x.id q := by
            refine ⟨_, by rw [ingestFlow, hp, Option.map_some], _, rfl⟩
          obtain ⟨q, hq⟩ := hprocs
          rw [exec, hstep, Option.bind_some, ih, hq]
          rw [hp] at hhead
          constructor
          · intro h y hy
            rcases creates_cons (p := q) hy with ⟨rfl, hnone⟩ | hy
            · exact hhead.mp rfl hnone
            · exact h y hy
          · exact fun h y hy => h y (creates_of_insert hy)

theorem creates_mapVals {procs : Dict ProcId Proc} {f : ProcId → Proc → Proc} {flows : List Sample} {x : Sample} :
    Creates (procs.mapVals f) flows x ↔ Creates procs flows x := by
  simp only [Creates, Dict.get?_mapVals, Option.map_eq_none_iff]

/-- The command line of a process is read, and `ingest` returns, as long as byte
4096 of the text is not inside a character. -/
theorem cmdline_read_iff (stat : Option (List UInt8)) (raw : List UInt8) (c : Clock) (clkTck : ClkTck) (y : Sample)
    (a : Aggregator) (x : Input) :
    (Reads ⟨stat, some raw⟩ raw ↔ Cuttable (decoded raw)) ∧
    ((newProc c clkTck y).isSome = true ↔ Creatable clkTck y) ∧
    ((ingest a x).isSome = true ↔ ∀ z, Creates a.procs x.flows z → Creatable a.clkTck z) := by
  refine ⟨reads_iff rfl, newProc_isSome c clkTck y, ?_⟩
  rw [ingest, Option.isSome_map, gather, loop_isSome]
  simp only [creates_mapVals]

/-- 4095 letters and a character of two bytes. -/
def longCmdline : List UInt8 := List.replicate 4095 0x61 ++ [0xC3, 0xA9]

theorem decoded_longCmdline : decoded longCmdline = List.replicate 4095 'a' ++ ['é'] := by
  have hdecode : decode none longCmdline = List.replicate 4095 (some 'a') ++ [some 'é'] := by
    rw [longCmdline, decode_ascii _ fun b hb => (List.eq_of_mem_replicate hb).symm ▸ by decide, List.map_replicate]
    rfl
  have htext : (fromUtf8Lossy longCmdline).map (fun c => if c = '\x00' then ' ' else c) =
      List.replicate 4095 'a' ++ ['é'] := by
    rw [fromUtf8Lossy, hdecode, List.map_append, List.map_append, List.map_replicate, List.map_replicate]
    rfl
  have hlast : isWhitespace 'é' = false := by decide
  rw [decoded, htext, trimEnd, List.reverse_append, List.reverse_singleton, List.singleton_append,
    List.dropWhile_cons_of_neg (by simp [hlast]), List.reverse_cons, List.reverse_reverse]

theorem not_cuttable_longCmdline : ¬ Cuttable (decoded longCmdline) := by
  have hletters : ∀ n, byteLength (List.replicate n 'a') = n := by
    intro n
    rw [byteLength, List.map_replicate, List.sum_replicate]
    exact Nat.mul_one n
  have hall : byteLength (List.replicate 4095 'a' ++ ['é']) = 4097 := by
    rw [byteLength, List.map_append, List.sum_append, ← byteLength, hletters]
    rfl
  rw [decoded_longCmdline]
  rintro (hle | ⟨p, hpre, heq⟩)
  · omega
  · rcases List.prefix_concat_iff.mp hpre with rfl | hpre
    · omega
    · obtain ⟨hlen, hp⟩ := List.prefix_replicate_iff.mp hpre
      rw [hp, hletters] at heq
      omega

theorem cmdline_panics : ¬ ∀ raw, Reads ⟨none, some raw⟩ raw :=
  fun h => not_cuttable_longCmdline ((reads_iff rfl).mp (h longCmdline))

end NetWatch.Collector.Cmdline
