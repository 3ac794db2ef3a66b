import NetWatch.Collector.Procfs
import NetWatch.Lib.Runs
import NetWatch.Lib.Trim

namespace NetWatch.Collector.SplitStatements

open Lib.Runs Lib.Trim Procfs

inductive Quote
  | single
  | double
  | back
  deriving DecidableEq

def Quote.char : Quote → Char
  | .single => '\x27'
  | .double => '\x22'
  | .back => '\x60'

def isQuote (c : Char) : Bool := c = Quote.single.char || c = Quote.double.char || c = Quote.back.char

def scan : Option Char → List Char → List Char → List (List Char)
  | _, cur, [] => [cur]
  | some q, cur, c :: cs =>
      if c = '\\' then scan (some q) (cur ++ c :: cs.head?.toList) cs.tail
      else if c = q then
        if cs.head? = some q then scan (some q) (cur ++ c :: cs.head?.toList) cs.tail else scan none (cur ++ [c]) cs
      else scan (some q) (cur ++ [c]) cs
  | none, cur, c :: cs =>
      if isQuote c then scan (some c) (cur ++ [c]) cs
      else if c = '-' ∧ cs.head? = some '-' then scan none cur (cs.dropWhile (· ≠ '\n'))
      else if c = ';' then cur :: scan none [] cs
      else scan none (cur ++ [c]) cs
termination_by _ _ cs => cs.length
decreasing_by
  all_goals simp only [List.length_cons, List.length_tail]
  all_goals try omega
  have := (List.dropWhile_sublist (p := (· ≠ '\n')) (l := cs)).length_le
  omega

def splitStatements (sql : List Char) : List (List Char) :=
  ((scan none [] sql).map (trim isWhitespace)).filter (· ≠ [])

section Equations

variable {cur cs : List Char} {c : Char}

theorem scan_nil (quote : Option Char) (cur : List Char) : scan quote cur [] = [cur] := by
  rw [scan]

theorem isQuote_char (q : Quote) : isQuote q.char = true := by
  cases q <;> rfl

theorem exists_quote (h : isQuote c = true) : ∃ q : Quote, c = q.char := by
  simp only [isQuote, Bool.or_eq_true, decide_eq_true_eq] at h
  obtain (h | h) | h := h
  · exact ⟨.single, h⟩
  · exact ⟨.double, h⟩
  · exact ⟨.back, h⟩

theorem scan_open (q : Quote) : scan none cur (q.char :: cs) = scan (some q.char) (cur ++ [q.char]) cs := by
  rw [scan, if_pos (isQuote_char q)]

theorem scan_close (q : Quote) : scan (some q.char) cur (q.char :: cs) = scan none (cur ++ [q.char]) cs := by
  have hslash : q.char ≠ '\\' := by cases q <;> decide
  rw [scan, if_neg hslash, if_pos rfl]
  split
  · rename_i hd
    obtain ⟨rest, rfl⟩ := List.head?_eq_some_iff.mp hd
    rw [scan_open, List.append_assoc]
    rfl
  · rfl

theorem scan_quoted {q : Quote} (hslash : c ≠ '\\') (hq : c ≠ q.char) :
    scan (some q.char) cur (c :: cs) = scan (some q.char) (cur ++ [c]) cs := by
  rw [scan, if_neg hslash, if_neg hq]

theorem scan_comment : scan none cur ('-' :: '-' :: cs) = scan none cur (cs.dropWhile (· ≠ '\n')) := by
  rw [scan, if_neg (by decide), if_pos ⟨rfl, rfl⟩, List.dropWhile_cons_of_pos (by decide)]

theorem scan_separator : scan none cur (';' :: cs) = cur :: scan none [] cs := by
  rw [scan, if_neg (by decide), if_neg (by rintro ⟨h, -⟩; revert h; decide), if_pos rfl]

theorem scan_plain (hquote : isQuote c = false) (hsep : c ≠ ';') (hdash : c = '-' → cs.head? ≠ some '-') :
    scan none cur (c :: cs) = scan none (cur ++ [c]) cs := by
  rw [scan, if_neg (by rw [hquote]; exact Bool.false_ne_true), if_neg (fun h => hdash h.1 h.2), if_neg hsep]

end Equations

section Modes

/-- Where a text is, as far as separators and comments go. After a dash outside quotes
there may not be another one. -/
inductive Mode
  | outside
  | dash
  | quoted (q : Quote)
  | escaped (q : Quote)
  deriving DecidableEq

def Mode.Between : Mode → Prop
  | .outside | .dash => True
  | .quoted _ | .escaped _ => False

def nextOutside (c : Char) : Option Mode :=
  if c = ';' then none
  else if c = '-' then some .dash
  else
    match [Quote.single, .double, .back].find? (·.char = c) with
    | some q => some (.quoted q)
    | none => some .outside

def next : Mode → Char → Option Mode
  | .outside, c => nextOutside c
  | .dash, c => if c = '-' then none else nextOutside c
  | .quoted q, c => some (if c = '\\' then .escaped q else if c = q.char then .outside else .quoted q)
  | .escaped q, _ => some (.quoted q)

/-- The loop from a mode on. -/
def scanFrom : Mode → List Char → List Char → List (List Char)
  | .outside, cur, cs | .dash, cur, cs => scan none cur cs
  | .quoted q, cur, cs => scan (some q.char) cur cs
  | .escaped q, cur, cs => scan (some q.char) (cur ++ cs.head?.toList) cs.tail

variable {m m' : Mode} {cur cs t : List Char} {c : Char}

theorem nextOutside_cases (h : nextOutside c = some m) :
    c ≠ ';' ∧ (c = '-' ∧ m = .dash ∨ c ≠ '-' ∧ ((∃ q : Quote, c = q.char ∧ m = .quoted q) ∨ isQuote c = false ∧ m = .outside)) := by
  unfold nextOutside at h
  split at h
  · cases h
  · rename_i hsep
    refine ⟨hsep, ?_⟩
    split at h
    · rename_i hdash
      cases h
      exact .inl ⟨hdash, rfl⟩
    · rename_i hdash
      refine .inr ⟨hdash, ?_⟩
      split at h
      · rename_i q hq
        cases h
        have hchar := List.find?_some hq
        exact .inl ⟨q, (of_decide_eq_true hchar).symm, rfl⟩
      · rename_i hnone
        cases h
        refine .inr ⟨?_, rfl⟩
        rw [List.find?_eq_none] at hnone
        simp only [List.mem_cons, List.not_mem_nil, or_false, decide_eq_true_eq, forall_eq_or_imp, forall_eq] at hnone
        simp only [isQuote, Bool.or_eq_false_iff, decide_eq_false_iff_not]
        exact ⟨⟨Ne.symm hnone.1, Ne.symm hnone.2.1⟩, Ne.symm hnone.2.2⟩

theorem next_dash (h : next .dash c = some m) : c ≠ '-' ∧ nextOutside c = some m := by
  rw [next] at h
  split at h
  · cases h
  · rename_i hc
    exact ⟨hc, h⟩

theorem next_quoted {q : Quote} (h : next (.quoted q) c = some m) :
    c = '\\' ∧ m = .escaped q ∨ c = q.char ∧ m = .outside ∨ c ≠ '\\' ∧ c ≠ q.char ∧ m = .quoted q := by
  have hm := Option.some.inj h
  split at hm
  · rename_i hslash
    exact .inl ⟨hslash, hm.symm⟩
  · rename_i hslash
    split at hm
    · rename_i hq
      exact .inr (.inl ⟨hq, hm.symm⟩)
    · rename_i hq
      exact .inr (.inr ⟨hslash, hq, hm.symm⟩)

theorem scan_outside (h : nextOutside c = some m') (hdash : m' = .dash → cs.head? ≠ some '-') :
    scan none cur (c :: cs) = scanFrom m' (cur ++ [c]) cs := by
  obtain ⟨hsep, ⟨rfl, rfl⟩ | ⟨hne, ⟨q, rfl, rfl⟩ | ⟨hquote, rfl⟩⟩⟩ := nextOutside_cases h
  · exact scan_plain rfl hsep fun _ => hdash rfl
  · exact scan_open q
  · exact scan_plain hquote hsep fun h => absurd h hne

theorem scanFrom_step (h : next m c = some m') (hdash : m' = .dash → cs.head? ≠ some '-') :
    scanFrom m cur (c :: cs) = scanFrom m' (cur ++ [c]) cs := by
  cases m with
  | outside => exact scan_outside h hdash
  | dash => exact scan_outside (next_dash h).2 hdash
  | quoted q =>
      obtain ⟨rfl, rfl⟩ | ⟨rfl, rfl⟩ | ⟨hslash, hq, rfl⟩ := next_quoted h
      · rw [scanFrom, scan, if_pos rfl, scanFrom, List.append_assoc]
        rfl
      · exact scan_close q
      · exact scan_quoted hslash hq
  | escaped q =>
      cases h
      rfl

theorem scanFrom_nil (m : Mode) (cur : List Char) : scanFrom m cur [] = [cur] := by
  cases m with
  | outside => exact scan_nil none cur
  | dash => exact scan_nil none cur
  | quoted q => exact scan_nil _ cur
  | escaped q =>
      rw [scanFrom]
      exact (scan_nil _ _).trans (congrArg ([·]) (List.append_nil cur))

/-- A text that is read without a separator or comment becomes a part of the current statement. -/
theorem scanFrom_read (cur rest : List Char) (h : exec next m t = some m') (hdash : m' = .dash → rest.head? ≠ some '-') :
    scanFrom m cur (t ++ rest) = scanFrom m' (cur ++ t) rest := by
  induction t generalizing m cur with
  | nil =>
      cases h
      rw [List.append_nil]
      rfl
  | cons c t ih =>
      obtain ⟨m₁, hstep, hrest⟩ := Option.bind_eq_some_iff.mp h
      have hlook : m₁ = .dash → (t ++ rest).head? ≠ some '-' := by
        rintro rfl
        cases t with
        | nil =>
            cases hrest
            exact hdash rfl
        | cons d t =>
            rintro hd
            cases hd
            cases hrest
      rw [List.cons_append, scanFrom_step hstep hlook, ih _ hrest, List.append_assoc]
      rfl

theorem next_to_dash {c : Char} (h : next m c = some .dash) : m.Between ∧ c = '-' := by
  have hout : nextOutside c = some .dash → c = '-' := by
    intro hc
    obtain ⟨-, ⟨rfl, -⟩ | ⟨-, ⟨q, -, hq⟩ | ⟨-, hq⟩⟩⟩ := nextOutside_cases hc
    · rfl
    · cases hq
    · cases hq
  cases m with
  | outside => exact ⟨trivial, hout h⟩
  | dash => exact ⟨trivial, hout (next_dash h).2⟩
  | quoted q =>
      obtain ⟨-, hm⟩ | ⟨-, hm⟩ | ⟨-, -, hm⟩ := next_quoted h
      all_goals cases hm
  | escaped q => cases h

theorem last_of_dash (h : exec next .outside t = some .dash) : t.getLast? = some '-' := by
  obtain rfl | ⟨t, c, rfl⟩ := t.eq_nil_or_concat
  · cases h
  · rw [List.concat_eq_append] at h ⊢
    obtain ⟨m, -, hlast⟩ := exec_append h
    obtain ⟨m', hstep, hm'⟩ := Option.bind_eq_some_iff.mp hlast
    cases hm'
    rw [List.getLast?_concat, (next_to_dash hstep).2]

end Modes

section Grammar

inductive Quoted (q : Quote) : List Char → Prop
  | nil : Quoted q []
  | escaped (c) {cs} : Quoted q cs → Quoted q ('\\' :: c :: cs)
  | doubled {cs} : Quoted q cs → Quoted q (q.char :: q.char :: cs)
  | plain {c cs} : c ≠ '\\' → c ≠ q.char → Quoted q cs → Quoted q (c :: cs)

/-- A text whose quotes are all closed and that has no separator and no comment outside
of them. -/
inductive Sql : List Char → Prop
  | nil : Sql []
  | plain {c cs} : isQuote c = false → c ≠ ';' → (c = '-' → cs.head? ≠ some '-') → Sql cs → Sql (c :: cs)
  | quoted (q : Quote) {body cs} : Quoted q body → Sql cs → Sql (q.char :: (body ++ q.char :: cs))

inductive Gap : List Char → Prop
  | nil : Gap []
  | space {c cs} : isWhitespace c = true → Gap cs → Gap (c :: cs)
  | comment {text cs} : '\n' ∉ text → Gap cs → Gap ('-' :: '-' :: (text ++ '\n' :: cs))

/-- What stands between two separators of a script: a statement, or nothing, with gaps
around it. A comment that followed right after a dash would begin with that dash. -/
structure Segment where
  before : List Char
  stmt : List Char
  after : List Char
  gap_before : Gap before
  sql : Sql stmt
  trimmed : Trimmed isWhitespace stmt
  gap_after : Gap after
  no_dash : stmt.getLast? = some '-' → after.head? ≠ some '-'

def Segment.text (g : Segment) : List Char := g.before ++ (g.stmt ++ g.after)

def script (segments : List Segment) : List Char := [';'].intercalate (segments.map Segment.text)

variable {cur cs rest : List Char}

theorem space_plain {c : Char} (h : isWhitespace c = true) : c ≠ ';' ∧ c ≠ '-' ∧ c ≠ '\\' ∧ isQuote c = false := by
  refine ⟨?_, ?_, ?_, ?_⟩
  · rintro rfl
    exact absurd h (by decide)
  · rintro rfl
    exact absurd h (by decide)
  · rintro rfl
    exact absurd h (by decide)
  · rw [Bool.eq_false_iff]
    intro hquote
    obtain ⟨q, rfl⟩ := exists_quote hquote
    cases q <;> exact absurd h (by decide)

theorem scan_gap (h : Gap cs) : ∃ w, (∀ c ∈ w, isWhitespace c = true) ∧
    ∀ cur rest, scan none cur (cs ++ rest) = scan none (cur ++ w) rest := by
  induction h with
  | nil => exact ⟨[], fun c hc => absurd hc List.not_mem_nil, fun cur rest => by rw [List.append_nil]; rfl⟩
  | @space c cs hc _ ih =>
      obtain ⟨w, hw, hscan⟩ := ih
      obtain ⟨hsep, hdash, -, hquote⟩ := space_plain hc
      refine ⟨c :: w, List.forall_mem_cons.mpr ⟨hc, hw⟩, fun cur rest => ?_⟩
      rw [List.cons_append, scan_plain hquote hsep (fun h => absurd h hdash), hscan, List.append_assoc]
      rfl
  | @comment text cs htext _ ih =>
      obtain ⟨w, hw, hscan⟩ := ih
      refine ⟨'\n' :: w, List.forall_mem_cons.mpr ⟨rfl, hw⟩, fun cur rest => ?_⟩
      have hskip : (text ++ '\n' :: cs ++ rest).dropWhile (· ≠ '\n') = '\n' :: (cs ++ rest) := by
        rw [List.append_assoc, List.dropWhile_append_of_pos]
        · rfl
        · intro c hc
          exact decide_eq_true fun h => htext (h ▸ hc)
      rw [List.cons_append, List.cons_append, scan_comment, hskip,
        scan_plain rfl (by decide) (fun h => absurd h (by decide)), hscan, List.append_assoc]
      rfl

theorem next_between {m : Mode} (hm : m.Between) {c : Char} (hdash : m = .dash → c ≠ '-') : next m c = nextOutside c := by
  cases m with
  | outside => rfl
  | dash => rw [next, if_neg (hdash rfl)]
  | quoted q => exact hm.elim
  | escaped q => exact hm.elim

theorem nextOutside_plain {c : Char} (hquote : isQuote c = false) (hsep : c ≠ ';') :
    nextOutside c = some (if c = '-' then .dash else .outside) := by
  have hfind : [Quote.single, .double, .back].find? (·.char = c) = none := by
    rw [List.find?_eq_none]
    intro q _ hq
    rw [← of_decide_eq_true hq, isQuote_char] at hquote
    cases hquote
  rw [nextOutside, if_neg hsep, hfind]
  split
  · rfl
  · rfl

theorem nextOutside_quote (q : Quote) : nextOutside q.char = some (.quoted q) := by
  cases q <;> rfl

theorem exec_step {m m' : Mode} {c : Char} (h : next m c = some m') : exec next m (c :: cs) = exec next m' cs := by
  rw [exec, h]
  rfl

theorem next_close (q : Quote) : next (.quoted q) q.char = some .outside := by
  cases q <;> rfl

theorem exec_quoted {q : Quote} {body : List Char} (h : Quoted q body) :
    exec next (.quoted q) (body ++ cs) = exec next (.quoted q) cs := by
  induction h with
  | nil => rfl
  | escaped c _ ih => exact ih
  | doubled _ ih =>
      rw [List.cons_append, List.cons_append, exec_step (next_close q), exec_step (m := .outside) (nextOutside_quote q), ih]
  | @plain c cs' hslash hq _ ih =>
      have hstep : next (.quoted q) c = some (.quoted q) := by rw [next, if_neg hslash, if_neg hq]
      rw [List.cons_append, exec_step hstep, ih]

theorem exec_sql (h : Sql cs) {m : Mode} (hm : m.Between) (hdash : m = .dash → cs.head? ≠ some '-') :
    ∃ m', exec next m cs = some m' ∧ m'.Between := by
  induction h generalizing m with
  | nil => exact ⟨m, rfl, hm⟩
  | @plain c cs hquote hsep hnext _ ih =>
      have hstep := next_between hm (c := c) fun h hc => hdash h (congrArg some hc)
      rw [nextOutside_plain hquote hsep] at hstep
      rw [exec_step hstep]
      split
      · rename_i hc
        exact ih trivial fun _ => hnext hc
      · exact ih trivial fun h => by cases h
  | @quoted q body cs hbody _ ih =>
      have hne : q.char ≠ '-' := by cases q <;> decide
      have hstep := next_between hm (c := q.char) fun _ => hne
      rw [nextOutside_quote q] at hstep
      rw [exec_step hstep, exec_quoted hbody, exec_step (next_close q)]
      exact ih trivial fun h => by cases h

theorem scanFrom_between {m : Mode} (hm : m.Between) : scanFrom m cur cs = scan none cur cs := by
  cases m with
  | outside => rfl
  | dash => rfl
  | quoted q => exact hm.elim
  | escaped q => exact hm.elim

theorem scan_segment (g : Segment) (rest : List Char) (hrest : rest.head? ≠ some '-') :
    ∃ piece, trim isWhitespace piece = g.stmt ∧ scan none [] (g.text ++ rest) = scan none piece rest := by
  obtain ⟨u, hu, hbefore⟩ := scan_gap g.gap_before
  obtain ⟨v, hv, hafter⟩ := scan_gap g.gap_after
  obtain ⟨m, hread, hm⟩ := exec_sql (m := .outside) g.sql trivial fun h => by cases h
  refine ⟨u ++ g.stmt ++ v, trim_pad hu hv g.trimmed, ?_⟩
  have hlook : m = .dash → (g.after ++ rest).head? ≠ some '-' := by
    rintro rfl
    have hgap := g.no_dash (last_of_dash hread)
    cases hcase : g.after with
    | nil => exact hrest
    | cons c cs =>
        rw [hcase] at hgap
        exact hgap
  have hstmt := scanFrom_read u _ hread hlook
  rw [scanFrom_between hm] at hstmt
  rw [Segment.text, List.append_assoc, List.append_assoc, hbefore, List.nil_append, ← scanFrom_between (m := .outside) trivial,
    hstmt, hafter]

theorem scan_script (g : Segment) (segments : List Segment) :
    (scan none [] (script (g :: segments))).map (trim isWhitespace) = (g :: segments).map Segment.stmt := by
  induction segments generalizing g with
  | nil =>
      obtain ⟨piece, htrim, hscan⟩ := scan_segment g [] nofun
      rw [List.append_nil, scan_nil] at hscan
      rw [script, List.map_singleton, List.intercalate_singleton, hscan, List.map_singleton, htrim, List.map_singleton]
  | cons g' segments ih =>
      have hscript : script (g :: g' :: segments) = g.text ++ ';' :: script (g' :: segments) := by
        rw [script, List.map_cons, List.map_cons, List.intercalate_cons_cons, List.append_assoc]
        rfl
      obtain ⟨piece, htrim, hscan⟩ := scan_segment g (';' :: script (g' :: segments)) (by
        intro h
        cases h)
      rw [hscript, hscan, scan_separator, List.map_cons, htrim, ih]
      rfl

theorem split_script (segments : List Segment) :
    splitStatements (script segments) = (segments.map Segment.stmt).filter (· ≠ []) := by
  cases segments with
  | nil =>
      rw [splitStatements, script, List.map_nil, List.intercalate_nil, scan_nil]
      rfl
  | cons g segments => rw [splitStatements, scan_script]

end Grammar

section Again

variable {cur cs t : List Char} {m m' : Mode} {pieces : List (List Char)}

/-- A text that is read to its end without a separator or comment. -/
def Readable (t : List Char) : Prop := ∃ m, exec next .outside t = some m

def Closed (t : List Char) : Prop := ∃ m : Mode, exec next .outside t = some m ∧ m.Between

/-- All texts can be read, and only in the last one a quote may stay open. -/
def Splits : List (List Char) → Prop
  | [] => True
  | p :: ps => Readable p ∧ (ps ≠ [] → Closed p) ∧ Splits ps

theorem exec_snoc {c : Char} (hcur : exec next .outside cur = some m) (hstep : next m c = some m') :
    exec next .outside (cur ++ [c]) = some m' := by
  rw [exec_continue hcur]
  exact exec_step hstep

theorem next_none {c : Char} (h : next m c = none) : m.Between ∧ (c = ';' ∨ m = .dash ∧ c = '-') := by
  have hout : nextOutside c = none → c = ';' := by
    intro hc
    unfold nextOutside at hc
    split at hc
    · assumption
    · split at hc
      · cases hc
      · split at hc <;> cases hc
  cases m with
  | outside => exact ⟨trivial, .inl (hout h)⟩
  | dash =>
      by_cases hc : c = '-'
      · exact ⟨trivial, .inr ⟨rfl, hc⟩⟩
      · rw [next, if_neg hc] at h
        exact ⟨trivial, .inl (hout h)⟩
  | quoted q => cases h
  | escaped q => cases h

theorem scan_splits (hcur : exec next .outside cur = some m) (hdash : m = .dash → cs.head? ≠ some '-') :
    Splits (scanFrom m cur cs) := by
  induction hn : cs.length using Nat.strong_induction_on generalizing m cur cs with
  | _ n ih =>
      cases cs with
      | nil =>
          rw [scanFrom_nil]
          exact ⟨⟨m, hcur⟩, fun h => absurd rfl h, trivial⟩
      | cons c cs =>
          rw [List.length_cons] at hn
          cases hstep : next m c with
          | none =>
              obtain ⟨hm, rfl | ⟨rfl, rfl⟩⟩ := next_none hstep
              · rw [scanFrom_between hm, scan_separator]
                have hrest : Splits (scanFrom .outside [] cs) := ih _ (by omega) rfl (fun h => by cases h) rfl
                exact ⟨⟨m, hcur⟩, fun _ => ⟨m, hcur, hm⟩, hrest⟩
              · exact absurd rfl (hdash rfl)
          | some m' =>
              by_cases hcomment : m' = .dash ∧ cs.head? = some '-'
              · -- the dash begins a comment, and nothing of it is kept
                obtain ⟨rfl, hhead⟩ := hcomment
                obtain ⟨hm, rfl⟩ := next_to_dash hstep
                obtain ⟨cs, rfl⟩ := List.head?_eq_some_iff.mp hhead
                have hne : m ≠ .dash := by
                  rintro rfl
                  exact hdash rfl rfl
                have hlen := (List.dropWhile_sublist (p := (· ≠ '\n')) (l := cs)).length_le
                rw [List.length_cons] at hn
                rw [scanFrom_between hm, scan_comment, ← scanFrom_between hm]
                exact ih _ (by omega) hcur (fun h => absurd h hne) rfl
              · have hlook : m' = .dash → cs.head? ≠ some '-' := fun h h' => hcomment ⟨h, h'⟩
                rw [scanFrom_step hstep hlook]
                exact ih _ (by omega) (exec_snoc hcur hstep) hlook rfl

theorem exec_spaces {w : List Char} (hw : ∀ c ∈ w, isWhitespace c = true) : exec next .outside w = some .outside := by
  induction w with
  | nil => rfl
  | cons c w ih =>
      obtain ⟨hc, hw⟩ := List.forall_mem_cons.mp hw
      obtain ⟨hsep, hdash, -, hquote⟩ := space_plain hc
      have hstep : next .outside c = some .outside := (nextOutside_plain hquote hsep).trans (by rw [if_neg hdash])
      rw [exec_step hstep, ih hw]

theorem between_of_spaces {w : List Char} (hw : ∀ c ∈ w, isWhitespace c = true) (h : exec next m w = some m')
    (hm' : m'.Between) : m.Between := by
  induction w generalizing m with
  | nil =>
      cases h
      exact hm'
  | cons c w ih =>
      obtain ⟨hc, hw⟩ := List.forall_mem_cons.mp hw
      obtain ⟨-, -, hslash, hquote⟩ := space_plain hc
      obtain ⟨m₁, hstep, hrest⟩ := Option.bind_eq_some_iff.mp h
      have hm₁ := ih hw hrest
      cases m with
      | outside => trivial
      | dash => trivial
      | quoted q =>
          obtain ⟨hc', -⟩ | ⟨hq, -⟩ | ⟨-, -, rfl⟩ := next_quoted hstep
          · exact absurd hc' hslash
          · rw [hq, isQuote_char] at hquote
            cases hquote
          · exact hm₁
      | escaped q =>
          cases hstep
          exact hm₁

/-- Where the reading is after the trimmed text and after the whitespace behind it. -/
theorem exec_trim (h : exec next .outside t = some m') : ∃ m w, exec next .outside (trim isWhitespace t) = some m ∧
    (∀ c ∈ w, isWhitespace c = true) ∧ exec next m w = some m' := by
  obtain ⟨u, w, ht, hu, hw⟩ := trim_split isWhitespace t
  rw [ht, List.append_assoc, exec_continue (exec_spaces hu)] at h
  obtain ⟨m, hm, hrest⟩ := exec_append h
  exact ⟨m, w, hm, hw, hrest⟩

theorem Readable.trim (h : Readable t) : Readable (trim isWhitespace t) := by
  obtain ⟨m', hm'⟩ := h
  obtain ⟨m, -, hm, -⟩ := exec_trim hm'
  exact ⟨m, hm⟩

theorem Closed.trim (h : Closed t) : Closed (trim isWhitespace t) := by
  obtain ⟨m', hm', hbetween⟩ := h
  obtain ⟨m, w, hm, hw, hrest⟩ := exec_trim hm'
  exact ⟨m, hm, between_of_spaces hw hrest hbetween⟩

theorem Splits.trim (h : Splits pieces) : Splits (pieces.map (trim isWhitespace)) := by
  induction pieces with
  | nil => trivial
  | cons p ps ih =>
      obtain ⟨hread, hclosed, hrest⟩ := h
      refine ⟨hread.trim, fun hne => (hclosed ?_).trim, ih hrest⟩
      rintro rfl
      exact hne rfl

theorem Splits.filter (f : List Char → Bool) (h : Splits pieces) : Splits (pieces.filter f) := by
  induction pieces with
  | nil => trivial
  | cons p ps ih =>
      obtain ⟨hread, hclosed, hrest⟩ := h
      rw [List.filter_cons]
      split
      · refine ⟨hread, fun hne => hclosed ?_, ih hrest⟩
        rintro rfl
        exact hne rfl
      · exact ih hrest

theorem splitStatements_splits (sql : List Char) : Splits (splitStatements sql) :=
  have hscan : Splits (scanFrom .outside [] sql) := scan_splits rfl nofun
  hscan.trim.filter _

theorem scan_join {p : List Char} (h : Splits (p :: pieces)) : scan none [] ([';'].intercalate (p :: pieces)) = p :: pieces := by
  induction pieces generalizing p with
  | nil =>
      obtain ⟨⟨m, hm⟩, -⟩ := h
      have hscan := scanFrom_read [] [] hm fun _ h => by cases h
      rw [List.append_nil, scanFrom_nil] at hscan
      rw [List.intercalate_singleton]
      exact hscan
  | cons q pieces ih =>
      obtain ⟨-, hclosed, hrest⟩ := h
      obtain ⟨m, hm, hbetween⟩ := hclosed (List.cons_ne_nil q pieces)
      have hscan := scanFrom_read [] (';' :: [';'].intercalate (q :: pieces)) hm fun _ h => by cases h
      rw [scanFrom_between hbetween, scan_separator, ih hrest] at hscan
      rw [List.intercalate_cons_cons, List.append_assoc]
      exact hscan

theorem split_again (sql : List Char) : splitStatements ([';'].intercalate (splitStatements sql)) = splitStatements sql := by
  have htexts : ∀ p ∈ splitStatements sql, p ≠ [] ∧ Trimmed isWhitespace p := by
    intro p hp
    obtain ⟨hmem, hne⟩ := List.mem_filter.mp hp
    obtain ⟨raw, -, rfl⟩ := List.mem_map.mp hmem
    exact ⟨of_decide_eq_true hne, trimmed_trim isWhitespace raw⟩
  have hsplits := splitStatements_splits sql
  generalize splitStatements sql = pieces at htexts hsplits
  cases pieces with
  | nil =>
      rw [List.intercalate_nil, splitStatements, scan_nil]
      rfl
  | cons p pieces =>
      rw [splitStatements, scan_join hsplits, List.map_congr_left fun q hq => trim_trimmed (htexts q hq).2, List.map_id',
        List.filter_eq_self]
      intro q hq
      exact decide_eq_true (htexts q hq).1

end Again

/-- A script is split at its separators and nowhere else, and what the splitting gives,
whatever the text, is given again when it is joined and split once more. -/
theorem statements_split :
    (∀ segments : List Segment, splitStatements (script segments) = (segments.map Segment.stmt).filter (· ≠ [])) ∧
      ∀ sql, splitStatements ([';'].intercalate (splitStatements sql)) = splitStatements sql :=
  ⟨split_script, split_again⟩

/-- The dash at the end of a statement is taken for the start of the comment behind it. -/
theorem dash_lost : Sql ['a', '-'] ∧ Trimmed isWhitespace ['a', '-'] ∧ Gap ['-', '-', '\n'] ∧
    splitStatements (['a', '-'] ++ ['-', '-', '\n']) = [['a']] := by
  refine ⟨?_, ?_, ?_, ?_⟩
  · exact .plain rfl (by decide) (fun h => absurd h (by decide)) (.plain rfl (by decide) (fun _ h => by cases h) .nil)
  · constructor
    · rintro c ⟨⟩
      decide
    · rintro c ⟨⟩
      decide
  · exact @Gap.comment [] [] List.not_mem_nil .nil
  · have hscan : scan none [] ['a', '-', '-', '-', '\n'] = [['a', '\n']] := by
      rw [scan_plain rfl (by decide) (fun h => absurd h (by decide)), scan_comment, List.dropWhile_cons_of_pos (by decide),
        List.dropWhile_cons_of_neg (by decide), scan_plain rfl (by decide) (fun h => absurd h (by decide)), scan_nil]
      rfl
    rw [List.cons_append, List.singleton_append, splitStatements, hscan]
    decide

end NetWatch.Collector.SplitStatements
