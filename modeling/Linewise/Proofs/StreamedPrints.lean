/-
  What a streamed print writes.

  Operands that need no formatting are collected until another operand interrupts them:

      fmt.Println("x =", x, 1)     std::cout << "x =" << " ";
                                   _format_output(std::cout, x);
                                   std::cout << " " << 1 << std::endl;

  Read back, the statements give the operands in order, each sent the right way, with the spaces where
  the call has them.
-/
import Linewise.Proofs.Bindings
import Linewise.Proofs.HeaderLine

namespace Linewise

open Text List Lexer

variable {c : Char} {a s : Text} {operands run : List Text} {l : Lexer} {base : Nat} {ps : List Piece}

/-! ## 1. Calls and what they write -/

/-- The families of printing functions that stream their operands. -/
inductive StreamPrint.Family where
  | standard
  | builtin
  /-- the first operand names the sink -/
  | writer
  deriving DecidableEq, Repr

/-- A printing function that streams: its family, and whether it ends the line. -/
structure StreamPrint where
  family : StreamPrint.Family
  line : Bool
  deriving DecidableEq, Repr

namespace StreamPrint

/-- The name that the calls of a family share. -/
def Family.name : Family → Text
  | standard => "fmt.Print"
  | builtin => "print"
  | writer => "fmt.Fprint"

/-- The name of the call. -/
def name (p : StreamPrint) : Text := p.family.name ++ if p.line then "ln" else ""

/-- A space is written between these neighbours. -/
def spaces (p : StreamPrint) (left right : Text) : Bool :=
  p.line || p.family != .builtin && !isStringLiteral left && !isStringLiteral right

/-- How an operand is sent: a string or a number written out as it stands, all else formatted. -/
def sent (operand : Text) : Piece :=
  if isStringLiteral operand || Number.isNumber operand then .direct operand else .formatted operand

/-- What the call writes. -/
def output (p : StreamPrint) : List Text → List Piece
  | [] => if p.line then [.direct "std::endl"] else []
  | [a] => sent a :: p.output []
  | a :: b :: rest => sent a :: ((if p.spaces a b then [.direct "\" \""] else []) ++ p.output (b :: rest))

/-- The sink of a call and its operands, from the parts between its parentheses. -/
inductive Routes : Family → List Text → Sink → List Text → Prop
  | standard (operands : List Text) : Routes .standard operands .out operands
  | builtin (operands : List Text) : Routes .builtin operands .err operands
  | stdout (operands : List Text) : Routes .writer ("os.Stdout".toList :: operands) .out operands
  | stderr (operands : List Text) : Routes .writer ("os.Stderr".toList :: operands) .err operands

/-- The line is a call of the function: its first parenthesis is closed by its last character. -/
structure Calls (p : StreamPrint) (sink : Sink) (operands : List Text) (head inside : Text) : Prop where
  function : trim head = p.name
  closed : enclosed? ('(' :: (inside ++ [')'])) = some (inside, [])
  routes : Routes p.family (splitTop ',' inside) sink operands

end StreamPrint

/-! ## 2. Reading statements back -/

/-- The parts between the insertion signs outside literals. -/
def Lexer.insertions (l : Lexer) : Text → List Text
  | [] => [[]]
  | ' ' :: '<' :: '<' :: ' ' :: r =>
    if l.mode == .code then [] :: (l.run " << ").insertions r
    else onHead ' ' ((l.step ' ').insertions ('<' :: '<' :: ' ' :: r))
  | c :: r => onHead c ((l.step c).insertions r)

namespace Sink

/-- What one statement sends to the sink. -/
def read? (sink : Sink) (statement : Text) : Option (List Piece) :=
  match (stripStart? ("_format_output(" ++ sink.stream ++ ", ") statement).bind (stripEnd? ");") with
  | some expr => some [.formatted expr]
  | none => do
    let insertions ← (stripStart? (sink.stream ++ " << ") statement).bind (stripEnd? ";")
    return (start.insertions insertions).map .direct

/-- What statements send to the sink, one after the other. -/
def readAll? (sink : Sink) : List Text → Option (List Piece)
  | [] => some []
  | statement :: rest => do return (← sink.read? statement) ++ (← sink.readAll? rest)

end Sink

/-! ## 3. Operands sent as they stand -/

namespace Number

/-- What no number has: a space or a quote. -/
def isForeign (c : Char) : Bool := c == ' ' || isQuote c

theorem isForeign_cases (h : isForeign c = true) : c ∈ (" \"'\x60" : Text) := by
  simpa [isForeign, isQuote, or_assoc] using h

theorem digit?_foreign (h : isForeign c = true) (base : Nat) : digit? base c = none := by
  have hall : ∀ c ∈ (" \"'\x60" : Text), c.isDigit = false ∧ ¬('a' ≤ c ∧ c ≤ 'z') ∧ ¬('A' ≤ c ∧ c ≤ 'Z') := by
    decide
  obtain ⟨hdigit, hlower, hupper⟩ := hall c (isForeign_cases h)
  simp [digit?, hdigit, hlower, hupper]

theorem foreign_ne (h : isForeign c = true) : c.isDigit = false ∧ c ∉ ("0eE+-._xXbBoO" : Text) := by
  have hall : ∀ c ∈ (" \"'\x60" : Text), c.isDigit = false ∧ c ∉ ("0eE+-._xXbBoO" : Text) := by decide
  exact hall c (isForeign_cases h)

section Foreign

variable (hc : isForeign c = true)

include hc

theorem not_mem_of_natFrom? : ∀ {s : Text} {acc : Nat}, (natFrom? base acc s).isSome = true → c ∉ s := by
  intro s
  induction s with
  | nil => exact fun _ => not_mem_nil
  | cons d s ih =>
    intro acc h
    rw [natFrom?] at h
    cases hd : digit? base d with
    | none =>
      rw [hd] at h
      cases h
    | some v =>
      rw [hd] at h
      refine not_mem_cons_of_ne_of_not_mem (fun e => ?_) (ih h)
      rw [← e, digit?_foreign hc] at hd
      cases hd

theorem not_mem_of_nat? (h : (nat? base s).isSome = true) : c ∉ s := by
  unfold nat? at h
  split at h
  · cases h
  · exact not_mem_of_natFrom? hc h

theorem not_mem_of_digits (h : s.all Char.isDigit = true) : c ∉ s := fun hm =>
  Bool.eq_false_iff.mp (foreign_ne hc).1 (all_eq_true.mp h c hm)

theorem not_mem_cons_mark {d : Char} (hd : d ∈ ("0eE+-._xXbBoO" : Text)) (h : c ∉ s) : c ∉ d :: s :=
  not_mem_cons_of_ne_of_not_mem (fun e => (foreign_ne hc).2 (e ▸ hd)) h

theorem not_mem_of_int64? (h : (int64? base s).isSome = true) : c ∉ s := by
  have hread {p : Nat → Bool} {f : Nat → Int} {d : Text} (h : (((nat? base d).filter p).map f).isSome = true) :
      c ∉ d := by
    have hsome : (nat? base d).isSome = true := by
      cases hd : nat? base d with
      | none => simp [hd] at h
      | some n => rfl
    exact not_mem_of_nat? hc hsome
  unfold int64? at h
  split at h
  · exact not_mem_cons_mark hc (by decide) (hread h)
  · exact not_mem_cons_mark hc (by decide) (hread h)
  · exact hread h

theorem not_mem_of_isExponent (h : isExponent s = true) : c ∉ s := by
  cases s with
  | nil => exact not_mem_nil
  | cons e r =>
    simp only [isExponent, Bool.and_eq_true, Bool.or_eq_true, beq_iff_eq] at h
    obtain ⟨he, _, hall⟩ := h
    refine not_mem_cons_mark hc (by rcases he with rfl | rfl <;> decide) ?_
    split at hall
    · exact not_mem_cons_mark hc (by decide) (not_mem_of_digits hc hall)
    · exact not_mem_cons_mark hc (by decide) (not_mem_of_digits hc hall)
    · exact not_mem_of_digits hc hall

theorem not_mem_of_isDecimal (h : isDecimal s = true) : c ∉ s := by
  have hrest {d : Text} (h : c ∉ d.dropWhile Char.isDigit) : c ∉ d := by
    rw [← takeWhile_append_dropWhile (l := d)]
    exact not_mem_append (not_mem_of_digits hc all_takeWhile) h
  refine hrest ?_
  unfold isDecimal at h
  split at h
  · rename_i r heq
    rw [heq]
    exact not_mem_cons_mark hc (by decide) (hrest (not_mem_of_isExponent hc (Bool.and_eq_true_iff.mp h).2))
  · exact not_mem_of_isExponent hc (Bool.and_eq_true_iff.mp h).2

theorem not_mem_of_radix? {d : Text} (hr : radix? s = some (base, d)) (h : c ∉ d) : c ∉ s := by
  unfold radix? at hr
  split at hr
  · rename_i e r
    have hhead (he : e ∈ ("xXbBoO" : Text)) (hd : r = d) : c ∉ '0' :: e :: r := by
      have hall : ∀ e ∈ ("xXbBoO" : Text), e ∈ ("0eE+-._xXbBoO" : Text) := by decide
      exact not_mem_cons_mark hc (by decide) (not_mem_cons_mark hc (hall e he) (hd ▸ h))
    grind
  · cases hr

theorem not_mem_of_isNumber (h : isNumber s = true) : c ∉ trim s := by
  have hmagnitude : c ∉ magnitude s := by
    have h := (Bool.and_eq_true_iff.mp h).2
    split at h
    · rename_i hr
      exact not_mem_of_radix? hc hr (not_mem_of_int64? hc h)
    · exact not_mem_of_isDecimal hc h
  have hfilter : c ∉ (trim s).filter (· != '_') := by
    unfold magnitude at hmagnitude
    split at hmagnitude
    · rename_i heq
      exact heq ▸ not_mem_cons_mark hc (by decide) hmagnitude
    · rename_i heq
      exact heq ▸ not_mem_cons_mark hc (by decide) hmagnitude
    · exact hmagnitude
  have hne : c ≠ '_' := fun e => (foreign_ne hc).2 (e ▸ by decide)
  exact fun hm => hfilter (mem_filter.mpr ⟨hm, by simpa using hne⟩)

end Foreign

end Number

namespace Lexer

/-- Every space lies in a literal, and no literal is left open. -/
def compact (l : Lexer) : Text → Bool
  | [] => l.mode == .code
  | c :: r => (l.mode != .code || c != ' ') && (l.step c).compact r

theorem Anew.compact_eq (h : l.Anew s) : l.compact s = start.compact s := by
  cases s with
  | nil =>
    rw [compact, h.mode]
    rfl
  | cons c r =>
    rw [compact, h.mode, h.step_eq]
    rfl

theorem mode_of_compact (h : l.compact s = true) : (l.run s).mode = .code := by
  induction s generalizing l with
  | nil => exact beq_iff_eq.mp h
  | cons c r ih => exact ih (Bool.and_eq_true_iff.mp h).2

theorem compact_of_fills (hl : l.inLiteral = true) (h : l.fills true s = true) : l.compact s = true := by
  induction s generalizing l with
  | nil => cases h
  | cons c r ih =>
    have hmode : (l.mode != .code) = true := hl
    rw [compact, hmode, Bool.true_or, Bool.true_and]
    rw [fills] at h
    split at h
    · rename_i hin
      exact ih hin h
    · rename_i hout
      rw [if_pos rfl, List.isEmpty_iff] at h
      rw [h]
      simpa [inLiteral, compact] using hout

theorem compact_of_isStringLiteral (h : isStringLiteral s = true) (hs : trim s = s) : start.compact s = true := by
  unfold isStringLiteral at h
  simp only [hs, Bool.and_eq_true, Bool.or_eq_true] at h
  obtain ⟨⟨_, (hquote | hquote) | hquote⟩, hfills⟩ := h
  · obtain ⟨r, rfl⟩ := startsWith_iff.mp hquote
    exact compact_of_fills (l := start.step '"') rfl hfills
  · obtain ⟨r, rfl⟩ := startsWith_iff.mp hquote
    exact compact_of_fills (l := start.step '\x60') rfl hfills
  · obtain ⟨r, rfl⟩ := startsWith_iff.mp hquote
    exact compact_of_fills (l := start.run "R\"(") rfl hfills

theorem compact_of_not_mem (h : ∀ c ∈ s, Number.isForeign c = false) (hl : l.mode = .code) : l.compact s = true := by
  induction s generalizing l with
  | nil => exact beq_iff_eq.mpr hl
  | cons c r ih =>
    have hc := Bool.or_eq_false_iff.mp (h c mem_cons_self)
    have hspace : (c != ' ') = true := by rw [bne, hc.1, Bool.not_false]
    rw [compact, hspace, Bool.or_true, Bool.true_and]
    exact ih (forall_mem_cons.mp h).2 (step_mode_of_isCode (isCode_of_mode hl hc.2))

theorem compact_of_isDirect (h : isDirect a = true) (ha : trim a = a) : start.compact a = true := by
  rcases Bool.or_eq_true_iff.mp h with h | h
  · exact compact_of_isStringLiteral h ha
  · refine compact_of_not_mem (fun c hc => Bool.eq_false_iff.mpr fun hf => ?_) rfl
    exact Number.not_mem_of_isNumber hf h (ha.symm ▸ hc)

/-! ## 4. Insertions -/

theorem insertions_cons (h : l.mode ≠ .code ∨ c ≠ ' ') (s : Text) :
    l.insertions (c :: s) = onHead c ((l.step c).insertions s) := by
  rw [insertions.eq_def]
  split
  · rename_i heq
    cases heq
  · rename_i heq
    obtain ⟨rfl, rfl⟩ := cons.inj heq
    rw [if_neg (by simpa using h)]
  · rename_i heq
    obtain ⟨rfl, rfl⟩ := cons.inj heq
    rfl

theorem foldr_onHead (a p : Text) (ps : List Text) : a.foldr onHead (p :: ps) = (a ++ p) :: ps := by
  induction a with
  | nil => rfl
  | cons c a ih =>
    rw [foldr_cons, ih]
    rfl

theorem insertions_append (h : l.compact a = true) (s : Text) :
    l.insertions (a ++ s) = a.foldr onHead ((l.run a).insertions s) := by
  induction a generalizing l with
  | nil => rfl
  | cons c a ih =>
    obtain ⟨hc, ha⟩ := Bool.and_eq_true_iff.mp h
    rw [cons_append, insertions_cons (by simpa using hc), ih ha]
    rfl

theorem fresh_run_insertion (h : l.mode = .code) : (l.run " << ").Fresh := by
  obtain ⟨mode, last⟩ := l
  cases h
  exact ⟨rfl, (by decide : ' ' ≠ 'R')⟩

theorem insertions_joinWith (hrun : ∀ a ∈ run, start.compact a = true) (hne : run ≠ [])
    (hl : l.Fresh) : l.insertions (joinWith " << " run) = run := by
  induction run generalizing l with
  | nil => exact absurd rfl hne
  | cons a run ih =>
    have ha : l.compact a = true := hl.anew.compact_eq.trans (hrun a mem_cons_self)
    have hmode := mode_of_compact ha
    cases run with
    | nil =>
      rw [joinWith_singleton, ← append_nil a, insertions_append ha]
      exact foldr_onHead a [] []
    | cons b run =>
      have hrest := ih (forall_mem_cons.mp hrun).2 (cons_ne_nil _ _)
        (fresh_run_insertion hmode)
      have hsign (s : Text) : (l.run a).insertions (" << " ++ s) = [] :: ((l.run a).run " << ").insertions s := by
        show insertions (l.run a) (' ' :: '<' :: '<' :: ' ' :: s) = _
        rw [insertions, hmode]
        rfl
      rw [joinWith_cons_cons, insertions_append ha, hsign, hrest, foldr_onHead, append_nil]

end Lexer

/-! ## 5. Statements -/

/-- The text that a piece sends. -/
def Piece.text : Piece → Text
  | direct text => text
  | formatted expr => expr

/-- A piece that is sent as it stands can be read back from among others. -/
def Piece.Legible : Piece → Prop
  | direct text => start.compact text = true
  | formatted _ => True

namespace Sink

theorem readAll?_cons {statement : Text} {rest : List Text} {qs : List Piece} {sink : Sink}
    (h : sink.read? statement = some ps) (hrest : sink.readAll? rest = some qs) :
    sink.readAll? (statement :: rest) = some (ps ++ qs) := by
  rw [readAll?, h, hrest]
  rfl

variable (sink : Sink)

theorem read?_formatted (expr : Text) :
    sink.read? ("_format_output(" ++ sink.stream ++ ", " ++ expr ++ ");") = some [.formatted expr] := by
  unfold read?
  rw [append_assoc (_ ++ _), stripStart?_append, Option.bind_some, stripEnd?_append]

theorem read?_insertions (hrun : ∀ a ∈ run, start.compact a = true) (hne : run ≠ []) :
    sink.read? (sink.stream ++ " << " ++ joinWith " << " run ++ ";") = some (run.map .direct) := by
  have hcall (rest : Text) :
      stripStart? ("_format_output(" ++ sink.stream ++ ", ") (sink.stream ++ " << " ++ rest) = none := by
    cases sink <;> rfl
  unfold read?
  rw [append_assoc (_ ++ _), hcall, stripStart?_append, Option.bind_some, stripEnd?_append]
  show some ((start.insertions (joinWith " << " run)).map Piece.direct) = _
  rw [insertions_joinWith hrun hne fresh_start]

theorem readAll?_flush {rest : List Text} {qs : List Piece} (hrun : ∀ a ∈ run, start.compact a = true)
    (hrest : sink.readAll? rest = some qs) :
    sink.readAll? (flush sink.stream run ++ rest) = some (run.map .direct ++ qs) := by
  unfold flush
  split
  · rename_i hnil
    rw [isEmpty_iff.mp hnil]
    exact hrest
  · rename_i hne
    exact readAll?_cons (sink.read?_insertions hrun (by simpa using hne)) hrest

/-- The statements for pieces send these pieces. -/
theorem readAll?_streamStatements (hps : ∀ q ∈ ps, q.Legible) (run : List Text)
    (hrun : ∀ a ∈ run, start.compact a = true) :
    sink.readAll? (streamStatements sink.stream run ps) = some (run.map .direct ++ ps) := by
  induction ps generalizing run with
  | nil =>
    rw [streamStatements, ← append_nil (flush _ _)]
    exact sink.readAll?_flush hrun rfl
  | cons q ps ih =>
    have ih := ih (forall_mem_cons.mp hps).2
    cases q with
    | direct text =>
      have htext : start.compact text = true := hps _ mem_cons_self
      rw [streamStatements, ih (run ++ [text]) fun a ha => ?_]
      · simp
      · rcases mem_append.mp ha with ha | ha
        · exact hrun a ha
        · rwa [mem_singleton.mp ha]
    | formatted expr =>
      exact sink.readAll?_flush hrun (readAll?_cons (sink.read?_formatted expr) (ih [] (forall_mem_nil _)))

theorem newline_not_mem_stream : '\n' ∉ sink.stream := by
  cases sink <;> decide

theorem newline_not_mem_streamStatements (hps : ∀ q ∈ ps, '\n' ∉ q.text) (run : List Text)
    (hrun : ∀ a ∈ run, '\n' ∉ a) : ∀ t ∈ streamStatements sink.stream run ps, '\n' ∉ t := by
  have hstream := sink.newline_not_mem_stream
  have hflush {run : List Text} (hrun : ∀ a ∈ run, '\n' ∉ a) : ∀ t ∈ flush sink.stream run, '\n' ∉ t := by
    intro t ht
    unfold flush at ht
    split at ht
    · cases ht
    · rw [mem_singleton.mp ht]
      exact not_mem_append (not_mem_append (not_mem_append hstream (by decide))
        (newline_not_mem_joinWith (by decide) hrun)) (by decide)
  induction ps generalizing run with
  | nil => exact hflush hrun
  | cons q ps ih =>
    intro t ht
    have ih := ih (forall_mem_cons.mp hps).2
    have hq := hps q mem_cons_self
    cases q with
    | direct text =>
      refine ih _ (fun a ha => ?_) t ht
      rcases mem_append.mp ha with ha | ha
      · exact hrun a ha
      · rwa [mem_singleton.mp ha]
    | formatted expr =>
      have hexpr : '\n' ∉ expr := hq
      rcases mem_append.mp ht with ht | ht
      · exact hflush hrun t ht
      · rcases mem_cons.mp ht with rfl | ht
        · simp [hstream, hexpr]
        · exact ih [] nofun t ht

end Sink

/-! ## 6. Calls -/

namespace StreamPrint

variable {p : StreamPrint}

/-- Where a family writes, if it does not say so itself. -/
def Family.sink? : Family → Option Sink
  | standard => some .out
  | builtin => some .err
  | writer => none

/-- Where spaces go between the operands. -/
def spacing (p : StreamPrint) : Spacing :=
  if p.line then .always else if p.family = .builtin then .never else .betweenNonStrings

theorem lookup_name (p : StreamPrint) : printers.lookup p.name = some (.stream p.family.sink? p.spacing p.line) := by
  obtain ⟨family, line⟩ := p
  cases family <;> cases line <;> rfl

theorem separates_spacing (left right : Text) : p.spacing.separates left right = p.spaces left right := by
  obtain ⟨family, line⟩ := p
  cases family <;> cases line <;> rfl

theorem output_eq (operands : List Text) :
    p.spacing.piecesAfter none operands ++ (if p.line then [.direct "std::endl"] else []) = p.output operands := by
  have hafter (a : Text) (rest : List Text) :
      sent a :: (p.spacing.piecesAfter (some a) rest ++ if p.line then [.direct "std::endl"] else [])
        = p.output (a :: rest) := by
    induction rest generalizing a with
    | nil => rfl
    | cons b rest ih =>
      rw [output, ← ih b, Spacing.piecesAfter, Option.any_some, separates_spacing, append_assoc]
      rfl
  cases operands with
  | nil => rfl
  | cons a rest => exact hafter a rest

theorem mem_output {q : Piece} (h : q ∈ p.output operands) :
    q ∈ [.direct "\" \"", .direct "std::endl"] ∨ ∃ a ∈ operands, q = sent a := by
  have hend (h : q ∈ p.output []) : q ∈ [.direct "\" \"", .direct "std::endl"] := by
    unfold output at h
    split at h
    · exact mem_cons_of_mem _ h
    · cases h
  induction operands with
  | nil => exact .inl (hend h)
  | cons a rest ih =>
    cases rest with
    | nil =>
      rcases mem_cons.mp h with rfl | h
      · exact .inr ⟨a, mem_cons_self, rfl⟩
      · exact .inl (hend h)
    | cons b rest =>
      rcases mem_cons.mp h with rfl | h
      · exact .inr ⟨a, mem_cons_self, rfl⟩
      · rcases mem_append.mp h with h | h
        · split at h
          · exact .inl (mem_singleton.mp h ▸ mem_cons_self)
          · cases h
        · exact (ih h).imp_right fun ⟨x, hx, e⟩ => ⟨x, mem_cons_of_mem _ hx, e⟩

theorem legible_sent (ha : trim a = a) : (sent a).Legible := by
  unfold sent
  split
  · rename_i h
    exact compact_of_isDirect h ha
  · trivial

theorem text_sent (a : Text) : (sent a).text = a := by
  unfold sent
  split <;> rfl

theorem Routes.subset {parts : List Text} {sink : Sink} {family : Family} (h : Routes family parts sink operands) :
    operands ⊆ parts := by
  cases h with
  | standard | builtin => exact Subset.refl _
  | stdout | stderr => exact subset_cons_self _ _

theorem not_mem_of_trim {head : Text} (h : trim head = p.name) : '(' ∉ head := fun hm => by
  have hname : '(' ∉ p.name := by
    obtain ⟨family, line⟩ := p
    cases family <;> cases line <;> decide
  exact hname (h ▸ mem_trim_of_solid hm rfl)

end StreamPrint

theorem Lower.run_printStream (sink : Sink) (spacing : Spacing) (newline : Bool) (operands : List Text) (s : State) :
    (Lower.printStream sink spacing newline operands).run s =
      let pieces := spacing.piecesAfter none operands ++ (if newline then [.direct "std::endl"] else [])
      .ok (if pieces.isEmpty then .dropped else .line (unlines (streamStatements sink.stream [] pieces)))
        { s with needsPrettyPrint := s.needsPrettyPrint || operands.any (!isDirect ·) } := by
  unfold printStream
  rw [any_eq_not_all_not]
  simp only [Bool.not_not]
  cases operands.all isDirect with
  | true =>
    simp only [Bool.not_true, Bool.or_false]
    rfl
  | false =>
    simp only [Bool.not_false, Bool.or_true]
    rfl

theorem StreamPrint.Calls.print_eq {p : StreamPrint} {sink : Sink} {head inside : Text}
    (h : p.Calls sink operands head inside) :
    Lower.print (head ++ '(' :: (inside ++ [')'])) = Lower.printStream sink p.spacing p.line operands := by
  have hat : (head ++ '(' :: (inside ++ [')'])).idxOf? '(' = some head.length := by
    refine idxOf?_eq_some_iff.mpr ⟨by simp, by simp, fun j hj e => not_mem_of_trim h.function ?_⟩
    rw [getElem_append_left hj] at e
    exact e ▸ getElem_mem hj
  obtain ⟨family, line⟩ := p
  unfold Lower.print
  simp only [hat, drop_left, take_left, h.closed, h.function, Lower.printCall, lookup_name]
  generalize hparts : splitTop ',' inside = parts
  have hroutes := h.routes
  rw [hparts] at hroutes
  cases hroutes <;> rfl

/-- **A streamed print writes its operands once, in order and with the spaces of the call.** Its
    statements, read back, send to the sink what the call writes; nothing else of the state changes than
    that the formatting of values may be needed. Without a newline between the parentheses the
    statements are the lines of the text. -/
theorem streamed_print {p : StreamPrint} {sink : Sink} {head inside : Text}
    (h : p.Calls sink operands head inside) (s : State) :
    ∃ statements,
      (Lower.print (head ++ '(' :: (inside ++ [')']))).run s
        = .ok (if statements = [] then .dropped else .line (unlines statements))
            { s with needsPrettyPrint :=
                s.needsPrettyPrint || operands.any fun a => !(isStringLiteral a || Number.isNumber a) } ∧
      sink.readAll? statements = some (p.output operands) ∧
      ('\n' ∉ inside → statements ≠ [] → pieces (· == '\n') (unlines statements) = statements) := by
  have hmem : ∀ a ∈ operands, a ∈ splitTop ',' inside := fun a ha => h.routes.subset ha
  have hlegible : ∀ q ∈ p.output operands, q.Legible := by
    intro q hq
    rcases StreamPrint.mem_output hq with hq | ⟨a, ha, rfl⟩
    · have hfixed : ∀ t ∈ (["\" \"", "std::endl"] : List String), Lexer.start.compact t = true := by decide
      simp only [mem_cons, not_mem_nil, or_false] at hq
      rcases hq with rfl | rfl
      · exact hfixed _ (by decide)
      · exact hfixed _ (by decide)
    · exact StreamPrint.legible_sent (trim_of_mem_splitTop (hmem a ha))
  have hread := sink.readAll?_streamStatements hlegible [] nofun
  refine ⟨streamStatements sink.stream [] (p.output operands), ?_, hread, fun hline hne => ?_⟩
  · rw [h.print_eq, Lower.run_printStream, StreamPrint.output_eq]
    cases hout : p.output operands with
    | nil => rfl
    | cons q ps =>
      have hne : streamStatements sink.stream [] (q :: ps) ≠ [] := fun hnil => by
        rw [hout, hnil] at hread
        cases hread
      rw [if_neg hne]
      rfl
  · refine pieces_unlines hne (sink.newline_not_mem_streamStatements (fun q hq => ?_) [] nofun)
    rcases StreamPrint.mem_output hq with hq | ⟨a, ha, rfl⟩
    · simp only [mem_cons, not_mem_nil, or_false] at hq
      rcases hq with rfl | rfl <;> decide
    · rw [StreamPrint.text_sent]
      exact fun hm => hline ((infix_of_mem_splitTop (hmem a ha)).subset hm)

/-- An insertion sign in a string, and an operand that interrupts the run. -/
theorem streamed_print_interrupted : ∃ statements,
    (Lower.print "fmt.Fprintln(os.Stderr, \"x << y\", x, 1)").run {}
      = .ok (if statements = [] then .dropped else .line (unlines statements)) { needsPrettyPrint := true } ∧
    Sink.err.readAll? statements = some [.direct "\"x << y\"", .direct "\" \"", .formatted "x", .direct "\" \"",
      .direct "1", .direct "std::endl"] := by
  have hcalls : StreamPrint.Calls ⟨.writer, true⟩ .err ["\"x << y\"", "x", "1"] "fmt.Fprintln"
      "os.Stderr, \"x << y\", x, 1" := ⟨by decide, by decide, .stderr _⟩
  obtain ⟨statements, hrun, hread, _⟩ := streamed_print hcalls {}
  exact ⟨statements, hrun, hread⟩

end Linewise
