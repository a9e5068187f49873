/-
  A function with its body on the line of its signature.

  Such a line is read as a declaration: the signature is kept, the body is not.
-/
import Linewise.Proofs.PlainLine
import Linewise.Proofs.Kind
import Linewise.Proofs.Signatures

namespace Linewise

open Text Signature

/-! ## 1. Functions on one line -/

/-- A signature and a body that is not blank, each well nested. -/
structure InlineFunction where
  name : Ident
  params : Text
  results : Text
  body : Text
  params_wellNested : WellNested params
  results_wellNested : WellNested results
  body_wellNested : WellNested body
  body_notBlank : isAllBlank body = false

namespace InlineFunction

/-- The signature. -/
def head (f : InlineFunction) : Text := headText f.name f.params f.results

/-- The line up to the end of the body. -/
def code (f : InlineFunction) : Text := f.head ++ '{' :: (f.body ++ "\x7d")

theorem parse_code (f : InlineFunction) : parse f.code = parse f.head :=
  parse_body f.name f.params_wellNested f.results_wellNested _

theorem wellNested_head (f : InlineFunction) : WellNested f.head := by
  have hfunc : WellNested ("func " ++ f.name.text) := Bare.wellNested
    (Bare.append (by decide) (bare_of_isIdentifier f.name.valid))
  have hparams : WellNested ('(' :: (f.params ++ [')'])) := f.params_wellNested.bracketed rfl
  have hrest : WellNested ('(' :: (f.params ++ [')']) ++ f.results) :=
    hparams.join f.results_wellNested (.inl (by simp [List.getLast?_cons]))
  have hsplit : f.head = ("func " ++ f.name.text) ++ ('(' :: (f.params ++ [')']) ++ f.results) := by
    show headText f.name f.params f.results = _
    rw [Signature.headText_eq]
    simp
  rw [hsplit]
  exact hfunc.join hrest (joins_of_head (by decide) _ _)

theorem wellNested_code (f : InlineFunction) : WellNested f.code :=
  f.wellNested_head.join (f.body_wellNested.bracketed rfl) (joins_of_head (by decide) _ _)

theorem code_eq (f : InlineFunction) :
    ∃ rest, f.code = "func " ++ (f.name.text ++ '(' :: rest) :=
  ⟨f.params ++ ')' :: (f.results ++ '{' :: (f.body ++ "\x7d")), headText_append ..⟩

theorem code_ne_nil (f : InlineFunction) : f.code ≠ [] := by
  obtain ⟨rest, hrest⟩ := f.code_eq
  rw [hrest]
  nofun

theorem not_endsWith_brace (f : InlineFunction) : endsWith f.code "\x7b" = false :=
  f.wellNested_code.not_endsWith rfl

end InlineFunction

/-! ## 2. How the line is read -/

theorem StatementKind.ofCode_func (name : Ident) {rest : Text}
    (hlast : endsWith ("func " ++ (name.text ++ '(' :: rest)) "(" = false) :
    ofCode ("func " ++ (name.text ++ '(' :: rest)) = .functionSignature := by
  have hword : firstWord ("func " ++ (name.text ++ '(' :: rest)) = "func" :=
    firstWord_append (w := "func") (r := ' ' :: (name.text ++ '(' :: rest)) (by decide) fun c hc => by
      obtain rfl : ' ' = c := Option.some.inj hc
      decide
  have hreceiver : startsWith ("func " ++ (name.text ++ '(' :: rest)) "func (" = false := by
    have hround : startsWith (name.text ++ '(' :: rest) "(" = false := not_startsWith_identifier name.valid rfl _
    exact hround
  unfold ofCode ofFirstWord?
  rw [groupOpener?_eq_none hlast]
  dsimp only
  rw [hword, hreceiver]
  rfl

theorem InlineFunction.classify_eq (f : InlineFunction) {s : State} (hblock : s.block? = none) :
    s.classify f.code = .functionSignature := by
  obtain ⟨rest, hrest⟩ := f.code_eq
  have hempty : f.code.isEmpty = false := by rw [hrest]; rfl
  have hcomment : startsWith f.code "//" = false := by rw [hrest]; rfl
  have hclosure : s.closesClosure f.code s.depth = false := by rw [hrest]; rfl
  have hkind : StatementKind.ofCode f.code = .functionSignature := by
    have hlast : endsWith f.code "(" = false := f.wellNested_code.not_endsWith rfl
    rw [hrest] at hlast ⊢
    exact StatementKind.ofCode_func f.name hlast
  unfold State.classify
  rw [hempty, hblock, hcomment, hclosure, hkind]
  rfl

theorem State.notices_define (s : State) (sig : Signature) : (s.define sig).notices = s.notices := by
  obtain ⟨known, hknown, _⟩ := s.registerParams_knownMaps sig.params
  rw [State.define, hknown]

theorem State.depth_define (s : State) (sig : Signature) : (s.define sig).depth = s.depth := by
  obtain ⟨known, hknown, _⟩ := s.registerParams_knownMaps sig.params
  rw [State.define, hknown]

theorem Run.codeLine_inline (f : InlineFunction) (r : Run) (hblock : r.state.block? = none) (indent : Text)
    (comment : Option Text) :
    r.codeLine indent f.code comment false = .ok { r with
      state := (State.define { r.state with depthBefore := r.state.depth } (parse f.head)).noteOpener
        r.output.length
      output := r.output ++ layout indent false (some (terminate (parse f.head).cpp)) comment
      firstFunction := r.firstFunction.or (some r.output.length) } := by
  have hcount : r.state.countBraces f.code = { r.state with depthBefore := r.state.depth } := by
    unfold State.countBraces
    rw [f.wellNested_code.braceDepth_eq]
  have hkind : (r.state.countBraces f.code).classify f.code = .functionSignature := by
    rw [hcount]
    exact f.classify_eq hblock
  have hrun := functionDefinition_eq f.code (r.state.countBraces f.code)
  rw [f.parse_code, f.not_endsWith_brace] at hrun
  unfold Run.codeLine
  dsimp only
  rw [hkind, show Lower.line .functionSignature f.code = Lower.functionDefinition f.code from rfl, hrun, hcount]
  rfl

/-! ## 3. The body -/

/-- **A body on the line of its signature is dropped.** Outside every block the line becomes the
    declaration of the function, under its indentation and with its comment, and there is no notice
    about it. The function counts as under way although the line has ended its body. Any other body
    behind the same signature gives the same run. -/
theorem inlineBody_dropped (f : InlineFunction) (r : Run) (number : Nat) {line : Text} {comment : Option Text}
    (hline : lineParts? line = some (f.code, comment)) (hpending : r.pending = none)
    (hblock : r.state.block? = none) :
    (∃ s, r.sourceLine number line = .ok { r with
        state := s
        output := r.output ++
          layout (indentation line) false (some (terminate (parse f.head).cpp)) comment
        firstFunction := r.firstFunction.or (some r.output.length) } ∧
      s.notices = r.state.notices ∧ s.depth = r.state.depth ∧
      s.function = some ⟨(parse f.head).name, (parse f.head).results.map cppType,
        r.state.depth⟩) ∧
    ∀ (g : InlineFunction) (other : Text), g.head = f.head → indentation other = indentation line →
      lineParts? other = some (g.code, comment) → r.sourceLine number other = r.sourceLine number line := by
  have hcomment : r.state.block? ≠ some .blockComment := by
    rw [hblock]
    nofun
  have hsource : ∀ (g : InlineFunction) (other : Text), lineParts? other = some (g.code, comment) →
      r.sourceLine number other = .ok { r with
        state := (State.define { r.state with lineNumber := number, depthBefore := r.state.depth }
          (parse g.head)).noteOpener r.output.length
        output := r.output ++
          layout (indentation other) false (some (terminate (parse g.head).cpp)) comment
        firstFunction := r.firstFunction.or (some r.output.length) } := by
    intro g other hother
    rw [Run.sourceLine_parts number hother g.code_ne_nil hpending hcomment]
    exact Run.codeLine_inline g { r with state := { r.state with lineNumber := number } } hblock _ comment
  refine ⟨⟨_, hsource f line hline, ?_, ?_, rfl⟩, ?_⟩
  · rw [State.noteOpener, State.notices_define]
  · rw [State.noteOpener, State.depth_define]
  · intro g other hhead hindent hother
    rw [hsource g other hother, hsource f line hline, hhead, hindent]

/-! ## 4. A body that is lost -/

/-- A function of one statement. -/
def oneLineSum : InlineFunction where
  name := ⟨"add", rfl⟩
  params := "a, b int"
  results := " int "
  body := " return a + b "
  params_wellNested := by decide
  results_wellNested := by decide
  body_wellNested := by decide
  body_notBlank := rfl

theorem inlineBody_dropped_oneLineSum :
    lineParts? "func add(a, b int) int \x7b return a + b \x7d" = some (oneLineSum.code, none) ∧
      ∃ s, (Run.sourceLine {} 2 "func add(a, b int) int \x7b return a + b \x7d") = .ok {
          state := s, output := ["auto add(int a, int b) -> int;"], firstFunction := some 0 } ∧ s.notices = [] := by
  have hparts : lineParts? "func add(a, b int) int \x7b return a + b \x7d" = some (oneLineSum.code, none) := by
    decide +kernel
  have hlayout : layout (indentation "func add(a, b int) int \x7b return a + b \x7d") false
      (some (terminate (parse oneLineSum.head).cpp)) none = ["auto add(int a, int b) -> int;"] := by
    decide +kernel
  obtain ⟨⟨s, hrun, hnotices, _⟩, _⟩ := inlineBody_dropped oneLineSum {} 2 hparts rfl rfl
  refine ⟨hparts, s, ?_, hnotices⟩
  rw [hrun, hlayout]
  rfl

/-- The whole program for this function: two declarations, nothing of what it returns, and no notice. -/
theorem oneLineSum_lost :
    (lower "package main\nfunc add(a, b int) int \x7b return a + b \x7d\n").toOption =
      some ⟨"auto add(int a, int b) -> int;\n\nauto add(int a, int b) -> int;\n", []⟩ := by
  decide +kernel

end Linewise
