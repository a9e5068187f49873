/-
  A function literal on one line, and the same literal over several lines.

  Over several lines each statement is lowered on its own line, inside a closure. On one line the text
  behind the first brace is cut at every semicolon and copied. So the forms differ wherever lowering
  changes a statement, a literal holds a semicolon, or a type in the head holds a brace.
-/
import Linewise.Proofs.BracedParts

namespace Linewise

open Text List StatementKind Lower Run

variable {s t v x tail : Text} {c : Char} {r : Run}

/-! ## 1. The two forms -/

/-- A statement of a body, as it stands in the source: its code may stand in a closure on one line. -/
@[mk_iff] structure BodyStatement (t : Text) : Prop where
  solid : Solid t
  head : t.head? ≠ some '/'
  closed : Raw.after .code t = .code
  code : Inline (Raw.convert t).line

instance (t : Text) : Decidable (BodyStatement t) := decidable_of_iff _ (bodyStatement_iff ..).symm

/-- A function literal bound to a new name: parameters, results and the statements of its body. -/
structure FunctionLiteral where
  name : Text
  params : Text
  results : Text
  statements : List Text

namespace FunctionLiteral

/-- The literal up to its body. -/
def header (f : FunctionLiteral) : Text := "func(" ++ (f.params ++ (")" ++ f.results))

/-- The statements, their literals between backquotes converted. -/
def codes (f : FunctionLiteral) : List Text := f.statements.map fun t => (Raw.convert t).line

/-- The definition on one line. -/
def line (f : FunctionLiteral) : Text := f.name ++ (" := " ++ (f.header ++ bracedParts f.statements))

/-- That line, its literals converted. -/
def code (f : FunctionLiteral) : Text := f.name ++ (" := " ++ (f.header ++ bracedParts f.codes))

/-- The line that opens the closure. -/
def opening (f : FunctionLiteral) : Text := f.name ++ (" := " ++ functionHead f.params f.results)

/-- The definition over several lines. -/
def spread (f : FunctionLiteral) : List Text := f.opening :: (f.statements ++ [ClosureKind.lambda.closer])

/-- A literal that can be written both ways. -/
structure Valid (f : FunctionLiteral) : Prop where
  isName : IsName f.name
  params : WellNested f.params
  results : WellNested f.results
  unmarked : ∀ c ∈ f.params ++ f.results, Lexer.isQuote c = false ∧ c ≠ '/'
  noChannel : mentionsChannel f.opening = false
  nonempty : f.statements ≠ []
  statements : ∀ t ∈ f.statements, BodyStatement t

end FunctionLiteral

theorem BodyStatement.convert (h : BodyStatement t) :
    Raw.convert t = ⟨(Raw.convert t).line, false⟩ ∧ Raw.after .code t = .code := by
  have hopened : (Raw.convert t).opened = false := by
    unfold Raw.convert
    rw [Raw.opened_convertFrom, h.closed]
    rfl
  refine ⟨?_, h.closed⟩
  rw [← hopened]

theorem Run.sourceLine_convert (hr : r.Between) {code : Text} (ht : Solid t) (hhead : t.head? ≠ some '/')
    (hconvert : Raw.convert t = ⟨code, false⟩) (hsolid : Solid code) (hplain : Plain code)
    (number : Nat) : r.sourceLine number t = r.sourceLine number code := by
  have htrim := trim_eq_self_of_solid hsolid
  have hparts := lineParts?_of_code (trim_eq_self_of_solid ht) (startsWith_of_head hhead) (startsWith_of_head hhead)
    hconvert hplain.noComment htrim hplain.noSemicolon
  rw [sourceLine_eq number hparts hr.pending hr.block?_ne,
    sourceLine_plain number htrim hplain hr.pending hr.block?_ne, indentation_of_solid ht, indentation_of_solid hsolid]
  rfl

theorem BodyStatement.sourceLine_eq (h : BodyStatement t) (hr : r.Between) (number : Nat) :
    r.sourceLine number t = r.sourceLine number (Raw.convert t).line :=
  sourceLine_convert hr h.solid h.head h.convert.1 h.code.solid h.code.plain number

/-! ## 2. The line and the head as code -/

namespace FunctionLiteral

variable {f : FunctionLiteral}

/-- The name and the head, up to the brace. -/
def front (f : FunctionLiteral) : Text := f.name ++ (" := " ++ f.header)

theorem line_eq (f : FunctionLiteral) : f.line = f.front ++ bracedParts f.statements := by
  unfold line front
  rw [append_assoc, append_assoc]

theorem code_eq (f : FunctionLiteral) : f.code = f.front ++ bracedParts f.codes := by
  unfold code front
  rw [append_assoc, append_assoc]

theorem functionHead_eq (f : FunctionLiteral) : functionHead f.params f.results = f.header ++ "\x7b" := by
  unfold functionHead header
  simp only [append_assoc]

theorem opening_eq (f : FunctionLiteral) : f.opening = f.front ++ "\x7b" := by
  unfold opening front
  rw [functionHead_eq, append_assoc, append_assoc]

namespace Valid

variable (h : f.Valid)

include h

theorem inline {c : Text} (hc : c ∈ f.codes) : Inline c := by
  obtain ⟨t, ht, rfl⟩ := mem_map.mp hc
  exact (h.statements t ht).code

theorem wellNested_front : WellNested f.front := by
  have := wellNested_functionHead h.isName h.params h.results
  unfold front header
  simpa using this

theorem unmarked_front : ∀ c ∈ f.front, Lexer.isQuote c = false ∧ c ≠ '/' := by
  have hname : ∀ c ∈ f.name, Lexer.isQuote c = false ∧ c ≠ '/' := fun c hc =>
    ⟨(bare_of_isIdentifier h.isName.identifier c hc).2, fun e =>
      not_mem_of_isIdentifier h.isName.identifier rfl (e ▸ hc)⟩
  intro c hc
  unfold front header at hc
  simp only [mem_append] at hc
  obtain hc | hc | hc | hc | hc | hc := hc
  · exact hname c hc
  · revert c; decide
  · revert c; decide
  · exact h.unmarked c (mem_append_left _ hc)
  · revert c; decide
  · exact h.unmarked c (mem_append_right _ hc)

theorem head_front : ∃ c s, f.front = c :: s ∧ isWordChar c = true := by
  obtain ⟨c, s, hname, hc⟩ := exists_cons_of_isIdentifier h.isName.identifier
  unfold front
  rw [hname]
  exact ⟨c, _, rfl, hc⟩

theorem head?_append (hc : (f.front ++ s).head? = some c) : isWordChar c = true := by
  obtain ⟨d, s', hd, hword⟩ := h.head_front
  rw [hd] at hc
  exact Option.some.inj hc ▸ hword

theorem solid_append (hlast : (f.front ++ s).getLast? = some c) (hb : isBlank c = false) : Solid (f.front ++ s) :=
  ⟨fun _ hd => not_isBlank_of_isWordChar (h.head?_append hd), solidEnd_of_last hlast hb⟩

theorem ne_nil_append (s : Text) : f.front ++ s ≠ [] := by
  obtain ⟨c, s', hc, -⟩ := h.head_front
  rw [hc]
  exact cons_ne_nil _ _

theorem not_startsWith {w : Text} (hw : w.head? = some c) (hc : isWordChar c = false) :
    startsWith (f.front ++ s) w = false := by
  obtain ⟨d, s', hd, hword⟩ := h.head_front
  exact startsWith_of_head? (by rw [hd]; rfl) hw (ne_of_isWordChar hword hc)

theorem plain_opening : Plain f.opening := by
  rw [opening_eq]
  refine plain_of_not_mem (not_mem_append (fun hc => (h.unmarked_front _ hc).2 rfl) (by decide)) ?_
    (endsWith_concat_of_ne _ (by decide))
  exact not_mem_append (fun hc => absurd (h.unmarked_front _ hc).1 (by decide)) (by decide)

theorem plain_code : Plain f.code where
  noComment := by
    rw [code_eq]
    exact Lexer.commentIndex?_eq_none (fun hc => (h.unmarked_front _ hc).2 rfl)
      (Lexer.commentIndex?_bracedParts h.wellNested_front.literals (fun c hc => (h.inline hc).part.wellNested)
        fun c hc => (h.inline hc).plain.noComment)
  noBlockComment := by
    rw [code_eq]
    exact h.not_startsWith rfl rfl
  noBackquote := by
    rw [code_eq]
    refine not_mem_append (fun hc => absurd (h.unmarked_front _ hc).1 (by decide)) fun hc => ?_
    unfold bracedParts at hc
    simp only [mem_append] at hc
    obtain hc | hc | hc := hc
    · exact absurd hc (by decide)
    · obtain hc | ⟨t, ht, hc⟩ := mem_joinWith hc
      · exact absurd hc (by decide)
      · exact (h.inline ht).plain.noBackquote hc
    · exact absurd hc (by decide)
  noSemicolon := by
    rw [code_eq]
    exact endsWith_bracedParts (by decide) _ _

theorem solid_code : Solid f.code := by
  rw [code_eq]
  exact h.solid_append (getLast?_bracedParts f.front f.codes) rfl

theorem code_ne_nil : f.code ≠ [] := by
  rw [code_eq]
  exact h.ne_nil_append _

theorem convert_line : Raw.convert f.line = ⟨f.code, false⟩ := by
  have hbody : Raw.convert (bracedParts (f.statements.map id)) = ⟨bracedParts f.codes, false⟩ :=
    Raw.convert_bracedParts fun t ht => (h.statements t ht).convert
  rw [map_id] at hbody
  rw [line_eq, code_eq, Raw.convert_append fun c hc => (h.unmarked_front c hc).1, hbody]

end Valid

theorem trim_value (f : FunctionLiteral) (parts : List Text) :
    trim (f.header ++ bracedParts parts) = f.header ++ bracedParts parts :=
  trim_eq_self_of_solid ⟨solidStart_cons rfl _, solidEnd_of_last (getLast?_bracedParts _ _) rfl⟩

end FunctionLiteral

/-! ## 3. What the line makes of the body -/

/-- What stands behind the first brace of a head: nothing, unless a type in it holds a brace. -/
def headRest (header : Text) : Text := ((header ++ "\x7b").dropWhile (· != '\x7b')).tail

theorem headRest_eq_nil {header : Text} (h : '\x7b' ∉ header) : headRest header = [] := by
  have hdrop : (header ++ "\x7b").dropWhile (· != '\x7b') = "\x7b" := by
    rw [dropWhile_append_of_pos fun c hc => by simpa using ne_of_mem_of_not_mem hc h]
    rfl
  unfold headRest
  rw [hdrop]
  rfl

theorem drop_firstBrace (header rest : Text) : ∃ i, (header ++ '\x7b' :: rest).idxOf? '\x7b' = some i ∧
    i ≤ header.length ∧ (header ++ '\x7b' :: rest).drop (i + 1) = headRest header ++ rest := by
  induction header with
  | nil => exact ⟨0, rfl, Nat.le_refl 0, rfl⟩
  | cons c header ih =>
    by_cases hc : c = '\x7b'
    · subst hc
      refine ⟨0, by rw [cons_append, idxOf?_cons, if_pos (beq_self_eq_true _)], Nat.zero_le _, ?_⟩
      show header ++ '\x7b' :: rest = (header ++ "\x7b") ++ rest
      rw [append_assoc]
      rfl
    · obtain ⟨i, hi, hle, hdrop⟩ := ih
      have hrest : headRest (c :: header) = headRest header := by
        unfold headRest
        rw [cons_append, dropWhile_cons, if_pos (by simpa using hc)]
      refine ⟨i + 1, ?_, Nat.succ_le_succ hle, ?_⟩
      · rw [cons_append, idxOf?_cons, if_neg (by simpa using hc), hi]
        rfl
      · rw [hrest, ← hdrop]
        rfl

theorem lastIndexOf?_concat (c : Char) (s : Text) : lastIndexOf? c (s ++ [c]) = some s.length := by
  unfold lastIndexOf?
  rw [reverse_concat, idxOf?_cons, if_pos (beq_self_eq_true c)]
  simp

theorem Lower.inlineBody_bracedParts (header : Text) (parts : List Text) :
    inlineBody (header ++ bracedParts parts)
      = (cuts (headRest header ++ (" " ++ joinWith "; " parts))).map terminate := by
  have hspace : Blank " " := by decide
  obtain ⟨i, hi, hle, hdrop⟩ := drop_firstBrace header (" " ++ (joinWith "; " parts ++ " "))
  generalize hfront : header ++ '\x7b' :: (" " ++ (joinWith "; " parts ++ " ")) = front at hi hdrop
  have htext : header ++ bracedParts parts = front ++ ['\x7d'] := by
    rw [← hfront]
    unfold bracedParts
    simp
  have hlt : i < front.length := by
    rw [← hfront, length_append, length_cons]
    omega
  have hfirst : (front ++ ['\x7d']).idxOf? '\x7b' = some i := by
    unfold idxOf? at hi ⊢
    rw [findIdx?_append, hi]
    rfl
  unfold inlineBody
  rw [htext, hfirst, lastIndexOf?_concat]
  dsimp only
  rw [if_pos hlt, take_left, hdrop, ← cuts_append_blank hspace (headRest header ++ (" " ++ joinWith "; " parts)),
    append_assoc, append_assoc, ← cuts_trim]
  rfl

/-! ## 4. The head -/

theorem Lower.dropRepeated_func (rest : Text) : dropRepeated "func" ("func" ++ '(' :: rest) = '(' :: rest := by
  have hone : stripStart? "func" ("func" ++ '(' :: rest) = some ('(' :: rest) := rfl
  have hnone : stripStart? "func" ('(' :: rest) = none := rfl
  rw [dropRepeated, hone]
  dsimp only
  rw [if_pos (by simp), dropRepeated, hnone]

theorem Lower.assignment_func (hx : IsName x) (hv : trim v = v)
    (hfunc : startsWith v "func(" = true) : assignment (x ++ (" := " ++ v)) = functionLiteral x .define v := by
  unfold assignment
  rw [binding_define hx, hv]
  dsimp only
  rw [hfunc]
  rfl

namespace FunctionLiteral

variable {f : FunctionLiteral}

/-- The parameters and results that are read off the head. -/
def signature (f : FunctionLiteral) : List Parameter × List Text :=
  Signature.paramsAndResults ('(' :: (f.params ++ ')' :: f.results))

/-- What the head becomes, up to the brace. -/
def head (f : FunctionLiteral) (s : State) : Text :=
  "auto " ++ f.name ++ " = " ++ (if s.function.isSome then ("[&]" : Text) else "[]") ++ "("
    ++ Parameter.cppList f.signature.1 ++ ") -> " ++ cppResult f.signature.2

namespace Valid

variable (h : f.Valid)

include h

theorem signature_append (tail : Text) :
    Signature.paramsAndResults (trimStart (dropRepeated "func" (f.header ++ '\x7b' :: tail))) = f.signature := by
  have hbody := Signature.paramsAndResults_body h.params h.results tail
  have htext : f.header ++ '\x7b' :: tail = "func" ++ ('(' :: (f.params ++ ')' :: (f.results ++ '\x7b' :: tail))) := by
    unfold header
    simp
  rw [htext, dropRepeated_func]
  exact hbody

theorem functionLiteral_run (hv : v = f.header ++ '\x7b' :: tail) (s : State) :
    (functionLiteral f.name .define v).run s
      = if endsWith v "\x7b" then
          .ok (.line (f.head s ++ " \x7b")) ((s.registerParams f.signature.1).enterClosure .lambda s.depthBefore)
        else
          .ok (.line (f.head s ++ " \x7b " ++ joinWith " " (inlineBody v) ++ " \x7d;"))
            (s.registerParams f.signature.1) := by
  obtain ⟨known, hknown⟩ := s.foldl_registerMap_eq Parameter.name (f.signature.1.filter (isMapType ·.type))
  have hknown : s.registerParams f.signature.1 = { s with knownMaps := known } := hknown
  have hsignature := h.signature_append tail
  rw [← hv] at hsignature
  unfold functionLiteral
  rw [hsignature]
  unfold head
  generalize f.signature = signature at hknown ⊢
  obtain ⟨params, results⟩ := signature
  rw [EStateM.run_bind, EStateM.run_modify]
  dsimp only
  rw [EStateM.run_bind, EStateM.run_get, hknown]
  dsimp only
  split
  · rfl
  · rfl

end Valid

end FunctionLiteral

/-! ## 5. The two runs -/

theorem Within.unseen_opening (opener count depth : Nat) :
    Unseen fun s u => Within .lambda opener count s ((u.enterClosure .lambda depth).noteOpener opener) where
  knownMaps hw := ((Within.unseen .lambda opener count).knownMaps hw :)
  function hw := ((Within.unseen .lambda opener count).function hw :)
  discard hw := ((Within.unseen .lambda opener count).discard hw :)
  setMaps known hw := (Within.unseen .lambda opener count).setMaps known hw
  notice message hw := (Within.unseen .lambda opener count).notice message hw
  prettyPrint hw := (Within.unseen .lambda opener count).prettyPrint hw
  draw hw := (Within.unseen .lambda opener count).draw hw

theorem Run.sourceLines_body {statements : List Text} (h : ∀ t ∈ statements, BodyStatement t) {kind : ClosureKind}
    {opener count : Nat} {s : State} (hp : r.pending = none) (hw : Within kind opener count s r.state)
    (number : Nat) :
    r.sourceLines number statements = r.sourceLines number (statements.map fun t => (Raw.convert t).line) := by
  induction statements generalizing r s number with
  | nil => rfl
  | cons t ts ih =>
    have ht := h t mem_cons_self
    have hstep := carries_statement ht.code hp hw number
    rw [map_cons, sourceLines, sourceLines, ht.sourceLine_eq ⟨hp, hw.blocks_eq⟩]
    generalize (simpleStatement _).run s = x at hstep
    generalize r.sourceLine number (Raw.convert t).line = y at hstep
    cases hstep with
    | error stop s' line => rfl
    | @ok text s' u hsolid hw' =>
      exact ih (r := { r with state := u, output := r.output ++ lines text })
        (forall_mem_cons.mp h).2 hp hw' (number + 1)

namespace FunctionLiteral

/-- What the line makes of the body: the pieces behind the first brace, each terminated. -/
def copied (f : FunctionLiteral) : List Text :=
  (cuts (headRest f.header ++ (" " ++ joinWith "; " f.codes))).map terminate

/-- What the line becomes. One that speaks of channels is passed through. -/
def oneLine (f : FunctionLiteral) (s : State) : Text :=
  if mentionsChannel f.code then terminate f.code
  else f.head s ++ " \x7b " ++ joinWith " " f.copied ++ " \x7d;"

/-- What the lines become, the statements lowered to these texts. -/
def manyLines (f : FunctionLiteral) (s : State) (texts : List Text) : List Text :=
  Text.lines (f.head s ++ " \x7b") ++ (texts.flatMap Text.lines ++ [ClosureKind.lambda.ending])

variable {f : FunctionLiteral}

namespace Valid

variable (h : f.Valid) {r : Run} (hr : r.Between)

include h

theorem classify_eq (hr : r.Between) (hv : v = f.header ++ '\x7b' :: tail) (htrim : trim v = v)
    (hplain : Plain (f.name ++ (" := " ++ v))) (hparen : endsWith (f.name ++ (" := " ++ v)) "(" = false)
    (number : Nat) : (r.stateAt number (f.name ++ (" := " ++ v))).classify (f.name ++ (" := " ++ v))
      = if mentionsChannel (f.name ++ (" := " ++ v)) then .unsupported "channel operations"
        else .assignment := by
  have hhead : v.head? = some 'f' := by
    rw [hv]
    rfl
  have hbrace : startsWith (f.name ++ (" := " ++ v)) "\x7d" = false := by
    have := h.not_startsWith (w := "\x7d") (s := '\x7b' :: tail) rfl rfl
    rwa [hv, ← append_assoc, ← append_assoc, append_assoc f.name]
  have hclassify := State.classify_eq_ofCode (s := r.stateAt number (f.name ++ (" := " ++ v))) (ne_nil_define f.name v)
    hplain hr.blocks (closesClosure_eq_false hbrace)
  rw [hclassify, ofCode_define h.isName.identifier h.isName.notReserved hparen,
    opensMapLiteral_func htrim hhead, if_neg Bool.false_ne_true]

include hr

theorem sourceLine_line_eq (number : Nat) : r.sourceLine number f.line = r.sourceLine number f.code := by
  refine sourceLine_convert hr ?_ ?_ h.convert_line h.solid_code h.plain_code number
  · rw [line_eq]
    exact h.solid_append (getLast?_bracedParts f.front f.statements) rfl
  · rw [line_eq]
    exact fun hc => absurd (h.head?_append hc) (by decide)

theorem sourceLine_line (number : Nat) :
    ∃ r₁, r.sourceLine number f.line = .ok r₁ ∧ r₁.output = r.output ++ lines (f.oneLine r.state) := by
  have hvalue := trim_value f f.codes
  have hparen : endsWith f.code "(" = false := by
    rw [code_eq]
    exact endsWith_bracedParts (by decide) _ _
  have hkind : (r.stateAt number f.code).classify f.code
      = if mentionsChannel f.code then .unsupported "channel operations" else .assignment :=
    h.classify_eq hr rfl hvalue h.plain_code hparen number
  rw [h.sourceLine_line_eq hr]
  unfold oneLine
  by_cases hchannel : mentionsChannel f.code = true
  · rw [if_pos hchannel] at hkind ⊢
    rw [sourceLine_trimmed hr number h.solid_code h.code_ne_nil h.plain_code hkind rfl (by decide) (by decide)]
    exact ⟨_, rfl, rfl⟩
  · rw [if_neg hchannel] at hkind ⊢
    have hend : endsWith (f.header ++ bracedParts f.codes) "\x7b" = false := endsWith_bracedParts (by decide) _ _
    have hrun : (Lower.line .assignment f.code).run (r.stateAt number f.code)
        = .ok (.line (f.head r.state ++ " \x7b " ++ joinWith " " f.copied ++ " \x7d;"))
          ((r.stateAt number f.code).registerParams f.signature.1) := by
      show (Lower.assignment (f.name ++ (" := " ++ (f.header ++ bracedParts f.codes)))).run _ = _
      rw [assignment_func h.isName hvalue rfl, h.functionLiteral_run (v := f.header ++ bracedParts f.codes) rfl,
        hend, if_neg Bool.false_ne_true, inlineBody_bracedParts]
      rfl
    rw [sourceLine_trimmed hr number h.solid_code h.code_ne_nil h.plain_code hkind rfl (by decide) (by decide),
      hrun]
    exact ⟨_, rfl, rfl⟩

theorem sourceLine_opening (number : Nat) :
    ∃ u, r.sourceLine number f.opening
        = .ok { r with state := u, output := r.output ++ lines (f.head r.state ++ " \x7b") } ∧
      Within .lambda r.output.length r.state.names.defer (r.state.registerParams f.signature.1) u := by
  have hlast : f.opening.getLast? = some '\x7b' := by
    rw [opening_eq, getLast?_append]
    rfl
  have hsolid : Solid f.opening := by
    rw [opening_eq] at hlast ⊢
    exact h.solid_append hlast rfl
  have hne : f.opening ≠ [] := by
    rw [opening_eq]
    exact h.ne_nil_append _
  have hparen : endsWith f.opening "(" = false := by
    rw [opening_eq]
    exact endsWith_concat_of_ne _ (by decide)
  have hkind : (r.stateAt number f.opening).classify f.opening = .assignment := by
    refine (h.classify_eq hr f.functionHead_eq (trim_functionHead _ _) h.plain_opening hparen number).trans ?_
    exact if_neg (Bool.eq_false_iff.mp h.noChannel)
  have hrun : (Lower.line .assignment f.opening).run (r.stateAt number f.opening)
      = .ok (.line (f.head r.state ++ " \x7b"))
        (((r.stateAt number f.opening).registerParams f.signature.1).enterClosure .lambda r.state.depth) := by
    have hend : endsWith (functionHead f.params f.results) "\x7b" = true := by
      rw [functionHead_eq]
      exact endsWith_append _ _
    show (Lower.assignment (f.name ++ (" := " ++ functionHead f.params f.results))).run _ = _
    rw [assignment_func h.isName (trim_functionHead f.params f.results) rfl,
      h.functionLiteral_run f.functionHead_eq, hend, if_pos rfl]
    rfl
  have hline := sourceLine_trimmed hr number hsolid hne h.plain_opening hkind rfl (by decide) (by decide)
  rw [hrun] at hline
  refine ⟨_, hline, ?_⟩
  refine (Within.unseen_opening _ _ _).registerParams f.signature.1 ⟨hr.blocks, rfl, ?_⟩
  have hdepth : braceDepth r.state.depth f.opening = r.state.depth + 1 := by
    rw [opening_eq]
    exact h.wellNested_front.braceDepth_open _
  unfold stateAt State.countBraces
  simp only [hdepth]
  rfl

theorem sourceLines_spread (number : Nat) :
    match (f.codes.mapM simpleStatement).run (r.state.registerParams f.signature.1) with
    | .error stop _ => ∃ line, r.sourceLines number f.spread = .error ⟨line, stop⟩
    | .ok texts _ => ∃ r₂, r.sourceLines number f.spread = .ok r₂ ∧
        r₂.output = r.output ++ f.manyLines r.state texts := by
  obtain ⟨u, hopening, hw⟩ := h.sourceLine_opening hr number
  have hcodes : ∀ c ∈ f.codes, Inline c := fun c hc => h.inline hc
  unfold spread
  rw [sourceLines, hopening]
  dsimp only [Except.bind]
  have hread := sourceLines_body h.statements hr.pending hw (number + 1)
    (r := { r with state := u, output := r.output ++ lines (f.head r.state ++ " \x7b") })
  have hbody := carries_statements hcodes hr.pending hw (number + 1)
    (r := { r with state := u, output := r.output ++ lines (f.head r.state ++ " \x7b") })
  rw [sourceLines_append, hread]
  unfold codes at hbody ⊢
  generalize (mapM simpleStatement _).run _ = x at hbody ⊢
  generalize sourceLines _ (number + 1) _ = y at hbody ⊢
  cases hbody with
  | error stop s line => exact ⟨line, rfl⟩
  | @ok texts s' u' hsolid hw' =>
    obtain ⟨v, hcloser, -⟩ := sourceLine_closureEnd
      (r := { r with
        state := u'
        output := r.output ++ lines (f.head r.state ++ " \x7b") ++ texts.flatMap lines })
      hr.pending hw' (number + 1 + f.statements.length)
    dsimp only [Except.bind]
    rw [sourceLines, hcloser]
    refine ⟨_, rfl, ?_⟩
    simp only [append_assoc]
    rfl

end Valid

end FunctionLiteral

/-! ## 6. The texts of the two forms -/

theorem terminate_append (ht : SolidEnd t) : ∃ u, terminate t = t ++ u := by
  unfold terminate
  rw [trimEnd_eq_self_of_last ht]
  dsimp only
  split
  · exact ⟨[], (append_nil t).symm⟩
  · split
    · exact ⟨_, rfl⟩
    · split
      · exact ⟨[], (append_nil t).symm⟩
      · split
        · exact ⟨[], (append_nil t).symm⟩
        · exact ⟨_, rfl⟩

theorem unbroken_front {l : Text} (hl : '\n' ∉ l) (hn : c ≠ '\n') (hr : c ≠ '\r') (s : Text) (more : List Text) :
    ∃ z, unbroken (lines (l ++ c :: s) ++ more) = l ++ c :: z := by
  obtain ⟨h, t, -, hlines⟩ := lines_onFront hl hn hr s
  have hkept : l.map (fun c => if c = '\n' then ' ' else c) = l :=
    (map_congr_left fun c hc => if_neg (ne_of_mem_of_not_mem hc hl)).trans (map_id l)
  unfold unbroken
  rw [hlines, cons_append, unlines_cons, append_assoc, map_append, hkept, cons_append,
    map_cons, if_neg hn]
  exact ⟨_, rfl⟩

namespace FunctionLiteral

variable {f : FunctionLiteral}

namespace Valid

variable (h : f.Valid)

include h

theorem copied_ne_nil : f.copied ≠ [] := by
  obtain ⟨t, ts, hts⟩ := exists_cons_of_ne_nil h.nonempty
  have hcode := (h.statements t (hts ▸ mem_cons_self)).code
  obtain ⟨c, s, hc⟩ := exists_cons_of_ne_nil hcode.ne_nil
  have hblank : isBlank c = false := hcode.solid.1 c (by rw [hc]; rfl)
  have hsep : c ≠ ';' := by
    rintro rfl
    have hwhole := hcode.part.whole
    rw [hc] at hwhole
    cases hwhole
  have hmem : c ∈ joinWith "; " f.codes := by
    unfold codes
    rw [hts, map_cons, hc]
    cases ts with
    | nil => exact mem_cons_self
    | cons t' ts =>
      rw [map_cons, joinWith_cons_cons]
      exact mem_cons_self
  exact fun hnil => cuts_ne_nil (mem_append_right _ (mem_append_right _ hmem)) hblank hsep
    (map_eq_nil_iff.mp hnil)

omit h in
theorem mem_copied (hx : x ∈ f.copied) : SolidEnd x ∧ ∃ c s, x = c :: s ∧ isBlank c = false := by
  obtain ⟨p, hp, rfl⟩ := mem_map.mp hx
  obtain ⟨q, -, rfl⟩ := mem_map.mp (mem_filter.mp hp).1
  have hne : trim q ≠ [] := by simpa using (mem_filter.mp hp).2
  obtain ⟨c, s, hc⟩ := exists_cons_of_ne_nil hne
  obtain ⟨u, hu⟩ := terminate_append (solid_trim q).2
  refine ⟨solidEnd_terminate _, c, s ++ u, ?_, (solid_trim q).1 c (by rw [hc]; rfl)⟩
  rw [hu, hc]
  rfl

theorem unbroken_copied_ne_nil : unbroken (f.copied.flatMap lines) ≠ [] := by
  obtain ⟨x, xs, hxs⟩ := exists_cons_of_ne_nil h.copied_ne_nil
  obtain ⟨-, c, s, rfl, hc⟩ := mem_copied (hxs ▸ mem_cons_self)
  obtain ⟨z, hz⟩ := unbroken_front not_mem_nil (c := c) (by rintro rfl; cases hc)
    (by rintro rfl; cases hc) s (xs.flatMap lines)
  rw [hxs, flatMap_cons, show (c :: s : Text) = [] ++ c :: s from rfl, hz]
  exact cons_ne_nil _ _

/-- Without channels: as if every statement were copied. -/
theorem unbroken_oneLine (hchannel : mentionsChannel f.code = false) (s : State) :
    unbroken (lines (f.oneLine s)) = unbroken (f.manyLines s f.copied) := by
  have hopener : (f.head s ++ " \x7b").getLast? = some '\x7b' := getLast?_append_of_ne_nil _ (by decide)
  have htext : f.head s ++ " \x7b " ++ joinWith " " f.copied ++ " \x7d;"
      = joinWith " " ((f.head s ++ " \x7b") :: (f.copied ++ [ClosureKind.lambda.ending])) := by
    simp only [joinWith_enclosed _ _ h.copied_ne_nil, append_assoc]
    rfl
  have hcloser : ClosureKind.lambda.ending.getLast? = some ';' := rfl
  have hnil : [] ∉ f.copied := fun hm => by
    obtain ⟨-, c, s, hc, -⟩ := mem_copied hm
    cases hc
  have henclosed := unbroken_enclosed hopener hcloser rfl rfl (fun x hx => (mem_copied hx).1) hnil
  unfold oneLine manyLines
  rw [hchannel, if_neg Bool.false_ne_true, htext, henclosed, flatMap_cons, flatMap_append]
  rfl

/-- With channels: nothing the lines could become. -/
theorem unbroken_oneLine_ne (hchannel : mentionsChannel f.code = true) (s : State) (texts : List Text) :
    unbroken (lines (f.oneLine s)) ≠ unbroken (f.manyLines s texts) := by
  have hid := h.isName.identifier
  obtain ⟨d, name, hname, hd⟩ := exists_cons_of_isIdentifier hid
  have hclean {c : Char} (hc : isWordChar c = false) : c ∉ f.name := fun hm => by
    rw [isWordChar_of_mem hid c hm] at hc
    cases hc
  obtain ⟨u, hu⟩ := terminate_append h.solid_code.2
  have hcode : terminate f.code = (f.name ++ " ") ++ ':' :: ("= " ++ (f.header ++ bracedParts f.codes) ++ u) := by
    rw [hu]
    unfold code
    simp only [append_assoc]
    rfl
  obtain ⟨rest, hrest⟩ : ∃ rest, f.head s ++ " \x7b" = "auto " ++ d :: rest := by
    unfold head
    rw [hname]
    simp only [append_assoc]
    exact ⟨_, rfl⟩
  -- the one starts with the name and a colon, the other with a word and the name
  obtain ⟨z₁, hz₁⟩ := unbroken_front (not_mem_append (hclean rfl) (by decide) : '\n' ∉ f.name ++ " ")
    (c := ':') (by decide) (by decide) ("= " ++ (f.header ++ bracedParts f.codes) ++ u) []
  obtain ⟨z₂, hz₂⟩ := unbroken_front (by decide : '\n' ∉ ("auto " : Text)) (c := d) (by rintro rfl; cases hd)
    (by rintro rfl; cases hd) rest (texts.flatMap lines ++ [ClosureKind.lambda.ending])
  unfold oneLine manyLines
  rw [if_pos hchannel, hcode, ← append_nil (lines _), hz₁, hrest, hz₂]
  intro heq
  have hspace : f.name ++ ' ' :: (':' :: z₁) = "auto" ++ ' ' :: (d :: z₂) := by
    rw [append_assoc] at heq
    exact heq
  have hlength : f.name.length = 4 := by
    have hfirst := idxOf?_append_cons (hclean (c := ' ') rfl) (':' :: z₁)
    rw [hspace] at hfirst
    exact (Option.some.inj hfirst).symm
  obtain ⟨hauto, hcolon⟩ := append_inj hspace hlength
  obtain rfl : 'a' = d := by
    rw [hname] at hauto
    exact (cons.inj hauto).1.symm
  exact absurd (cons.inj (cons.inj hcolon).2).1 (by decide)

theorem unbroken_manyLines_iff (s : State) (texts : List Text) :
    unbroken (f.manyLines s f.copied) = unbroken (f.manyLines s texts)
      ↔ unbroken (f.copied.flatMap lines) = unbroken (texts.flatMap lines) := by
  have hne : unbroken (f.copied.flatMap lines) ≠ [] := h.unbroken_copied_ne_nil
  have hhead : lines (f.head s ++ " \x7b") ≠ [] := lines_ne_nil (append_ne_nil_of_right_ne_nil _ (by decide))
  have hbody (ls : List Text) : unbroken (lines (f.head s ++ " \x7b") ++ (ls ++ [ClosureKind.lambda.ending]))
      = unbroken (lines (f.head s ++ " \x7b")) ++ ' ' :: unbroken (ls ++ [ClosureKind.lambda.ending]) :=
    unbroken_append hhead (append_cons_ne_nil _)
  have hend {ls : List Text} (hls : ls ≠ []) : unbroken (ls ++ [ClosureKind.lambda.ending])
      = unbroken ls ++ ' ' :: unbroken [ClosureKind.lambda.ending] := unbroken_append hls (cons_ne_nil _ _)
  have hcopied : f.copied.flatMap lines ≠ [] := fun hnil => hne (by rw [hnil]; rfl)
  unfold manyLines
  rw [hbody, hbody, append_cancel_left_eq, cons.injEq, and_iff_right rfl, hend hcopied]
  by_cases hnil : texts.flatMap lines = []
  · rw [hnil]
    refine ⟨fun heq => ?_, fun heq => absurd heq hne⟩
    have hlength := congrArg length heq
    rw [length_append, length_cons, nil_append] at hlength
    omega
  · rw [hend hnil, append_cancel_right_eq]

end Valid

/-! ## 7. When the forms agree -/

/-- Both forms end, and what they emit differs in breaks alone. -/
def Agrees (f : FunctionLiteral) (r : Run) (number number' : Nat) : Prop :=
  ∃ r₁ r₂ ls₁ ls₂, r.sourceLine number f.line = .ok r₁ ∧ r.sourceLines number' f.spread = .ok r₂ ∧
    r₁.output = r.output ++ ls₁ ∧ r₂.output = r.output ++ ls₂ ∧ unbroken ls₁ = unbroken ls₂

/-- Returns and calls, without a semicolon in a literal, below a head without a brace. -/
structure Verbatim (f : FunctionLiteral) : Prop where
  noChannel : mentionsChannel f.code = false
  noBrace : '\x7b' ∉ f.header
  noSemicolon : ∀ c ∈ f.codes, ';' ∉ c
  kind : ∀ c ∈ f.codes, ofCode c = .returnStatement ∨
    ofCode c = .expression ∧ callArguments? "delete" c = none

theorem copied_eq {f : FunctionLiteral} (hbrace : '\x7b' ∉ f.header) :
    f.copied = (f.codes.flatMap cuts).map terminate := by
  have hspace : Blank " " := by decide
  unfold copied
  rw [headRest_eq_nil hbrace, nil_append, ← cuts_append_blank hspace, append_assoc, cuts_joinWith]

namespace Valid

variable (h : f.Valid)

include h

theorem simpleStatements_verbatim (hf : f.Verbatim) (s : State) :
    (f.codes.mapM simpleStatement).run s = .ok (f.codes.map terminate) s := by
  have hstep (c : Text) (hc : c ∈ f.codes) : (simpleStatement c).run s = .ok (terminate c) s := by
    unfold simpleStatement
    dsimp only
    rw [(h.inline hc).trim_eq]
    obtain hkind | ⟨hkind, hdelete⟩ := hf.kind c hc
    · rw [hkind]
      rfl
    · rw [hkind]
      unfold Lower.expression
      rw [hdelete]
      rfl
  generalize f.codes = codes at hstep
  induction codes with
  | nil => rfl
  | cons c cs ih =>
    have hrest := ih (forall_mem_cons.mp hstep).2
    rw [mapM_cons, bind_ok (hstep c mem_cons_self), bind_ok hrest]
    rfl

theorem copied_verbatim (hf : f.Verbatim) : f.copied = f.codes.map terminate := by
  have hwhole : f.codes.flatMap cuts = f.codes.flatMap fun c => [c] :=
    flatMap_congr fun c hc => cuts_eq_singleton (h.inline hc).trim_eq (h.inline hc).ne_nil (hf.noSemicolon c hc)
  rw [copied_eq hf.noBrace, hwhole, flatMap_singleton']

variable {r : Run} (hr : r.Between) (number number' : Nat)

include hr

/-- The forms agree if lowering the body is copying it. -/
theorem agrees_iff : f.Agrees r number number' ↔ mentionsChannel f.code = false ∧
    ∃ texts s', (f.codes.mapM simpleStatement).run (r.state.registerParams f.signature.1) = .ok texts s' ∧
      unbroken (f.copied.flatMap lines) = unbroken (texts.flatMap lines) := by
  obtain ⟨r₁, hline, hone⟩ := h.sourceLine_line hr number
  have hspread := h.sourceLines_spread hr number'
  unfold Agrees
  rw [hline]
  cases hrun : (f.codes.mapM simpleStatement).run (r.state.registerParams f.signature.1) with
  | error stop s' =>
    rw [hrun] at hspread
    obtain ⟨line, hstops⟩ := hspread
    rw [hstops]
    constructor
    · rintro ⟨_, _, _, _, -, hok, -⟩
      cases hok
    · rintro ⟨-, _, _, hok, -⟩
      cases hok
  | ok texts s' =>
    rw [hrun] at hspread
    obtain ⟨r₂, hends, hmany⟩ := hspread
    rw [hends]
    constructor
    · rintro ⟨_, _, ls₁, ls₂, hr₁, hr₂, hls₁, hls₂, heq⟩
      cases hr₁
      cases hr₂
      obtain rfl := append_cancel_left (hone.symm.trans hls₁)
      obtain rfl := append_cancel_left (hmany.symm.trans hls₂)
      have hquiet : mentionsChannel f.code = false :=
        Bool.eq_false_iff.mpr fun hchannel => h.unbroken_oneLine_ne hchannel r.state texts heq
      rw [h.unbroken_oneLine hquiet, h.unbroken_manyLines_iff] at heq
      exact ⟨hquiet, texts, s', rfl, heq⟩
    · rintro ⟨hquiet, _, _, hok, heq⟩
      cases hok
      refine ⟨r₁, r₂, _, _, rfl, rfl, hone, hmany, ?_⟩
      rw [h.unbroken_oneLine hquiet, h.unbroken_manyLines_iff]
      exact heq

end Valid

end FunctionLiteral

/-- **A function literal on one line and over several lines.** The one form always ends and copies the
    statements of its body; the other lowers them, and stops where lowering one of them does. They agree
    if and only if the copies are the lowered statements, as those of returns and calls are. -/
theorem functionLiteral_forms_agree_iff {f : FunctionLiteral} (h : f.Valid) {r : Run} (hr : r.Between)
    (number number' : Nat) :
    (∃ r₁, r.sourceLine number f.line = .ok r₁ ∧ r₁.output = r.output ++ lines (f.oneLine r.state)) ∧
    (match (f.codes.mapM Lower.simpleStatement).run (r.state.registerParams f.signature.1) with
      | .error stop _ => ∃ line, r.sourceLines number' f.spread = .error ⟨line, stop⟩
      | .ok texts _ => ∃ r₂, r.sourceLines number' f.spread = .ok r₂ ∧
          r₂.output = r.output ++ f.manyLines r.state texts) ∧
    (f.Agrees r number number' ↔ mentionsChannel f.code = false ∧
      ∃ texts s', (f.codes.mapM Lower.simpleStatement).run (r.state.registerParams f.signature.1) = .ok texts s' ∧
        unbroken (f.copied.flatMap lines) = unbroken (texts.flatMap lines)) ∧
    (f.Verbatim → f.Agrees r number number') := by
  refine ⟨h.sourceLine_line hr number, h.sourceLines_spread hr number', h.agrees_iff hr number number', fun hf => ?_⟩
  have hrun := h.simpleStatements_verbatim hf (r.state.registerParams f.signature.1)
  refine (h.agrees_iff hr number number').mpr ⟨hf.noChannel, _, _, hrun, ?_⟩
  rw [h.copied_verbatim hf]

/-- A literal whose body is returns and calls. -/
def callingLiteral : FunctionLiteral where
  name := "f"
  params := "x int, m map[string]int"
  results := " int "
  statements := ["g(\x60a\x60 + \"b\", m)", "return x"]

theorem functionLiteral_forms_agree_iff_calling :
    callingLiteral.line
        = "f := func(x int, m map[string]int) int \x7b g(\x60a\x60 + \"b\", m); return x \x7d".toList ∧
      callingLiteral.Valid ∧ callingLiteral.Verbatim ∧ insideEntry.Between ∧
      callingLiteral.Agrees insideEntry 3 3 := by
  have hvalid : callingLiteral.Valid :=
    ⟨by decide, by decide, by decide, by decide, rfl, by decide, by decide⟩
  have hverbatim : callingLiteral.Verbatim := ⟨rfl, by decide, by decide, by decide⟩
  have hbetween : insideEntry.Between := ⟨rfl, rfl⟩
  exact ⟨rfl, hvalid, hverbatim, hbetween,
    (functionLiteral_forms_agree_iff hvalid hbetween 3 3).2.2.2 hverbatim⟩

/-- A literal with a definition in its body, and one with a semicolon in a literal of its body. -/
def definingLiteral : FunctionLiteral where
  name := "f"
  params := "x int"
  results := " int "
  statements := ["y := x + 1", "return y"]

/-- A body with a semicolon in a string. -/
def semicolonLiteral : FunctionLiteral where
  name := "f"
  params := []
  results := " "
  statements := ["s = \"a;b\""]

/-- **A definition is copied as it stands, and a literal is torn.** -/
theorem copiedBody_differs :
    (definingLiteral.line = "f := func(x int) int \x7b y := x + 1; return y \x7d".toList ∧ definingLiteral.Valid ∧
      definingLiteral.oneLine insideEntry.state
        = "auto f = [&](int x) -> int \x7b y := x + 1; return y; \x7d;".toList ∧
      ¬ definingLiteral.Agrees insideEntry 3 3) ∧
    semicolonLiteral.line = "f := func() \x7b s = \"a;b\" \x7d".toList ∧ semicolonLiteral.Valid ∧
      semicolonLiteral.oneLine insideEntry.state = "auto f = [&]() -> void \x7b s = \"a; b\"; \x7d;".toList ∧
      ¬ semicolonLiteral.Agrees insideEntry 3 3 := by
  have hdefining : definingLiteral.Valid :=
    ⟨by decide, by decide, by decide, by decide, rfl, by decide, by decide⟩
  have hsemicolon : semicolonLiteral.Valid :=
    ⟨by decide, by decide, by decide, by decide, rfl, by decide, by decide⟩
  refine ⟨⟨rfl, hdefining, by with_unfolding_all rfl, fun hagrees => ?_⟩, rfl, hsemicolon, by with_unfolding_all rfl,
    fun hagrees => ?_⟩
  · obtain ⟨-, texts, s', hrun, heq⟩ := (hdefining.agrees_iff ⟨rfl, rfl⟩ 3 3).mp hagrees
    have hlowered : (definingLiteral.codes.mapM simpleStatement).run
        (insideEntry.state.registerParams definingLiteral.signature.1)
        = .ok (["auto y = x + 1;", "return y;"] : List Text) insideEntry.state := by with_unfolding_all rfl
    cases hlowered.symm.trans hrun
    revert heq
    decide
  · obtain ⟨-, texts, s', hrun, heq⟩ := (hsemicolon.agrees_iff ⟨rfl, rfl⟩ 3 3).mp hagrees
    have hlowered : (semicolonLiteral.codes.mapM simpleStatement).run
        (insideEntry.state.registerParams semicolonLiteral.signature.1)
        = .ok (["s = \"a;b\";"] : List Text) insideEntry.state := by with_unfolding_all rfl
    cases hlowered.symm.trans hrun
    revert heq
    decide

end Linewise
