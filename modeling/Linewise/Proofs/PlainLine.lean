/-
  A source line that is nothing but code.

  It goes through the layers above the lowering untouched: what is lowered is the line itself,
  trimmed.
-/
import Linewise.Run
import Linewise.Proofs.Step

namespace Linewise

open Text List

variable {r : Run} {s t code line indent : Text} {comment : Option Text} {kind : StatementKind}

/-! ## 1. Backquotes -/

namespace Raw

theorem convertFrom_of_not_mem (h : '\x60' ∉ s) : ∀ {m : Mode}, m ≠ .raw → convertFrom m s = ⟨s, false⟩ := by
  induction s with
  | nil =>
    intro m hm
    have : (m == Mode.raw) = false := by simpa using hm
    simp [convertFrom, this]
  | cons c s ih =>
    intro m hm
    have hc : (c == '\x60') = false := by
      rw [beq_eq_false_iff_ne]
      exact fun e => h (e ▸ mem_cons_self)
    have hs : '\x60' ∉ s := fun hm => h (mem_cons_of_mem _ hm)
    have hstep : (m.step c).1 = [c] ∧ (m.step c).2 ≠ .raw := by
      cases m with
      | raw => exact absurd rfl hm
      | code =>
        simp only [Mode.step, hc, Bool.false_eq_true, if_false]
        split <;> exact ⟨rfl, by simp⟩
      | quoted q =>
        refine ⟨rfl, ?_⟩
        simp only [Mode.step]
        split
        · simp
        · split <;> simp
      | escaped q => exact ⟨rfl, by simp [Mode.step]⟩
    simp only [convertFrom, ih hs hstep.2, hstep.1]
    rfl

theorem convert_of_not_mem (h : '\x60' ∉ s) : convert s = ⟨s, false⟩ :=
  convertFrom_of_not_mem h (by simp)

end Raw

/-! ## 2. Plain lines -/

/-- A trimmed line without comment and backquote that does not end with a semicolon. -/
@[mk_iff] structure Plain (t : Text) : Prop where
  noComment : Lexer.start.commentIndex? t = none
  noBlockComment : startsWith t "/*" = false
  noBackquote : '\x60' ∉ t
  noSemicolon : endsWith t ";" = false

instance (t : Text) : Decidable (Plain t) := decidable_of_iff _ (plain_iff ..).symm

theorem Lexer.commentIndex?_eq_none {a s : Text} (ha : '/' ∉ a) :
    ∀ {l : Lexer}, (l.run a).commentIndex? s = none → l.commentIndex? (a ++ s) = none := by
  induction a with
  | nil => exact id
  | cons c a ih =>
    intro l h
    have hc : (c == '/') = false := beq_eq_false_iff_ne.mpr fun e => ha (e ▸ mem_cons_self)
    rw [cons_append, commentIndex?, hc, Bool.and_false, Bool.false_and, if_neg Bool.false_ne_true,
      ih (fun hm => ha (mem_cons_of_mem c hm)) h]
    rfl

theorem Lexer.commentIndex?_of_not_mem {l : Lexer} (h : '/' ∉ t) : l.commentIndex? t = none := by
  have := commentIndex?_eq_none (s := []) h (l := l) rfl
  rwa [append_nil] at this

theorem plain_of_not_mem (hslash : '/' ∉ t) (hquote : '\x60' ∉ t) (hend : endsWith t ";" = false) : Plain t where
  noComment := Lexer.commentIndex?_of_not_mem hslash
  noBlockComment := startsWith_of_head fun hhead => hslash (mem_of_mem_head? hhead)
  noBackquote := hquote
  noSemicolon := hend

theorem Plain.not_startsWith_comment (h : Plain t) : startsWith t "//" = false := by
  refine Bool.eq_false_iff.mpr fun hs => ?_
  obtain ⟨r, rfl⟩ := startsWith_iff.mp hs
  have := h.noComment
  simp [Lexer.commentIndex?, show Lexer.start.isCode '/' = true by decide] at this

theorem codeOfLine_trimEnd (ht : trim t = t) (hsemi : endsWith t ";" = false) : codeOfLine (trimEnd t) = t := by
  have he : trimEnd t = t := by
    have := solid_trim t
    rw [ht] at this
    exact trimEnd_eq_self_of_last this.2
  rw [codeOfLine, he, ht, stripEnd_eq_self hsemi, he]

theorem Plain.codeOfLine_eq (h : Plain t) (ht : trim t = t) : codeOfLine (trimEnd t) = t :=
  codeOfLine_trimEnd ht h.noSemicolon

/-! ## 3. Code and comment -/

/-- The code and the comment of a converted line; nothing if it is a comment or leaves one or a
    literal open. -/
def lineParts? (line : Text) : Option (Text × Option Text) :=
  let t := trim line
  if startsWith t "//" || (startsWith t "/*" && (!includes t "*/" || endsWith t "*/")) || (Raw.convert t).opened then
    none
  else
    let parts := splitComment (Raw.convert t).line
    some (codeOfLine parts.1, parts.2)

theorem lineParts?_of_code (hline : trim line = t) (hslashes : startsWith t "//" = false)
    (hblock : startsWith t "/*" = false) (hconvert : Raw.convert t = ⟨code, false⟩)
    (hcomment : Lexer.start.commentIndex? code = none) (hsolid : trim code = code)
    (hsemi : endsWith code ";" = false) : lineParts? line = some (code, none) := by
  unfold lineParts?
  rw [hline]
  simp only [hslashes, hblock, hconvert, Bool.false_and, Bool.or_self, Bool.false_eq_true, if_false]
  rw [splitComment, hcomment]
  simp only [codeOfLine_trimEnd hsolid hsemi]

theorem Plain.lineParts?_eq (h : Plain t) (ht : trim line = t) : lineParts? line = some (t, none) :=
  lineParts?_of_code ht h.not_startsWith_comment h.noBlockComment (Raw.convert_of_not_mem h.noBackquote) h.noComment
    (by rw [← ht, trim_trim]) h.noSemicolon

theorem Run.sourceLine_eq (number : Nat) (h : lineParts? line = some (code, comment))
    (hpending : r.pending = none) (hblock : r.state.block? ≠ some .blockComment) :
    r.sourceLine number line
      = if code.isEmpty then
          .ok (({ r with state := { r.state with lineNumber := number } } : Run).emit
            [(comment.map (indentation line ++ ·)).getD []])
        else { r with state := { r.state with lineNumber := number } }.codeLine (indentation line) code comment
          false := by
  have hb : (r.state.block? == some .blockComment) = false := by simpa using hblock
  unfold lineParts? at h
  dsimp only at h
  split at h
  · cases h
  · rename_i hline
    obtain ⟨rfl, rfl⟩ := Prod.mk.inj (Option.some.inj h)
    simp only [Bool.or_eq_true, not_or, Bool.not_eq_true, Bool.and_or_distrib_left] at hline
    obtain ⟨⟨hslashes, hopens, hends⟩, hopened⟩ := hline
    simp only [sourceLine, hpending, plainLine, logicalLine, State.block?] at hb ⊢
    simp only [hb, hslashes, hopens, hends, hopened, Bool.or_false, Bool.false_eq_true, if_false]

theorem Run.sourceLine_parts (number : Nat) (h : lineParts? line = some (code, comment)) (hcode : code ≠ [])
    (hpending : r.pending = none) (hblock : r.state.block? ≠ some .blockComment) :
    r.sourceLine number line
      = { r with state := { r.state with lineNumber := number } }.codeLine (indentation line) code comment
        false := by
  rw [Run.sourceLine_eq number h hpending hblock, if_neg (by simpa using hcode)]

theorem Run.sourceLine_plain (number : Nat) (ht : trim line = t) (hp : Plain t) (hpending : r.pending = none)
    (hblock : r.state.block? ≠ some .blockComment) :
    r.sourceLine number line
      = if t.isEmpty then .ok ({ r with state := { r.state with lineNumber := number } }.emit [[]])
        else { r with state := { r.state with lineNumber := number } }.codeLine (indentation line) t
          none false :=
  Run.sourceLine_eq number (hp.lineParts?_eq ht) hpending hblock

/-! ## 4. A line of code taken apart -/

/-- What a brace in front makes of a lowered line and of the state. -/
def State.finishLine (s : State) (kind : StatementKind) (code : Text) (lowered : Lowered) :
    Option Text × State :=
  if kind == .expression && startsWith code "\x7d" then s.closeBrace code lowered.render
  else (lowered.render, s)

theorem State.closeBrace_eq (s : State) (code : Text) (rendered : Option Text) :
    ∃ switches function, (s.closeBrace code rendered).2
      = { s with switches := switches, function := function } := by
  have hfun (s : State) : ∃ function, (s.closeFunction code rendered).2 = { s with function := function } := by
    unfold closeFunction
    split
    · exact ⟨none, rfl⟩
    · exact ⟨s.function, rfl⟩
  unfold closeBrace
  split
  · split
    · exact ⟨s.switches.tail, s.function, rfl⟩
    · obtain ⟨function, hf⟩ := hfun s.exitSwitch
      exact ⟨s.switches.tail, function, hf⟩
  · obtain ⟨function, hf⟩ := hfun s
    exact ⟨s.switches, function, hf⟩

theorem State.finishLine_eq (s : State) (kind : StatementKind) (code : Text) (lowered : Lowered) :
    ∃ switches function, (s.finishLine kind code lowered).2
      = { s with switches := switches, function := function } := by
  unfold finishLine
  split
  · exact s.closeBrace_eq code lowered.render
  · exact ⟨s.switches, s.function, rfl⟩

/-- Classified, lowered, and its brace closes what it closes. -/
theorem Run.codeLine_eq_ok {r' : Run} {spans : Bool} (h : r.codeLine indent code comment spans = .ok r') :
    ∃ lowered s', (Lower.line ((r.state.countBraces code).classify code) code).run
        (r.state.countBraces code) = .ok lowered s' ∧
      r' = { r with
        state := (s'.finishLine ((r.state.countBraces code).classify code) code lowered).2.noteOpener
          r.output.length
        output := reopenClass (if (r.state.countBraces code).classify code == .blockClose .structBody
            then (r.state.countBraces code).struct else none) r.output
          ++ layout indent spans
            (s'.finishLine ((r.state.countBraces code).classify code) code lowered).1 comment
        firstFunction := if (r.state.countBraces code).classify code == .functionSignature
          then r.firstFunction.or (some r.output.length) else r.firstFunction } := by
  unfold codeLine at h
  dsimp only at h
  split at h
  · cases h
  · rename_i lowered s' hrun
    refine ⟨lowered, s', hrun, ?_⟩
    cases h
    rfl

/-- How a run goes on behind the lowering of a line that changes nothing else: its text is written. -/
def Run.goOn (r : Run) (text : Lowered → List Text) : EStateM.Result Stop State Lowered → Except Halt Run
  | .error stop s' => .error ⟨s'.lineNumber, stop⟩
  | .ok lowered s' => .ok { r with
      state := s'.noteOpener r.output.length
      output := r.output ++ text lowered }

/-- A kind of line that closes no brace, opens no function and ends no struct. -/
def StatementKind.isPassive (kind : StatementKind) : Bool :=
  kind != .expression && kind != .functionSignature && kind != .blockClose .structBody

theorem Run.codeLine_of_brace (indent : Text) (comment : Option Text) (spans : Bool)
    (hk : (r.state.countBraces code).classify code = kind)
    (hbrace : (kind == .expression && startsWith code "\x7d") = false) (hfun : kind ≠ .functionSignature)
    (hstruct : kind ≠ .blockClose .structBody) :
    r.codeLine indent code comment spans
      = r.goOn (layout indent spans ·.render comment) ((Lower.line kind code).run (r.state.countBraces code)) := by
  unfold codeLine
  simp only [hk]
  cases (Lower.line kind code).run (r.state.countBraces code) with
  | error stop s' => rfl
  | ok lowered s' =>
    simp only [hbrace, beq_eq_false_iff_ne.mpr hfun, beq_eq_false_iff_ne.mpr hstruct, Bool.false_eq_true,
      if_false]
    rfl

theorem Run.codeLine_eq (indent : Text) (comment : Option Text) (spans : Bool)
    (hk : (r.state.countBraces code).classify code = kind) (hpassive : kind.isPassive = true) :
    r.codeLine indent code comment spans
      = r.goOn (layout indent spans ·.render comment) ((Lower.line kind code).run (r.state.countBraces code)) := by
  simp only [StatementKind.isPassive, Bool.and_eq_true, bne_iff_ne] at hpassive
  obtain ⟨⟨hexpr, hfun⟩, hstruct⟩ := hpassive
  have hbrace : (kind == .expression && startsWith code "\x7d") = false := by
    rw [beq_eq_false_iff_ne.mpr hexpr, Bool.false_and]
  exact Run.codeLine_of_brace indent comment spans hk hbrace hfun hstruct

theorem Run.codeLine_eq_error {halt : Halt} {spans : Bool}
    (h : r.codeLine indent code comment spans = .error halt) :
    ∃ s', (Lower.line ((r.state.countBraces code).classify code) code).run (r.state.countBraces code)
      = .error halt.stop s' := by
  unfold codeLine at h
  dsimp only at h
  split at h
  · rename_i stop s' hrun
    cases h
    exact ⟨s', hrun⟩
  · cases h

theorem Run.logicalLine_eq_ok {r' : Run} {text : Text} {spans : Bool}
    (h : r.logicalLine indent text spans = .ok r') :
    (codeOfLine (splitComment text).1 = [] ∧
      r' = r.emit [((splitComment text).2.map (indent ++ ·)).getD []]) ∨
    (codeOfLine (splitComment text).1 ≠ [] ∧
      r.codeLine indent (codeOfLine (splitComment text).1) (splitComment text).2 spans = .ok r') := by
  unfold logicalLine at h
  dsimp only at h
  split at h
  · rename_i hempty
    exact .inl ⟨isEmpty_iff.mp hempty, (Except.ok.inj h).symm⟩
  · rename_i hcode
    exact .inr ⟨fun hempty => hcode (isEmpty_iff.mpr hempty), h⟩

theorem Run.logicalLine_eq_error {halt : Halt} {text : Text} {spans : Bool}
    (h : r.logicalLine indent text spans = .error halt) :
    r.codeLine indent (codeOfLine (splitComment text).1) (splitComment text).2 spans = .error halt := by
  unfold logicalLine at h
  dsimp only at h
  split at h
  · cases h
  · exact h

theorem Run.pending_logicalLine {r' : Run} {text : Text} {spans : Bool}
    (h : r.logicalLine indent text spans = .ok r') : r'.pending = r.pending := by
  obtain ⟨_, rfl⟩ | ⟨_, h⟩ := logicalLine_eq_ok h
  · rfl
  · obtain ⟨lowered, s', _, rfl⟩ := codeLine_eq_ok h
    rfl

/-! ## 5. Plain lines by their kind -/

/-- The state that a line of code is lowered in. -/
def Run.stateAt (r : Run) (number : Nat) (code : Text) : State :=
  State.countBraces { r.state with lineNumber := number } code

theorem Run.sourceLine_code (number : Nat) (hparts : lineParts? line = some (code, comment)) (hne : code ≠ [])
    (hp : r.pending = none) (hb : r.state.block? ≠ some .blockComment)
    (hk : (r.stateAt number code).classify code = kind) (hpassive : kind.isPassive = true) :
    r.sourceLine number line
      = r.goOn (layout (indentation line) false ·.render comment) ((Lower.line kind code).run (r.stateAt number code)) := by
  rw [Run.sourceLine_parts number hparts hne hp hb]
  exact Run.codeLine_eq _ comment false hk hpassive

theorem Run.sourceLine_kind (number : Nat) (ht : trim line = t) (hplain : Plain t) (hne : t ≠ [])
    (hp : r.pending = none) (hb : r.state.block? ≠ some .blockComment)
    (hk : (r.stateAt number t).classify t = kind) (hpassive : kind.isPassive = true) :
    r.sourceLine number line
      = r.goOn (layout (indentation line) false ·.render none) ((Lower.line kind t).run (r.stateAt number t)) :=
  Run.sourceLine_code number (hplain.lineParts?_eq ht) hne hp hb hk hpassive

theorem Run.sourceLine_remark (number : Nat) (h : startsWith (trim line) "//" = true) (hp : r.pending = none)
    (hb : r.state.block? ≠ some .blockComment) :
    r.sourceLine number line
      = .ok (({ r with state := { r.state with lineNumber := number } } : Run).emit [trimEnd line]) := by
  have hblock : (r.state.block? == some .blockComment) = false := by simpa using hb
  have hopens : startsWith (trim line) "/*" = false := by
    obtain ⟨c, hc⟩ := startsWith_iff.mp h
    rw [hc]
    rfl
  simp only [sourceLine, hp, plainLine, State.block?] at hblock ⊢
  simp only [hblock, h, hopens, Bool.false_and, Bool.true_or, Bool.false_eq_true, if_false, if_true]

end Linewise
