/-
  The headers of a switch, and whether they make one chain of branches.

  A header depends on whether a clause of its switch came before it. So the clause without values is
  an `else` wherever it stands behind another one, also in front of more of them:

      case 1:        if (_s__0 == 1) {
      default:       } else {
      case 2:        } else if (_s__0 == 2) {
-/
import Linewise.Proofs.HeaderLine
import Linewise.Proofs.TrailingComment

namespace Linewise

open Text List Lower StatementKind

variable {w code : Text} {comment : Option Text} {kind : StatementKind} {s s' : State} {r : Run}
  {shape : HeaderShape} {f : SwitchFrame} {fs : List SwitchFrame} {lowered : Lowered}

/-! ## 1. Chains of branches -/

/-- The three headers of a chain. -/
inductive HeaderShape where
  | first
  | next
  | last
  deriving DecidableEq, Repr

namespace HeaderShape

/-- What a header starts with. -/
def start : HeaderShape → Text
  | first => "if ("
  | next => "\x7d else if ("
  | last => "\x7d else \x7b"

/-- The text of a header, without indentation and remark. -/
def Writes : HeaderShape → Text → Prop
  | last, t => t = start last
  | shape, t => ∃ condition, t = shape.start ++ (condition ++ ") \x7b")

/-- The line of a header: its text between white space and a remark. -/
def IsLine (shape : HeaderShape) (line : Text) : Prop :=
  ∃ indent text remark, line = indent ++ (text ++ remark) ∧ Blank indent ∧ shape.Writes text ∧
    (remark = [] ∨ ∃ comment, remark = " //" ++ comment)

theorem Writes.eq_append {t : Text} (h : shape.Writes t) : ∃ r, t = shape.start ++ r := by
  cases shape with
  | first => exact h.imp' _ fun _ => id
  | next => exact h.imp' _ fun _ => id
  | last => exact ⟨[], h.trans (append_nil _).symm⟩

theorem IsLine.start_prefix {line : Text} (h : shape.IsLine line) :
    shape.start <+: trimStart line := by
  obtain ⟨indent, text, remark, rfl, hi, hw, -⟩ := h
  obtain ⟨r, rfl⟩ := hw.eq_append
  rw [trimStart_append_of_blank hi, append_assoc]
  obtain ⟨c, t, hc, hb⟩ : ∃ c t, shape.start = c :: t ∧ isBlank c = false := by
    cases shape <;> exact ⟨_, _, rfl, rfl⟩
  rw [hc, cons_append, trimStart_cons_of_solid hb, ← cons_append]
  exact prefix_append _ _

theorem IsLine.unique {a b : HeaderShape} {line : Text} (ha : a.IsLine line) (hb : b.IsLine line) :
    a = b := by
  have hstarts := prefix_or_prefix_of_prefix ha.start_prefix hb.start_prefix
  revert hstarts
  cases a <;> cases b <;> decide

end HeaderShape

/-- Headers that make one chain: a first one, further conditions, at most one without. There may be
    none. -/
def LegalChain (ls : List Text) : Prop :=
  ls = [] ∨ ∃ first middle last, ls = first :: (middle ++ last) ∧ HeaderShape.first.IsLine first ∧
    (∀ l ∈ middle, HeaderShape.next.IsLine l) ∧ (last = [] ∨ ∃ l, last = [l] ∧ HeaderShape.last.IsLine l)

theorem LegalChain.isLine_next {a b : List Text} {l : Text} (h : LegalChain (a ++ l :: b)) (ha : a ≠ [])
    (hb : b ≠ []) : HeaderShape.next.IsLine l := by
  rcases h with h | ⟨first, middle, last, h, -, hmiddle, hlast⟩
  · exact absurd h (by simp)
  obtain ⟨x, a, rfl⟩ := exists_cons_of_ne_nil ha
  have h : a ++ l :: b = middle ++ last := (cons.inj h).2
  refine hmiddle l ?_
  rcases hlast with rfl | ⟨z, rfl, -⟩
  · rw [append_nil] at h
    rw [← h]
    simp
  · obtain ⟨b, w, rfl⟩ := (eq_nil_or_concat' b).resolve_left hb
    rw [← cons_append, ← append_assoc] at h
    rw [← append_inj_left' h rfl]
    simp

/-! ## 2. Clauses -/

/-- A clause as source lines: its header and what stands behind it. -/
structure ClauseLines where
  isDefault : Bool
  header : Text
  body : List Text

/-- All lines of a clause. -/
def ClauseLines.lines (c : ClauseLines) : List Text := c.header :: c.body

/-- A clause without values stands between two others. -/
def Misplaced (cs : List ClauseLines) : Prop :=
  ∃ a c b, cs = a ++ c :: b ∧ c.isDefault = true ∧ a ≠ [] ∧ b ≠ []

/-! ## 3. Lines with a keyword -/

namespace StatementKind

theorem of_lookup (h : keywords.lookup w = some kind) :
    w ∉ ruled ∧ (∃ c ∈ w.head?, c ≠ '/' ∧ c ≠ '}') ∧ kind.isPassive = true := by
  have hall : ∀ p ∈ keywords, p.1 ∉ ruled ∧ p.1.head?.any (fun c => c != '/' && c != '}') = true ∧
      p.2.isPassive = true := by decide
  obtain ⟨hruled, hhead, hkind⟩ := hall (w, kind) (mem_keywords_of_lookup h)
  obtain ⟨c, hc, hmarks⟩ := (Option.any_eq_true _ _).mp hhead
  simp only [Bool.and_eq_true, bne_iff_ne] at hmarks
  exact ⟨hruled, ⟨c, hc, hmarks⟩, hkind⟩

theorem head?_of_firstWord (h : firstWord code = w) {c : Char} (hc : c ∈ w.head?) : ∃ r, code = c :: r := by
  cases code with
  | nil =>
    rw [← h] at hc
    cases hc
  | cons d r =>
    rw [← h] at hc
    unfold firstWord at hc
    rw [takeWhile_cons] at hc
    split at hc
    · exact ⟨r, by rw [Option.mem_some_iff.mp hc]⟩
    · cases hc

end StatementKind

theorem State.classify_keyword (hb : s.blocks = []) (hw : firstWord code = w)
    (hk : keywords.lookup w = some kind) (hlast : endsWith code "(" = false) :
    s.classify code = kind := by
  obtain ⟨hruled, ⟨c, hc, hslash, hbrace⟩, -⟩ := of_lookup hk
  obtain ⟨rest, rfl⟩ := head?_of_firstWord hw hc
  -- no comment and no brace starts like a keyword
  have hcomment : startsWith (c :: rest) "//" = false := startsWith_of_head? rfl rfl hslash
  have hclosure : s.closesClosure (c :: rest) s.depth = false :=
    closesClosure_eq_false (startsWith_of_head? rfl rfl hbrace)
  rw [State.classify_code (cons_ne_nil _ _) hcomment (State.block?_eq_none hb) hclosure]
  exact ofCode_keyword hlast hw hruled hk

theorem Run.sourceLine_keyword {line : Text} (number : Nat) (hparts : lineParts? line = some (code, comment))
    (hw : firstWord code = w) (hk : keywords.lookup w = some kind)
    (hlast : endsWith code "(" = false) (hp : r.pending = none) (hb : r.state.blocks = []) :
    r.sourceLine number line
      = r.goOn (layout (indentation line) false ·.render comment) ((Lower.line kind code).run (r.stateAt number code)) := by
  obtain ⟨-, ⟨c, hc, -⟩, hpassive⟩ := of_lookup hk
  have hne : code ≠ [] := by
    obtain ⟨rest, hcode⟩ := head?_of_firstWord hw hc
    rw [hcode]
    exact cons_ne_nil _ _
  have hblock : r.state.block? ≠ some .blockComment := by
    rw [State.block?_eq_none hb]
    nofun
  exact Run.sourceLine_code number hparts hne hp hblock (State.classify_keyword hb hw hk hlast) hpassive

theorem Run.sourceLine_keyword_eq_ok {r' : Run} {number : Nat} {line : Text}
    (h : r.sourceLine number line = .ok r') (hparts : lineParts? line = some (code, comment))
    (hw : firstWord code = w) (hk : keywords.lookup w = some kind)
    (hlast : endsWith code "(" = false) (hp : r.pending = none) (hb : r.state.blocks = []) :
    ∃ lowered s', (Lower.line kind code).run (r.stateAt number code)
        = .ok lowered s' ∧ r'.state.frames = s'.frames ∧ r'.pending = none := by
  rw [Run.sourceLine_keyword number hparts hw hk hlast hp hb] at h
  cases hrun : (Lower.line kind code).run (r.stateAt number code) with
  | error stop s' =>
    rw [hrun] at h
    cases h
  | ok lowered s' =>
    rw [hrun] at h
    cases h
    exact ⟨lowered, s', rfl, rfl, hp⟩

/-! ## 4. Headers of clauses -/

theorem trimEnd_cons_of_solid {c : Char} (h : isBlank c = false) (s : Text) :
    trimEnd (c :: s) = c :: trimEnd s := trimEnd_append_cons h [] s

theorem slashes_trim {s : Text} (h : ("//" : Text) <+: s) : ∃ c, trim s = "//" ++ c := by
  have hslash : isBlank '/' = false := rfl
  obtain ⟨r, rfl⟩ := h
  refine ⟨trimEnd r, ?_⟩
  show trimEnd (trimStart ('/' :: '/' :: r)) = '/' :: '/' :: trimEnd r
  rw [trimStart_cons_of_solid hslash, trimEnd_cons_of_solid hslash, trimEnd_cons_of_solid hslash]

theorem slashes_of_lineParts? {line c : Text} (h : lineParts? line = some (code, some c)) :
    ∃ c', c = "//" ++ c' := by
  unfold lineParts? at h
  dsimp only at h
  split at h
  · cases h
  · obtain ⟨-, hcomment⟩ := Prod.mk.inj (Option.some.inj h)
    unfold splitComment at hcomment
    split at hcomment
    · rename_i i hi
      rw [← Option.some.inj hcomment]
      exact slashes_trim (Lexer.slashes_of_commentIndex? hi)
    · cases hcomment

theorem newline_not_mem_code {line : Text} (h : lineParts? line = some (code, comment)) (hn : '\n' ∉ line) :
    '\n' ∉ code := by
  have hconvert : '\n' ∉ (Raw.convert (trim line)).line := by
    intro hm
    rcases Raw.mem_of_mem_convertFrom hm with hm | hm
    · exact hn (mem_of_mem_trim hm)
    · exact absurd hm (by decide)
  have hcode : ∀ t : Text, codeOfLine t ⊆ t := fun t =>
    Subset.trans (Subset.trans (dropEndWhile_subset isBlank _) (stripEnd_subset _ _)) (trim_subset t)
  unfold lineParts? at h
  dsimp only at h
  split at h
  · cases h
  · obtain ⟨rfl, -⟩ := Prod.mk.inj (Option.some.inj h)
    intro hm
    have hm := hcode _ hm
    unfold splitComment at hm
    split at hm
    · exact hconvert (mem_of_mem_take (dropEndWhile_subset isBlank _ hm))
    · exact hconvert (dropEndWhile_subset isBlank _ hm)

theorem newline_not_mem_clauseCondition {d : Option Text} (hd : ∀ name ∈ d, '\n' ∉ name)
    {values : List Text} (hv : ∀ v ∈ values, '\n' ∉ v) : '\n' ∉ clauseCondition d values := by
  unfold clauseCondition
  split
  · refine newline_not_mem_joinWith (by decide) (forall_mem_map.mpr fun v hmem => ?_)
    exact not_mem_append (not_mem_append (hd _ rfl) (by decide)) (hv v hmem)
  · exact hv _ mem_cons_self
  · refine newline_not_mem_joinWith (by decide) (forall_mem_map.mpr fun v hmem => ?_)
    exact not_mem_append (not_mem_append (by decide) (hv v hmem)) (by decide)

theorem layout_clauseHeader {header : Text} (hn : '\n' ∉ header) (label : Option Text)
    (hc : ∀ c ∈ comment, ∃ c', c = "//" ++ c') (indent : Text) :
    ∃ remark rest, layout indent false (some (header ++ "\x7b" ++ labelText label)) comment
        = (indent ++ (header ++ "\x7b" ++ remark)) :: rest ∧
      (remark = [] ∨ ∃ c, remark = " //" ++ c) := by
  have hbrace : '\n' ∉ header ++ "\x7b" := not_mem_append hn (by decide)
  obtain ⟨rest, hlines⟩ : ∃ rest, lines (header ++ "\x7b" ++ labelText label)
      = (header ++ "\x7b") :: rest := by
    cases label with
    | none => exact ⟨[], by rw [labelText, append_nil, lines_eq_singleton (by simp) hbrace]⟩
    | some name =>
      have := lines_append (a := header) (b := name ++ ":;") (c := '{') (by decide) (by decide)
      rw [lines_eq_singleton (s := header ++ ['{']) (by simp) hbrace] at this
      exact ⟨_, this⟩
  cases comment with
  | none =>
    refine ⟨[], rest.map (indent ++ ·), ?_, .inl rfl⟩
    show (lines _).map (indent ++ ·) = _
    rw [hlines, append_nil]
    rfl
  | some c =>
    have hlayout : layout indent false (some (header ++ "\x7b" ++ labelText label)) (some c)
        = appendComment c ((indent ++ (header ++ "\x7b")) :: rest.map (indent ++ ·)) := by
      show appendComment c ((lines _).map (indent ++ ·)) = _
      rw [hlines]
      rfl
    cases rest with
    | nil =>
      obtain ⟨c', rfl⟩ := hc c rfl
      refine ⟨" //" ++ c', [], ?_, .inr ⟨c', rfl⟩⟩
      rw [hlayout]
      simp [appendComment]
    | cons l rest =>
      refine ⟨[], appendComment c ((l :: rest).map (indent ++ ·)), ?_, .inl rfl⟩
      rw [hlayout, append_nil]
      rfl

/-- The first word of a clause without or with values. -/
def clauseWord : Bool → Text
  | true => "default:"
  | false => "case"

/-- The kind of the line with that word. -/
def clauseKind : Bool → StatementKind
  | true => .defaultClause
  | false => .caseClause

/-- The code of a header: well nested, with the word of its clause first. -/
structure HeaderCode (isDefault : Bool) (code : Text) : Prop where
  wellNested : WellNested code
  word : firstWord code = clauseWord isDefault
  values : isDefault = false → clauseValues code ≠ []

/-- The header of a clause, given whether it is the first one. -/
def headerShape (first isDefault : Bool) : HeaderShape :=
  if first then .first else if isDefault then .last else .next

/-- The notice about a clause without values in front of all others. -/
def defaultFirst : Text := "\x60default:\x60 before any case always runs"

/-- What the header of a clause is noticed for. -/
def headerNotices (first isDefault : Bool) : List Text :=
  if first && isDefault then [defaultFirst] else []

theorem HeaderCode.lower {isDefault : Bool} (h : HeaderCode isDefault code) (hn : '\n' ∉ code)
    (hs : s.switches = f :: fs) (hd : ∀ name ∈ f.discriminant, '\n' ∉ name) :
    ∃ header s', (Lower.line (clauseKind isDefault) code).run s
        = .ok (.line (header ++ "\x7b" ++ labelText s.pendingLabel)) s' ∧
      '\n' ∉ header ∧ (headerShape f.firstClause isDefault).Writes (header ++ "\x7b") ∧
      s'.frames = s.frames.enter f fs ∧
      s'.notices = s.notices ++ (headerNotices f.firstClause isDefault).map (⟨s.lineNumber, ·⟩) := by
  cases isDefault with
  | true =>
    have hrun : (Lower.line .defaultClause code).run s = _ := defaultClause_run hs
    obtain ⟨d, first, depth⟩ := f
    cases first with
    | true =>
      refine ⟨"if (true) ", _, hrun, by decide, ⟨"true", rfl⟩, rfl, rfl⟩
    | false =>
      refine ⟨"\x7d else ", _, hrun, by decide, rfl, rfl, (append_nil _).symm⟩
  | false =>
    have hvalues : ∀ v ∈ clauseValues code, '\n' ∉ v := by
      intro v hv hm
      have hsub : trim (stripEnd ":" (trim (stripStart "case" code))) ⊆ code :=
        Subset.trans (trim_subset _) (Subset.trans (stripEnd_subset _ _)
          (Subset.trans (trim_subset _) (stripStart_subset _ _)))
      exact hn (hsub ((infix_of_mem_splitTop hv).subset hm))
    have hcond := newline_not_mem_clauseCondition hd hvalues
    have hrun : (Lower.line .caseClause code).run s = _ := caseClause_run hs (h.values rfl)
    generalize clauseCondition f.discriminant (clauseValues code) = condition at hcond hrun
    have hheader : clauseHeader f ("if (" ++ condition ++ ") \x7b")
        = (headerShape f.firstClause false).start ++ (condition ++ ") ") ++ "\x7b" := by
      unfold clauseHeader
      rw [append_assoc, append_assoc, append_assoc]
      cases f.firstClause <;> rfl
    rw [hheader] at hrun
    refine ⟨_, _, hrun, ?_, ?_, rfl, ?_⟩
    · refine not_mem_append ?_ (not_mem_append hcond (by decide))
      cases f.firstClause <;> decide
    · have hwrites : (headerShape f.firstClause false).start ++ (condition ++ ") ") ++ "\x7b"
          = (headerShape f.firstClause false).start ++ (condition ++ ") \x7b") := by
        rw [append_assoc, append_assoc]
        rfl
      rw [hwrites]
      cases f.firstClause <;> exact ⟨condition, rfl⟩
    · rw [headerNotices, Bool.and_false, if_neg Bool.false_ne_true]
      exact (append_nil _).symm

/-! ## 5. Steps and runs -/

/-- Lines that leave a run as they find it: nothing is pending and the same frames are open. -/
def WholeBody (body : List Text) : Prop :=
  ∀ (r r' : Run) (number : Nat), r.pending = none → r.state.frames.Below r.state.depth →
    r.sourceLines number body = .ok r' → r'.pending = none ∧ r'.state.frames = r.state.frames

theorem Grammar.wholeBody {texts body : List Text} (h : Grammar .body texts) (hb : body.map trim = texts)
    (hplain : ∀ t ∈ texts, Plain t) : WholeBody body := by
  intro r r' number hp hF hrun
  obtain ⟨hfollows, hframes⟩ := h.meaning r.state.frames hF body r r' number hb hplain hp rfl hrun
  exact ⟨hfollows.pending, hframes⟩

/-- A clause with a header on a line of its own and a whole body. -/
structure ClauseLines.WellFormed (c : ClauseLines) : Prop where
  header : ∃ code comment, lineParts? c.header = some (code, comment) ∧ HeaderCode c.isDefault code
  oneLine : '\n' ∉ c.header
  body : WholeBody c.body

/-- A run before and behind the header of a clause. -/
structure HeaderStep where
  before : Run
  after : Run

/-- The first line that the step writes. -/
def HeaderStep.line (step : HeaderStep) : Text :=
  (step.after.output.drop step.before.output.length).headD []

/-- The notices that the step leaves. -/
def HeaderStep.notices (step : HeaderStep) : List Notice :=
  step.after.state.notices.drop step.before.state.notices.length

/-- The headers of the clauses, up to where the run stops. -/
def Run.headerSteps (r : Run) (number : Nat) : List ClauseLines → List HeaderStep
  | [] => []
  | c :: cs =>
    match r.sourceLine number c.header with
    | .error _ => []
    | .ok r₁ =>
      ⟨r, r₁⟩ :: match r₁.sourceLines (number + 1) c.body with
        | .error _ => []
        | .ok r₂ => r₂.headerSteps (number + 1 + c.body.length) cs

/-- The header is the one its clause gets, and is noticed for what it should be. -/
structure HeaderStep.Meets (step : HeaderStep) (first : Bool) (c : ClauseLines) : Prop where
  line : (headerShape first c.isDefault).IsLine step.line
  notices : step.notices.map (·.message) = headerNotices first c.isDefault

theorem Run.header_step (number : Nat) {c : ClauseLines} (hc : c.WellFormed) (hp : r.pending = none)
    (hF : r.state.frames.InSwitch f fs) (hd : ∀ name ∈ f.discriminant, '\n' ∉ name) :
    ∃ r₁, r.sourceLine number c.header = .ok r₁ ∧ r₁.pending = none ∧
      r₁.state.frames = r.state.frames.enter f fs ∧ HeaderStep.Meets ⟨r, r₁⟩ f.firstClause c := by
  obtain ⟨code, comment, hparts, hcode⟩ := hc.header
  have hn : '\n' ∉ code := newline_not_mem_code hparts hc.oneLine
  have hkind : keywords.lookup (clauseWord c.isDefault) = some (clauseKind c.isDefault) := by
    cases c.isDefault <;> decide
  have hlast : endsWith code "(" = false := hcode.wellNested.not_endsWith (c := '(') rfl
  have hline := Run.sourceLine_keyword number hparts hcode.word hkind hlast hp hF.blocks
  let s : State := r.stateAt number code
  have hframes : s.frames = r.state.frames :=
    Frames.ext (hcode.wellNested.braceDepth_eq r.state.depth) rfl rfl rfl rfl
  obtain ⟨header, s', hrun, hheader, hwrites, hs', hnotices⟩ := hcode.lower hn (s := s) hF.switches hd
  rw [show (Lower.line (clauseKind c.isDefault) code).run
      (r.stateAt number code) = _ from hrun] at hline
  have hremarks : ∀ k ∈ comment, ∃ k', k = "//" ++ k' := by
    rintro k rfl
    exact slashes_of_lineParts? hparts
  obtain ⟨remark, rest, hlayout, hremark⟩ := layout_clauseHeader hheader s.pendingLabel hremarks
    (indentation c.header)
  refine ⟨_, hline, hp, ?_, ?_, ?_⟩
  · rw [State.frames_noteOpener, hs', hframes]
  · refine ⟨indentation c.header, header ++ "\x7b", remark, ?_, blank_indentation _, hwrites, hremark⟩
    show ((r.output ++ layout _ false (some _) comment).drop r.output.length).headD [] = _
    rw [drop_left, hlayout]
    rfl
  · show (s'.notices.drop r.state.notices.length).map _ = _
    rw [hnotices, show s.notices = r.state.notices from rfl, drop_left, map_map]
    exact map_id _

/-- The steps are those of the clauses, one for each. -/
inductive HeaderStep.Chain : Bool → List ClauseLines → List HeaderStep → Prop where
  | nil (first : Bool) : Chain first [] []
  | cons {first : Bool} {c : ClauseLines} {cs : List ClauseLines} {step : HeaderStep}
      {steps : List HeaderStep} (h : step.Meets first c) (hs : Chain false cs steps) :
      Chain first (c :: cs) (step :: steps)

/-- The headers of all clauses, whatever their bodies hold. -/
theorem Run.headerSteps_chain {cs : List ClauseLines} (hcs : ∀ c ∈ cs, c.WellFormed) :
    ∀ {r r' : Run} {number : Nat} {f : SwitchFrame} {fs : List SwitchFrame}, r.pending = none →
      r.state.frames.InSwitch f fs → (∀ name ∈ f.discriminant, '\n' ∉ name) →
      r.sourceLines number (cs.flatMap ClauseLines.lines) = .ok r' →
      HeaderStep.Chain f.firstClause cs (r.headerSteps number cs) := by
  induction cs with
  | nil => exact fun _ _ _ _ => .nil _
  | cons c cs ih =>
    intro r r' number f fs hp hF hd hrun
    obtain ⟨r₁, hheader, hp₁, hF₁, hmeets⟩ := r.header_step number (hcs c mem_cons_self) hp hF hd
    have hF₁' : r₁.state.frames.InSwitch { f with firstClause := false } fs := hF₁ ▸ hF.enter
    have hrest : r₁.sourceLines (number + 1) (c.body ++ cs.flatMap ClauseLines.lines) = .ok r' := by
      have hsplit : r.sourceLines number ((c :: cs).flatMap ClauseLines.lines)
          = r₁.sourceLines (number + 1) (c.body ++ cs.flatMap ClauseLines.lines) := by
        rw [flatMap_cons, ClauseLines.lines, cons_append, Run.sourceLines, hheader]
        rfl
      rw [← hsplit, hrun]
    rw [Run.sourceLines_append] at hrest
    rw [Run.headerSteps, hheader]
    refine .cons hmeets ?_
    obtain ⟨r₂, hbody, hrest⟩ := exists_ok_of_bind hrest
    obtain ⟨hp₂, hF₂⟩ := (hcs c mem_cons_self).body r₁ r₂ _ hp₁ hF₁'.below hbody
    rw [hbody]
    exact ih (forall_mem_cons.mp hcs).2 (f := { f with firstClause := false })
      hp₂ (hF₂ ▸ hF₁') hd hrest

/-! ## 6. Legal chains -/

namespace HeaderStep.Chain

variable {first : Bool} {cs : List ClauseLines} {steps : List HeaderStep}

theorem length_eq (h : Chain first cs steps) : steps.length = cs.length := by
  induction h with
  | nil => rfl
  | cons _ _ ih => rw [length_cons, length_cons, ih]

theorem isLine_next (h : Chain false cs steps) (hv : ∀ c ∈ cs, c.isDefault = false) :
    ∀ step ∈ steps, HeaderShape.next.IsLine step.line := by
  generalize hfirst : false = first at h
  induction h with
  | nil => exact fun step hstep => absurd hstep not_mem_nil
  | cons hstep _ ih =>
    subst hfirst
    have hline := hstep.line
    rw [hv _ mem_cons_self] at hline
    exact forall_mem_cons.mpr ⟨hline, ih (forall_mem_cons.mp hv).2 rfl⟩

theorem split {a b : List ClauseLines} {c : ClauseLines} (h : Chain first (a ++ c :: b) steps) :
    ∃ sa step sb, steps = sa ++ step :: sb ∧ Chain first a sa ∧ step.Meets (first && a.isEmpty) c ∧
      Chain false b sb := by
  induction a generalizing first steps with
  | nil =>
    cases h with
    | cons hstep hs => exact ⟨[], _, _, rfl, .nil _, by simpa using hstep, hs⟩
  | cons d a ih =>
    cases h with
    | cons hstep hs =>
      obtain ⟨sa, step, sb, rfl, hsa, hmeets, hsb⟩ := ih hs
      exact ⟨_ :: sa, step, sb, rfl, .cons hstep hsa, by simpa using hmeets, hsb⟩

theorem notices_eq (h : Chain first cs steps) :
    (steps.flatMap HeaderStep.notices).map (·.message)
      = headerNotices first (cs.head?.any (·.isDefault)) := by
  have hnone {cs : List ClauseLines} {steps : List HeaderStep} (h : Chain false cs steps) :
      (steps.flatMap HeaderStep.notices).map (·.message) = [] := by
    generalize hfirst : false = first at h
    induction h with
    | nil => rfl
    | cons hstep _ ih =>
      subst hfirst
      rw [flatMap_cons, map_append, hstep.notices, ih rfl]
      rfl
  cases h with
  | nil => cases first <;> rfl
  | cons hstep hs =>
    rw [flatMap_cons, map_append, hstep.notices, hnone hs, append_nil]
    rfl

/-- The headers make a chain if no clause is misplaced. -/
theorem legal_iff (h : Chain true cs steps) : LegalChain (steps.map HeaderStep.line) ↔ ¬ Misplaced cs := by
  constructor
  · rintro hlegal ⟨a, c, b, rfl, hc, ha, hb⟩
    obtain ⟨sa, step, sb, rfl, hsa, hmeets, hsb⟩ := h.split
    have hline : HeaderShape.last.IsLine step.line := by
      have hline := hmeets.line
      have hempty : a.isEmpty = false := by simpa using ha
      rw [hempty, hc] at hline
      exact hline
    have hsa : sa ≠ [] := by
      rintro rfl
      exact ha (length_eq_zero_iff.mp hsa.length_eq.symm)
    have hsb : sb ≠ [] := by
      rintro rfl
      exact hb (length_eq_zero_iff.mp hsb.length_eq.symm)
    rw [map_append, map_cons] at hlegal
    have hnext := hlegal.isLine_next (by simpa using hsa) (by simpa using hsb)
    exact absurd (hline.unique hnext) (by decide)
  · intro hplaced
    cases h with
    | nil => exact .inl rfl
    | @cons _ c cs step steps hstep hs =>
      have hfirst : HeaderShape.first.IsLine step.line := hstep.line
      cases hfind : cs.find? (·.isDefault) with
      | none =>
        -- conditions to the end
        have hv : ∀ c ∈ cs, c.isDefault = false := fun c hc => by
          simpa using find?_eq_none.mp hfind c hc
        exact .inr ⟨step.line, steps.map HeaderStep.line, [], by simp, hfirst,
          forall_mem_map.mpr (hs.isLine_next hv), .inl rfl⟩
      | some d =>
        obtain ⟨hd, a, b, rfl, ha⟩ := find?_eq_some_iff_append.mp hfind
        -- what follows the clause without values would make it misplaced
        have hb : b = [] := Classical.byContradiction fun hb =>
          hplaced ⟨c :: a, d, b, rfl, hd, cons_ne_nil _ _, hb⟩
        subst hb
        obtain ⟨sa, last, sb, rfl, hsa, hmeets, hsb⟩ := hs.split
        cases hsb
        have hlast : HeaderShape.last.IsLine last.line := by
          have hline := hmeets.line
          rw [hd] at hline
          exact hline
        refine .inr ⟨step.line, sa.map HeaderStep.line, [last.line], by simp, hfirst, ?_, .inr ⟨_, rfl, hlast⟩⟩
        exact forall_mem_map.mpr (hsa.isLine_next fun c hc => by simpa using ha c hc)

end HeaderStep.Chain

/-! ## 7. Switches -/

theorem exists_frames_openSwitch (tag : Text) (s : State) :
    ∃ d : Option Text, (∀ name ∈ d, '\n' ∉ name) ∧ (openSwitch tag s).frames
      = { s.frames with switches := ⟨d, true, s.depthBefore⟩ :: s.frames.switches } := by
  unfold openSwitch
  split
  · exact ⟨none, fun name h => (by cases h), rfl⟩
  · refine ⟨some (s.names.next .switch), ?_, rfl⟩
    rintro name ⟨⟩
    exact newline_not_mem_name .switch s.names.switch

theorem Lower.switch_eq_ok {line : Text} (h : (switch line).run s = .ok lowered s') :
    ∃ bound s₁, (switchInit (splitSwitchHead line).1).run s = .ok bound s₁ ∧
      s' = openSwitch (splitSwitchHead line).2
        (noticeTypeSwitch line (splitSwitchHead line).2 s₁) := by
  rw [switch_run] at h
  cases hbound : (switchInit (splitSwitchHead line).1).run s with
  | error stop s₁ =>
    rw [hbound] at h
    cases h
  | ok bound s₁ =>
    rw [hbound] at h
    cases h
    exact ⟨bound, s₁, rfl, rfl⟩

theorem Head.frames_switch {H : Text} (hH : Head H)
    (hrun : (switch ("switch" ++ (H ++ "\x7b"))).run s = .ok lowered s') :
    ∃ d : Option Text, (∀ name ∈ d, '\n' ∉ name) ∧
      s'.frames = { s.frames with switches := ⟨d, true, s.depthBefore⟩ :: s.switches } := by
  have hinit := hH.wellNested_switchInit
  have hopens := (@spec_switchInit True True _ (fun _ => hinit) fun _ => hinit).keeps
  obtain ⟨bound, s₁, hbound, rfl⟩ := switch_eq_ok hrun
  have hs₁ := hopens.ok hbound
  have hframes : s₁.frames = s.frames := hs₁.frames_eq trivial trivial
  have hnotice (line tag : Text) : (noticeTypeSwitch line tag s₁).frames = s₁.frames ∧
      (noticeTypeSwitch line tag s₁).depthBefore = s₁.depthBefore := by
    unfold noticeTypeSwitch
    split <;> exact ⟨rfl, rfl⟩
  obtain ⟨d, hd, hopen⟩ := exists_frames_openSwitch (splitSwitchHead ("switch" ++ (H ++ "\x7b"))).2
    (noticeTypeSwitch ("switch" ++ (H ++ "\x7b"))
      (splitSwitchHead ("switch" ++ (H ++ "\x7b"))).2 s₁)
  rw [(hnotice _ _).1, (hnotice _ _).2, hframes, hs₁.depthBefore_eq] at hopen
  exact ⟨d, hd, hopen⟩

theorem Run.switch_step {r₁ : Run} {number : Nat} {head H : Text}
    (hparts : lineParts? head = some ("switch" ++ (H ++ "\x7b"), comment)) (hH : Head H) (hp : r.pending = none)
    (hF : r.state.frames.Below r.state.depth) (hrun : r.sourceLine number head = .ok r₁) :
    r₁.pending = none ∧ ∃ d : Option Text, (∀ name ∈ d, '\n' ∉ name) ∧
      r₁.state.frames.InSwitch ⟨d, true, r.state.depth⟩ r.state.switches := by
  have hswitch : Keyword "switch" .switch := by decide
  have hword := hswitch.firstWord_eq hH "\x7b"
  have hlast : endsWith ("switch" ++ (H ++ "\x7b")) "(" = false := by
    rw [← append_assoc]
    exact endsWith_concat_of_ne _ (by decide)
  obtain ⟨lowered, s', hlower, hs', hp'⟩ :=
    Run.sourceLine_keyword_eq_ok hrun hparts hword hswitch.lookup hlast hp hF.blocks
  obtain ⟨d, hd, hframes⟩ := hH.frames_switch hlower
  have hdepth : braceDepth r.state.depth ("switch" ++ (H ++ "\x7b")) = r.state.depth + 1 := by
    rw [← append_assoc]
    exact (hswitch.wellNested hH).braceDepth_open r.state.depth
  refine ⟨hp', d, hd, ?_⟩
  rw [hs', hframes]
  exact ⟨hF.blocks, hdepth, rfl, hF.closures, hF.function⟩

/-- **The headers of a switch** make one chain of branches exactly if no clause without values stands
    between two others, and the headers are noticed for nothing but a clause without values in front of
    all others. -/
theorem headers_legal_iff {r r' : Run} {number : Nat} {head H : Text} {comment : Option Text}
    {clauses : List ClauseLines} (hp : r.pending = none) (hF : r.state.frames.Below r.state.depth)
    (hparts : lineParts? head = some ("switch" ++ (H ++ "\x7b"), comment)) (hH : Head H)
    (hclauses : ∀ c ∈ clauses, c.WellFormed)
    (hrun : r.sourceLines number (head :: clauses.flatMap ClauseLines.lines) = .ok r') :
    ∃ opened, r.sourceLine number head = .ok opened ∧
      (opened.headerSteps (number + 1) clauses).length = clauses.length ∧
      (LegalChain ((opened.headerSteps (number + 1) clauses).map HeaderStep.line) ↔ ¬ Misplaced clauses) ∧
      ((opened.headerSteps (number + 1) clauses).flatMap HeaderStep.notices).map (·.message)
        = if clauses.head?.any (·.isDefault) then [defaultFirst] else [] := by
  obtain ⟨opened, hopen, hrun⟩ := exists_ok_of_bind hrun
  obtain ⟨hp₁, d, hd, hF₁⟩ := Run.switch_step hparts hH hp hF hopen
  have hchain := Run.headerSteps_chain hclauses hp₁ hF₁ hd hrun
  exact ⟨opened, hopen, hchain.length_eq, hchain.legal_iff, hchain.notices_eq⟩

/-- A switch in the body of the first clause, and a remark behind the last header. -/
def nestedClauses : List ClauseLines :=
  [⟨false, "\tcase 1, 2:", ["\t\tswitch \x7b", "\t\tdefault:", "\t\t\tf()", "\t\t\x7d", "\t\tfallthrough"]⟩,
   ⟨false, "\tcase g(3):", []⟩,
   ⟨true, "\tdefault: // the rest", ["\t\th()"]⟩]

theorem wellFormed_nestedClauses : ∀ c ∈ nestedClauses, c.WellFormed := by
  have hone (t : Text) (h : Simple t) : Grammar .body [t] := .sequence (.simple h) .empty
  have hclauses : Grammar .clauses ["default:", "f()"] :=
    @Grammar.defaultClause ["f()"] [] (hone "f()" (by decide)) .noClause
  have hswitch : Grammar .statement ["switch \x7b", "default:", "f()", "\x7d"] :=
    @Grammar.switch " " ["default:", "f()"] (by decide) hclauses
  have hinner : Grammar .body ["switch \x7b", "default:", "f()", "\x7d", "fallthrough"] :=
    .sequence hswitch (hone "fallthrough" (by decide))
  have hfirst : ClauseLines.WellFormed ⟨false, "\tcase 1, 2:",
      ["\t\tswitch \x7b", "\t\tdefault:", "\t\t\tf()", "\t\t\x7d", "\t\tfallthrough"]⟩ :=
    ⟨⟨"case 1, 2:", none, rfl, ⟨by decide, rfl, by decide⟩⟩, by decide,
      hinner.wholeBody rfl (by decide)⟩
  have hsecond : ClauseLines.WellFormed ⟨false, "\tcase g(3):", []⟩ :=
    ⟨⟨"case g(3):", none, rfl, ⟨by decide, rfl, by decide⟩⟩, by decide,
      Grammar.wholeBody .empty rfl (by decide)⟩
  have hlast : ClauseLines.WellFormed ⟨true, "\tdefault: // the rest", ["\t\th()"]⟩ :=
    ⟨⟨"default:", some "// the rest", rfl, ⟨by decide, rfl, by decide⟩⟩, by decide,
      (hone "h()" (by decide)).wholeBody rfl (by decide)⟩
  simpa [nestedClauses] using ⟨hfirst, hsecond, hlast⟩

theorem headers_legal_iff_nested :
    ∃ opened, insideMain.sourceLine 7 "\tswitch n \x7b" = .ok opened ∧
      (opened.headerSteps 8 nestedClauses).length = 3 ∧
      (LegalChain ((opened.headerSteps 8 nestedClauses).map HeaderStep.line) ↔ ¬ Misplaced nestedClauses) ∧
      ((opened.headerSteps 8 nestedClauses).flatMap HeaderStep.notices).map (·.message) = [] := by
  have hF : insideMain.state.frames.Below insideMain.state.depth := ⟨rfl, by decide, by decide, by decide⟩
  obtain ⟨r', hrun⟩ : ∃ r', insideMain.sourceLines 7
      ("\tswitch n \x7b" :: nestedClauses.flatMap ClauseLines.lines) = .ok r' :=
    exists_ok_of_isOk (by decide +kernel)
  exact @headers_legal_iff insideMain r' 7 "\tswitch n \x7b" " n " none nestedClauses rfl hF rfl
    (by decide) wellFormed_nestedClauses hrun

/-- The source of a switch with a clause without values in the middle. -/
def middleDefault : List Text :=
  ["switch n \x7b", "case 1:", "f()", "default:", "g()", "case 2:", "h()", "\x7d"]

/-- A clause without values in the middle becomes an `else` with another branch behind it, and nobody
    is told. -/
theorem middleDefault_illegal :
    ∃ r', insideMain.sourceLines 3 middleDefault = .ok r' ∧ r'.state.notices = [] ∧
      r'.output = ["auto _s__0 = n;", "if (_s__0 == 1) \x7b", "f();", "\x7d else \x7b", "g();",
        "\x7d else if (_s__0 == 2) \x7b", "h();", "\x7d"] ∧
      ¬ LegalChain ["if (_s__0 == 1) \x7b", "\x7d else \x7b", "\x7d else if (_s__0 == 2) \x7b"] := by
  have hillegal : ¬ LegalChain ["if (_s__0 == 1) \x7b", "\x7d else \x7b", "\x7d else if (_s__0 == 2) \x7b"] := by
    intro h
    have hnext := LegalChain.isLine_next (a := ["if (_s__0 == 1) \x7b"])
      h (by decide) (by decide)
    exact absurd hnext.start_prefix (by decide)
  refine ⟨_, rfl, ?_, ?_, hillegal⟩
  · decide +kernel
  · decide +kernel

end Linewise
