/-
  A deferred closure on one line and over several lines comes to the same.

  On one line the statements are lowered apart from their lines and the name of the binding is drawn
  after them; over several lines the name comes first, and each statement is a line of its own. What a
  statement reads of the state is the same both ways, so the two runs go side by side.
-/
import Linewise.Proofs.ConstGroups
import Linewise.Proofs.RawInProgram
import Linewise.Proofs.SimpleStatements

namespace Linewise

open Text List Lower State Run

variable {a b t : Text} {texts statements : List Text}

/-! ## 1. The two forms -/

/-- The kinds of statements that are lowered inside a closure on one line. -/
def StatementKind.isInline : StatementKind → Bool
  | print | assignment | expression | unsupported _ | returnStatement => true
  | _ => false

/-- A statement that may stand in a closure on one line: trimmed, well nested, without comment, backquote
    and semicolon. -/
@[mk_iff] structure Inline (t : Text) : Prop where
  solid : Solid t
  ne_nil : t ≠ []
  part : IsPart ';' t
  plain : Plain t
  kind : (StatementKind.ofCode t).isInline = true

instance (t : Text) : Decidable (Inline t) := decidable_of_iff _ (inline_iff ..).symm

/-- What stands between the braces of a closure on one line. -/
def deferredBody (statements : List Text) : Text := " " ++ (joinWith "; " statements ++ " ")

/-- A deferred closure on one line. -/
def deferredLine (statements : List Text) : Text := "defer func() \x7b" ++ (deferredBody statements ++ "\x7d()")

/-- The same closure over several lines. -/
def deferredLines (statements : List Text) : List Text :=
  "defer func() \x7b" :: (statements ++ [("\x7d()" : Text)])

/-! ## 2. States up to their place -/

namespace State

/-- The state without the numbers of lines, and without the depth before the line at hand. -/
def placeless (s : State) : State :=
  { s with lineNumber := 0, depthBefore := 0, notices := s.notices.map fun n => { n with line := 0 } }

/-- A closure draws the name it is bound to, if it is a deferred one. -/
def drawClosure (s : State) : ClosureKind → State
  | .deferred => { s with names := s.names.advance .defer }
  | .lambda => s

/-- Inside a closure that opens in the state. -/
def inClosure (s : State) (kind : ClosureKind) (opener : Nat) : State :=
  { s.drawClosure kind with
    depth := s.depth + 1
    closures := ⟨kind, s.depth⟩ :: s.closures }.noteOpener opener

theorem placeless_notice (s : State) (message : Text) :
    (s.notice message).placeless = s.placeless.notice message := by
  unfold notice placeless
  rw [map_append]
  rfl

theorem noteOpener_noteOpener (s : State) (i j : Nat) : (s.noteOpener i).noteOpener j = s.noteOpener i := by
  unfold noteOpener
  cases hd : s.struct with
  | none => rfl
  | some d => cases d.opener <;> simp

end State

theorem Run.placeless_stateAt (r : Run) (ht : WellNested t) (number : Nat) :
    (r.stateAt number t).placeless = r.state.placeless := by
  have hdepth : braceDepth r.state.depth t = r.state.depth := ht.braceDepth_eq _
  unfold stateAt countBraces
  simp only [hdepth]
  rfl

/-- A state, and the state inside a closure that was opened in it. -/
structure Within (kind : ClosureKind) (opener count : Nat) (s u : State) : Prop where
  blocks : s.blocks = []
  drawn : s.names.defer = count
  state : u.placeless = (s.inClosure kind opener).placeless

namespace Within

variable {kind : ClosureKind} {opener count : Nat} {s u : State}

/-- Simple statements do not see their closure. -/
theorem unseen (kind : ClosureKind) (opener count : Nat) : Unseen (Within kind opener count) where
  knownMaps h := by
    refine Eq.trans ?_ (congrArg knownMaps h.state).symm
    cases kind <;> rfl
  function h := by
    refine Eq.trans ?_ (congrArg (·.function.isSome) h.state).symm
    cases kind <;> rfl
  discard h := by
    refine Eq.trans ?_ (congrArg (·.names.next .discard) h.state).symm
    cases kind <;> rfl
  setMaps known h := by
    refine ⟨h.blocks, h.drawn, (congrArg (fun s : State => { s with knownMaps := known }) h.state).trans ?_⟩
    cases kind <;> rfl
  notice message h := by
    refine ⟨h.blocks, h.drawn, ?_⟩
    rw [placeless_notice, h.state, ← placeless_notice]
    cases kind <;> rfl
  prettyPrint h := by
    refine ⟨h.blocks, h.drawn, (congrArg (fun s : State => { s with needsPrettyPrint := true }) h.state).trans ?_⟩
    cases kind <;> rfl
  draw h := by
    refine ⟨h.blocks, h.drawn,
      (congrArg (fun s : State => { s with names := s.names.advance .discard }) h.state).trans ?_⟩
    cases kind <;> rfl

theorem blocks_eq (h : Within kind opener count s u) : u.blocks = [] := by
  refine (congrArg State.blocks h.state).trans (Eq.trans ?_ h.blocks)
  cases kind <;> rfl

theorem depth_eq (h : Within kind opener count s u) : u.depth = s.depth + 1 := congrArg depth h.state

theorem closures_eq (h : Within kind opener count s u) : u.closures = ⟨kind, s.depth⟩ :: s.closures :=
  congrArg closures h.state

theorem noteOpener (h : Within kind opener count s u) (i : Nat) : Within kind opener count s (u.noteOpener i) := by
  refine ⟨h.blocks, h.drawn, ?_⟩
  have hnoted : (u.noteOpener i).placeless = ((s.inClosure kind opener).noteOpener i).placeless :=
    congrArg (State.noteOpener · i) h.state
  rw [hnoted]
  exact congrArg State.placeless (noteOpener_noteOpener _ opener i)

theorem stateAt {r : Run} (h : Within kind opener count s r.state) (ht : WellNested t) (number : Nat) :
    Within kind opener count s (r.stateAt number t) :=
  ⟨h.blocks, h.drawn, (r.placeless_stateAt ht number).trans h.state⟩

end Within

/-! ## 3. Statements and lines -/

theorem Inline.trim_eq (h : Inline t) : trim t = t := trim_eq_self_of_solid h.solid

theorem Inline.simpleStatement_run (h : Inline t) {u : State} (hc : u.closures ≠ []) :
    (simpleStatement t).run u
      = (line (StatementKind.ofCode t) t >>= fun lowered => pure lowered.renderD).run u := by
  have hkind := h.kind
  unfold simpleStatement
  dsimp only
  rw [h.trim_eq]
  generalize StatementKind.ofCode t = kind at hkind
  unfold StatementKind.isInline at hkind
  split at hkind
  · rfl
  · rfl
  · rfl
  · rfl
  · have hopen : u.closures.isEmpty = false := isEmpty_eq_false_iff.mpr hc
    have hreturn : (returnStatement t).run u = .ok (.statement t) u := by
      unfold returnStatement
      rw [EStateM.run_bind, EStateM.run_get]
      dsimp only
      split
      · rfl
      · rw [hopen]
        rfl
    rw [bind_ok (show (line .returnStatement t).run u = _ from hreturn)]
    rfl
  · cases hkind

/-- A run does what a step apart from it does: it emits lines for the result and ends inside a
    closure around the end of the step, or it stops for the same reason. -/
inductive Run.Carries {α : Type} (W : State → State → Prop) (P : α → Prop) (out : α → List Text) (r : Run) :
    EStateM.Result Stop State α → Except Halt Run → Prop where
  | ok {a : α} {s u : State} (hP : P a) (hw : W s u) :
      Carries W P out r (.ok a s) (.ok { r with state := u, output := r.output ++ out a })
  | error (stop : Stop) (s : State) (line : Nat) : Carries W P out r (.error stop s) (.error ⟨line, stop⟩)

theorem layout_plain (l : Lowered) : layout [] false l.render none = lines l.renderD := by
  cases hl : l.render with
  | none =>
    rw [Lowered.renderD, hl]
    rfl
  | some text =>
    rw [Lowered.renderD, hl]
    exact map_id _

theorem indentation_of_solid (h : Solid t) : indentation t = [] := by
  cases t with
  | nil => rfl
  | cons c t => exact takeWhile_cons_of_neg (by rw [h.1 c rfl]; decide)

theorem Run.sourceLine_trimmed {r : Run} {kind : StatementKind} (hr : r.Between) (number : Nat) (hsolid : Solid t)
    (hne : t ≠ []) (hplain : Plain t) (hk : (r.stateAt number t).classify t = kind)
    (hbrace : (kind == .expression && startsWith t "\x7d") = false) (hfun : kind ≠ .functionSignature)
    (hstruct : kind ≠ .blockClose .structBody) :
    r.sourceLine number t
      = r.goOn (lines ·.renderD) ((line kind t).run (r.stateAt number t)) := by
  have hline := codeLine_of_brace (r := { r with state := { r.state with lineNumber := number } }) (indentation t)
    none false hk hbrace hfun hstruct
  rw [sourceLine_plain number (trim_eq_self_of_solid hsolid) hplain hr.pending hr.block?_ne,
    if_neg (by simpa using hne), hline, indentation_of_solid hsolid]
  simp only [layout_plain]
  rfl

section Statements

variable {kind : ClosureKind} {opener count : Nat} {r : Run} {s : State}

theorem Inline.sourceLine_eq (h : Inline t) (hr : r.Between) (number : Nat) :
    r.sourceLine number t = r.goOn (lines ·.renderD) ((line (.ofCode t) t).run (r.stateAt number t)) := by
  have hbrace : startsWith t "\x7d" = false := h.part.wellNested.not_startsWith rfl
  have hkind : (r.stateAt number t).classify t = .ofCode t :=
    classify_eq_ofCode h.ne_nil h.plain hr.blocks (closesClosure_eq_false hbrace)
  exact sourceLine_trimmed hr number h.solid h.ne_nil h.plain hkind (by rw [hbrace, Bool.and_false])
    (fun e => absurd (e ▸ h.kind) (by decide)) fun e => absurd (e ▸ h.kind) (by decide)

theorem Run.carries_statement (h : Inline t) (hp : r.pending = none) (hw : Within kind opener count s r.state)
    (number : Nat) :
    r.Carries (Within kind opener count) SolidEnd lines ((simpleStatement t).run s) (r.sourceLine number t) := by
  have hat := hw.stateAt h.part.wellNested number
  have hclosures : (r.stateAt number t).closures ≠ [] := by
    rw [hat.closures_eq]
    exact cons_ne_nil _ _
  have hend := blind_simpleStatement (Within.unseen kind opener count) h.trim_eq h.part.wellNested s _ hat
  rw [h.simpleStatement_run hclosures] at hend
  rw [h.sourceLine_eq ⟨hp, hw.blocks_eq⟩]
  generalize (simpleStatement t).run s = x at hend
  cases hrun : (line (.ofCode t) t).run (r.stateAt number t) with
  | error stop u =>
    rw [bind_error hrun] at hend
    cases hend
    exact .error stop _ u.lineNumber
  | ok lowered u =>
    rw [bind_ok hrun] at hend
    change SameEnd _ _ _ (.ok lowered.renderD u) at hend
    cases hend with
    | ok hsolid hw' => exact .ok hsolid (hw'.noteOpener _)

/-- The body of a closure, statement after statement. -/
theorem Run.carries_statements (h : ∀ t ∈ statements, Inline t) (hp : r.pending = none)
    (hw : Within kind opener count s r.state) (number : Nat) :
    r.Carries (Within kind opener count) (fun texts => ∀ x ∈ texts, SolidEnd x) (flatMap lines)
      ((statements.mapM simpleStatement).run s) (r.sourceLines number statements) := by
  induction statements generalizing r s number with
  | nil =>
    have hout : r = { r with state := r.state, output := r.output ++ ([] : List Text).flatMap lines } := by
      rw [flatMap_nil, append_nil]
    conv => arg 6; rw [hout]
    exact .ok (forall_mem_nil _) hw
  | cons t ts ih =>
    rw [mapM_cons, sourceLines]
    have hstep := carries_statement (h t mem_cons_self) hp hw number
    cases hrun : (simpleStatement t).run s with
    | error stop s' =>
      rw [hrun] at hstep
      rw [bind_error hrun]
      generalize r.sourceLine number t = y at hstep
      cases hstep with
      | error stop s' line => exact .error stop s' line
    | ok text s' =>
      rw [hrun] at hstep
      rw [bind_ok hrun]
      generalize r.sourceLine number t = y at hstep
      cases hstep with
      | @ok _ _ u hsolid hw' =>
        have hrest := ih (r := { r with state := u, output := r.output ++ lines text })
          (forall_mem_cons.mp h).2 hp hw' (number + 1)
        dsimp only [Except.bind]
        cases hmap : (ts.mapM simpleStatement).run s' with
        | error stop s'' =>
          rw [hmap] at hrest
          rw [bind_error hmap]
          generalize sourceLines _ (number + 1) ts = z at hrest
          cases hrest with
          | error stop s'' line => exact .error stop s'' line
        | ok texts s'' =>
          rw [hmap] at hrest
          rw [bind_ok hmap]
          generalize sourceLines _ (number + 1) ts = z at hrest
          cases hrest with
          | ok hsolids hw'' =>
            rw [append_assoc, ← flatMap_cons]
            refine .ok (fun x hx => ?_) hw''
            rcases mem_cons.mp hx with rfl | hx
            · exact hsolid
            · exact hsolids x hx

end Statements

/-! ## 4. Lines with spaces for breaks -/

/-- Lines of output as one text, with a space for every break. -/
def unbroken (ls : List Text) : Text := (unlines ls).map fun c => if c = '\n' then ' ' else c

theorem unbroken_append {pre post : List Text} (hpre : pre ≠ []) (hpost : post ≠ []) :
    unbroken (pre ++ post) = unbroken pre ++ ' ' :: unbroken post := by
  unfold unbroken
  rw [unlines_append hpre hpost, map_append, map_cons]
  rfl

theorem lines_append_space (ha : SolidEnd a) (hane : a ≠ []) (hb : b ≠ []) :
    ∃ front l h t, lines a = front ++ [l] ∧ lines b = h :: t ∧
      lines (a ++ ' ' :: b) = front ++ (l ++ ' ' :: h) :: t := by
  obtain ⟨p, hp, hs, hclean⟩ := exists_lastLine a
  generalize lastLine a = l at hs hclean
  have hl : l ≠ [] := by
    rintro rfl
    rw [append_nil] at hs
    rcases hp with rfl | ⟨q, rfl⟩
    · exact hane hs
    · exact absurd (ha '\n' (by rw [hs, getLast?_concat])) (by decide)
  obtain ⟨front, hfront⟩ := hp.lines_append
  obtain ⟨h, t, hlines, hspace⟩ := lines_cons (c := ' ') (by decide) (by decide) hb
  obtain ⟨h', t', hspace', hjoined⟩ := lines_onFront hclean (c := ' ') (by decide) (by decide) b
  obtain ⟨hhead, rfl⟩ := cons.inj (hspace.symm.trans hspace')
  obtain rfl : h = h' := (cons.inj hhead).2
  refine ⟨front, l, h, t, ?_, hlines, ?_⟩
  · rw [hs, hfront, lines_eq_singleton hl hclean]
  · rw [hs, append_assoc, hfront, hjoined]

theorem unbroken_lines_append (ha : SolidEnd a) (hane : a ≠ []) (hb : b ≠ []) :
    unbroken (lines (a ++ ' ' :: b)) = unbroken (lines a) ++ ' ' :: unbroken (lines b) := by
  obtain ⟨front, l, h, t, hla, hlb, hlines⟩ := lines_append_space ha hane hb
  rw [hla, hlb, hlines]
  unfold unbroken
  rw [unlines_comment, cons_append, ← unlines_cons, map_append, map_cons]
  rfl

theorem unbroken_lines_joinWith (hsolid : ∀ x ∈ texts, SolidEnd x) (hne : [] ∉ texts) :
    unbroken (lines (joinWith " " texts)) = unbroken (texts.flatMap lines) := by
  have hnil (x : Text) (hx : x ∈ texts) : x ≠ [] := fun e => hne (e ▸ hx)
  induction texts with
  | nil => rfl
  | cons x xs ih =>
    have hx := hnil x mem_cons_self
    cases xs with
    | nil => rw [joinWith_singleton, flatMap_cons, flatMap_nil, append_nil]
    | cons y ys =>
      have hy := hnil y (mem_cons_of_mem x mem_cons_self)
      have hrest := ih (forall_mem_cons.mp hsolid).2 (fun hm => hne (mem_cons_of_mem x hm))
        (forall_mem_cons.mp hnil).2
      have hlines : (y :: ys).flatMap lines ≠ [] := by
        exact append_ne_nil_of_left_ne_nil (lines_ne_nil hy) _
      rw [flatMap_cons, unbroken_append (lines_ne_nil hx) hlines, ← hrest, joinWith_cons_cons]
      exact unbroken_lines_append (hsolid x mem_cons_self) hx (joinWith_ne_nil _ hy ys)

theorem joinWith_enclosed (opener closer : Text) (hne : texts ≠ []) :
    joinWith " " (opener :: (texts ++ [closer])) = opener ++ " " ++ joinWith " " texts ++ (" " ++ closer) := by
  rw [← singleton_append,
    joinWith_append " " (cons_ne_nil _ _) (append_cons_ne_nil _),
    joinWith_append " " hne (cons_ne_nil _ _), joinWith_singleton, joinWith_singleton]
  simp only [append_assoc]

theorem unbroken_enclosed {opener closer : Text} {o k : Char} (ho : opener.getLast? = some o)
    (hk : closer.getLast? = some k) (hob : isBlank o = false) (hkb : isBlank k = false)
    (hsolid : ∀ x ∈ texts, SolidEnd x) (hne : [] ∉ texts) :
    unbroken (lines (joinWith " " (opener :: (texts ++ [closer]))))
      = unbroken ((opener :: (texts ++ [closer])).flatMap lines) := by
  refine unbroken_lines_joinWith ?_ fun hm => ?_
  · exact forall_mem_cons.mpr ⟨solidEnd_of_last ho hob,
      forall_mem_append.mpr ⟨hsolid, forall_mem_singleton.mpr (solidEnd_of_last hk hkb)⟩⟩
  · rcases mem_cons.mp hm with rfl | hm
    · cases ho
    · rcases mem_append.mp hm with hm | hm
      · exact hne hm
      · rw [← mem_singleton.mp hm] at hk
        cases hk

/-! ## 5. The closure on one line -/

theorem Lexer.commentIndex?_append_none {s : Text} (hs : s.head? ≠ some '/') :
    ∀ {l : Lexer}, l.commentIndex? a = none → (l.run a).commentIndex? s = none → l.commentIndex? (a ++ s) = none := by
  induction a with
  | nil => exact fun _ h => h
  | cons c a ih =>
    intro l ha h
    rw [commentIndex?] at ha
    split at ha
    · cases ha
    · rename_i hc
      have hmeet : ¬ (l.isCode c && c == '/' && (a ++ s).head? == some '/') = true := by
        cases a with
        | nil =>
          rw [nil_append, beq_eq_false_iff_ne.mpr hs, Bool.and_false]
          exact Bool.false_ne_true
        | cons d a => exact hc
      rw [cons_append, commentIndex?, if_neg hmeet, ih (Option.map_eq_none_iff.mp ha) h]
      rfl

theorem Lexer.commentIndex?_spaced {parts : List Text} {tail : Text} (hnested : ∀ t ∈ parts, WellNested t)
    (hcomment : ∀ t ∈ parts, start.commentIndex? t = none) (htail : '/' ∉ tail) :
    start.commentIndex? (joinWith "; " parts ++ tail) = none := by
  have hend {l : Lexer} : l.commentIndex? tail = none := commentIndex?_of_not_mem htail
  induction parts with
  | nil => exact hend
  | cons t ts ih =>
    have hmode := (hnested t mem_cons_self).literals
    have ht := hcomment t mem_cons_self
    cases ts with
    | nil =>
      rw [joinWith_singleton]
      exact commentIndex?_append_none (fun h => htail (mem_of_mem_head? h)) ht hend
    | cons t' ts =>
      have hcode : (start.run t).isCode ';' = true := isCode_of_mode hmode rfl
      have hfresh : ((start.run t).run "; ").Fresh :=
        (fresh_step hcode (by decide)).run_blank (by decide)
      rw [joinWith_cons_cons, append_assoc, append_assoc]
      refine commentIndex?_append_none ?_ ht (commentIndex?_eq_none (by decide) ?_)
      · show some ';' ≠ some '/'
        decide
      · rw [hfresh.anew.commentIndex?_eq]
        exact ih (forall_mem_cons.mp hnested).2 (forall_mem_cons.mp hcomment).2

section Inline

variable {statements : List Text} (h : ∀ t ∈ statements, Inline t)

include h

theorem wellNested_deferredBody : WellNested (deferredBody statements) := by
  have hjoined : WellNested (joinWith "; " statements) :=
    wellNested_spaced (by decide) (by decide) (by decide) fun t ht => (h t ht).part
  exact WellNested.append (by decide) (Bare.append_wellNested hjoined (by decide)) (by decide)

theorem splitTop_deferredBody : splitTop ';' (deferredBody statements) = statements := by
  have hsolid : Solid (joinWith "; " statements) :=
    solid_joinWith (fun t ht => (h t ht).solid) fun t ht => (h t ht).ne_nil
  have hspace : Blank " " := by decide
  have htrim : trim (deferredBody statements) = joinWith "; " statements :=
    (trim_append_of_blank hspace hspace).trans (trim_eq_self_of_solid hsolid)
  rw [← splitTop_trim rfl rfl, htrim]
  exact splitTop_spaced (by decide) (by decide) (by decide) (fun t ht => (h t ht).part) (fun t ht => (h t ht).solid)
    fun t ht => (h t ht).ne_nil

theorem wellNested_deferredLine : WellNested (deferredLine statements) := by
  have hbraces := (wellNested_deferredBody h).bracketed (o := '\x7b') rfl
  have hcall := hbraces.append (b := "()") (by decide) (by rw [← cons_append, getLast?_concat]; decide)
  have hline := WellNested.append (a := "defer func() ") (by decide) hcall (by decide)
  unfold deferredLine
  simpa using hline

omit h in
theorem getLast?_deferredLine (statements : List Text) : (deferredLine statements).getLast? = some ')' := by
  unfold deferredLine
  rw [← append_assoc, getLast?_append_of_ne_nil _ (by decide)]
  rfl

omit h in
theorem not_endsWith_deferredLine (statements : List Text) {c : Char} (hc : c ≠ ')') :
    endsWith (deferredLine statements) [c] = false := by
  refine endsWith_of_getLast? fun hlast => hc ?_
  exact Option.some.inj (hlast.symm.trans (getLast?_deferredLine statements))

theorem plain_deferredLine : Plain (deferredLine statements) where
  noComment := by
    unfold deferredLine deferredBody
    rw [append_assoc, append_assoc, ← append_assoc "defer func() \x7b".toList]
    refine Lexer.commentIndex?_eq_none (by decide) ?_
    rw [Lexer.Anew.commentIndex?_eq ⟨rfl, .inl (by decide)⟩]
    exact Lexer.commentIndex?_spaced (fun t ht => (h t ht).part.wellNested) (fun t ht => (h t ht).plain.noComment)
      (by decide : '/' ∉ (" \x7d()" : Text))
  noBlockComment := rfl
  noBackquote := by
    intro hm
    unfold deferredLine deferredBody at hm
    simp only [mem_append] at hm
    obtain hm | (hm | hm | hm) | hm := hm
    · exact absurd hm (by decide)
    · exact absurd hm (by decide)
    · obtain hm | ⟨t, ht, hm⟩ := mem_joinWith hm
      · exact absurd hm (by decide)
      · exact (h t ht).plain.noBackquote hm
    · exact absurd hm (by decide)
    · exact absurd hm (by decide)
  noSemicolon := not_endsWith_deferredLine statements (by decide)

omit h in
theorem solid_deferredLine (statements : List Text) : Solid (deferredLine statements) :=
  ⟨solidStart_cons rfl _, solidEnd_of_last (getLast?_deferredLine statements) rfl⟩

omit h in
theorem trim_deferredLine (statements : List Text) :
    trim (stripStart "defer" (deferredLine statements))
      = "func() \x7b" ++ (deferredBody statements ++ "\x7d()") := by
  have hlast : ("func() \x7b" ++ (deferredBody statements ++ "\x7d()")).getLast? = some ')' := by
    rw [← append_assoc, getLast?_append_of_ne_nil _ (by decide)]
    rfl
  have hstrip : stripStart "defer" (deferredLine statements)
      = ' ' :: ("func() \x7b" ++ (deferredBody statements ++ "\x7d()")) := rfl
  exact trim_space_of_solid ⟨solidStart_cons rfl _, solidEnd_of_last hlast rfl⟩

theorem deferStatement_deferredLine :
    deferStatement (deferredLine statements) = deferInline statements := by
  have hliteral : calledBody? ('\x7b' :: (deferredBody statements ++ "\x7d()"))
      = some (deferredBody statements) := by
    have hinside := enclosed?_eq (o := '\x7b') rfl (wellNested_deferredBody h) "()"
    have hbrace : startsWith ('\x7b' :: (deferredBody statements ++ "\x7d()")) "\x7b" = true := rfl
    unfold calledBody?
    exact (congrArg (Option.bind · _) hinside).trans rfl
  have hopens : (('\x7b' :: (deferredBody statements ++ "\x7d()") : Text) == "\x7b") = false := by
    refine beq_eq_false_iff_ne.mpr fun he => ?_
    exact append_ne_nil_of_right_ne_nil (deferredBody statements) (by decide) (cons.inj he).2
  have hstatements : statements.filter (!·.isEmpty) = statements :=
    filter_eq_self.mpr fun t ht => by simpa using (h t ht).ne_nil
  have hfunc : stripStart? "func()" ("func() \x7b" ++ (deferredBody statements ++ "\x7d()"))
      = some (' ' :: '\x7b' :: (deferredBody statements ++ "\x7d()")) := rfl
  have hstart : trimStart (' ' :: '\x7b' :: (deferredBody statements ++ "\x7d()"))
      = '\x7b' :: (deferredBody statements ++ "\x7d()") := rfl
  unfold deferStatement
  dsimp only
  rw [trim_deferredLine, hfunc]
  dsimp only
  rw [hstart, hopens, hliteral, if_neg Bool.false_ne_true]
  dsimp only
  rw [splitTop_deferredBody h, hstatements]

end Inline

/-! ## 6. Where a closure opens and closes -/

/-- The start of a deferred closure, under the next name. -/
def deferHead (names : NameSupply) : Text :=
  "std::shared_ptr<void> " ++ names.next .defer ++ "(nullptr, [&](void*) \x7b"

/-- All the texts that a deferred closure becomes. -/
def deferredTexts (names : NameSupply) (texts : List Text) : List Text :=
  deferHead names :: (texts ++ [("\x7d);" : Text)])

theorem Lower.deferInline_run (hne : statements ≠ []) (s : State) :
    (deferInline statements).run s
      = match (statements.mapM simpleStatement).run s with
        | .error stop s' => .error stop s'
        | .ok texts s' =>
          .ok (.line (joinWith " " (deferredTexts s'.names texts))) { s' with names := s'.names.advance .defer } := by
  unfold deferInline
  cases hrun : (statements.mapM simpleStatement).run s with
  | error stop s' => rw [bind_error hrun]
  | ok texts s' =>
    have hyields := @Yields.mapM _ _ _ _ statements fun t _ => Yields.trivial (simpleStatement t)
    have hlen := (hyields s texts s' hrun).1
    have htexts : texts ≠ [] := by
      rintro rfl
      exact hne (length_eq_zero_iff.mp hlen.symm)
    have hjoined : joinWith " " (deferredTexts s'.names texts)
        = deferHead s'.names ++ " " ++ joinWith " " texts ++ " \x7d);" := by
      exact joinWith_enclosed _ _ htexts
    rw [bind_ok hrun]
    dsimp only
    rw [hjoined]
    rfl

section Lines

variable {r : Run}
variable {s : State}

theorem Run.sourceLine_deferredLine (hne : statements ≠ []) (h : ∀ t ∈ statements, Inline t) (hr : r.Between)
    (number : Nat) :
    r.sourceLine number (deferredLine statements)
      = match (statements.mapM simpleStatement).run (r.stateAt number (deferredLine statements)) with
        | .error stop s' => .error ⟨s'.lineNumber, stop⟩
        | .ok texts s' => .ok { r with
            state := State.noteOpener { s' with names := s'.names.advance .defer } r.output.length
            output := r.output ++ lines (joinWith " " (deferredTexts s'.names texts)) } := by
  have hsolid := solid_deferredLine statements
  have hplain := plain_deferredLine h
  have hnotEmpty : deferredLine statements ≠ [] := append_ne_nil_of_left_ne_nil (by decide) _
  have hcode : StatementKind.ofCode (deferredLine statements) = .defer :=
    StatementKind.ofCode_keyword (w := "defer") (not_endsWith_deferredLine statements (by decide)) rfl (by decide) rfl
  have hkind : (r.stateAt number (deferredLine statements)).classify (deferredLine statements) = .defer :=
    (classify_eq_ofCode hnotEmpty hplain hr.blocks (closesClosure_eq_false rfl)).trans hcode
  have hlower : line .defer (deferredLine statements) = deferInline statements :=
    deferStatement_deferredLine h
  rw [sourceLine_trimmed hr number hsolid hnotEmpty hplain hkind rfl (by decide) (by decide), hlower,
    deferInline_run hne]
  cases (statements.mapM simpleStatement).run (r.stateAt number (deferredLine statements)) with
  | error stop s' => rfl
  | ok texts s' => rfl

theorem Run.sourceLine_opener (hr : r.Between) (hs : s.placeless = r.state.placeless) (number : Nat) :
    ∃ u, r.sourceLine number "defer func() \x7b"
        = .ok { r with state := u, output := r.output ++ lines (deferHead r.state.names) } ∧
      Within .deferred r.output.length r.state.names.defer s u := by
  generalize hcode : "defer func() \x7b" = code
  have hkind : (r.stateAt number code).classify code = .defer := by
    subst hcode
    rw [classify_eq_ofCode (s := r.stateAt number _) (by decide) (by decide) hr.blocks
      (closesClosure_eq_false rfl)]
    decide
  have hdepth : braceDepth r.state.depth code = r.state.depth + 1 := by
    subst hcode
    exact WellNested.braceDepth_open (s := "defer func() ") (by decide) r.state.depth
  have hrun : (line .defer code).run (r.stateAt number code)
      = .ok (.line (deferHead r.state.names))
        (enterClosure { r.stateAt number code with names := r.state.names.advance .defer } .deferred
          r.state.depth) := by
    subst hcode
    rfl
  have hline := sourceLine_trimmed hr number (by subst hcode; decide) (by subst hcode; decide)
    (by subst hcode; decide) hkind rfl (by decide) (by decide)
  rw [hrun] at hline
  refine ⟨_, hline, ?_, ?_, ?_⟩
  · exact (congrArg State.blocks hs).trans hr.blocks
  · exact congrArg (·.names.defer) hs
  · have hinside : (s.inClosure .deferred r.output.length).placeless
        = (r.state.inClosure .deferred r.output.length).placeless :=
      congrArg (State.inClosure · .deferred r.output.length) hs
    rw [hinside]
    unfold stateAt countBraces
    simp only [hdepth]
    rfl

/-- The line that ends a closure, and what it becomes. -/
def ClosureKind.closer : ClosureKind → Text
  | .deferred => "\x7d()"
  | .lambda => "\x7d"

/-- What the brace of a closure becomes. -/
def ClosureKind.ending : ClosureKind → Text
  | .deferred => "\x7d);"
  | .lambda => "\x7d;"

theorem Run.sourceLine_closureEnd {kind : ClosureKind} {opener count : Nat} (hp : r.pending = none)
    (hw : Within kind opener count s r.state) (number : Nat) :
    ∃ u, r.sourceLine number kind.closer = .ok { r with state := u, output := r.output ++ lines kind.ending } ∧
      u.placeless = ((s.drawClosure kind).noteOpener opener).placeless := by
  have hdepth : braceDepth r.state.depth kind.closer = s.depth := by
    rw [hw.depth_eq]
    cases kind <;> rfl
  have hkind : (r.stateAt number kind.closer).classify kind.closer = .closureEnd := by
    refine classify_closureEnd ?_ ?_ hw.blocks_eq hw.closures_eq hdepth.symm
    · cases kind <;> decide
    · cases kind <;> decide
  have hrun : (line .closureEnd kind.closer).run (r.stateAt number kind.closer)
      = .ok (.line kind.ending) (r.stateAt number kind.closer).exitClosure := by
    have hclosures : (r.stateAt number kind.closer).closures = ⟨kind, s.depth⟩ :: s.closures := hw.closures_eq
    show (closureEnd kind.closer).run _ = _
    unfold closureEnd
    rw [EStateM.run_bind, EStateM.run_get]
    dsimp only
    rw [EStateM.run_bind, EStateM.run_set, hclosures]
    cases kind <;> rfl
  have hline := sourceLine_trimmed ⟨hp, hw.blocks_eq⟩ number (by cases kind <;> decide) (by cases kind <;> decide)
    (by cases kind <;> decide) hkind rfl (by decide) (by decide)
  rw [hrun] at hline
  refine ⟨_, hline, ?_⟩
  calc
    ((r.stateAt number kind.closer).exitClosure.noteOpener r.output.length).placeless
    _ = State.noteOpener { r.state.placeless with depth := s.depth, closures := r.state.placeless.closures.tail }
        r.output.length := by
      unfold stateAt countBraces
      simp only [hdepth]
      rfl
    _ = (((s.drawClosure kind).noteOpener opener).noteOpener r.output.length).placeless := by
      rw [hw.state]
      cases kind <;> rfl
    _ = ((s.drawClosure kind).noteOpener opener).placeless :=
      congrArg State.placeless (noteOpener_noteOpener _ opener _)

end Lines

/-! ## 7. The two forms agree -/

/-- No statement is dropped and none is rendered as empty text. -/
def Lower.leaveText (statements : List Text) (s : State) : Bool :=
  match (statements.mapM simpleStatement).run s with
  | .ok texts _ => texts.all (!·.isEmpty)
  | .error _ _ => true

/-- Two runs that go on from one and differ only in breaks of emitted lines and numbers of lines. -/
structure Run.DiffersInBreaks (r r₁ r₂ : Run) : Prop where
  output : ∃ ls₁ ls₂, r₁.output = r.output ++ ls₁ ∧ r₂.output = r.output ++ ls₂ ∧ unbroken ls₁ = unbroken ls₂
  state : r₁.state.placeless = r₂.state.placeless
  pending : r₁.pending = r₂.pending
  firstFunction : r₁.firstFunction = r₂.firstFunction

/-- Both end, and differ in breaks alone, or both stop for one reason. -/
inductive Run.Agree (r : Run) : Except Halt Run → Except Halt Run → Prop where
  | ok {r₁ r₂ : Run} (h : r.DiffersInBreaks r₁ r₂) : Agree r (.ok r₁) (.ok r₂)
  | error (stop : Stop) (line line' : Nat) : Agree r (.error ⟨line, stop⟩) (.error ⟨line', stop⟩)

theorem getLast?_deferHead (names : NameSupply) : (deferHead names).getLast? = some '\x7b' :=
  getLast?_append_of_ne_nil _ (by decide)

theorem unbroken_deferredTexts (names : NameSupply) (hsolid : ∀ x ∈ texts, SolidEnd x) (hne : [] ∉ texts) :
    unbroken (lines (joinWith " " (deferredTexts names texts)))
      = unbroken ((deferredTexts names texts).flatMap lines) :=
  unbroken_enclosed (getLast?_deferHead names) rfl rfl rfl hsolid hne

/-- **A deferred closure comes to the same on one line and over several lines**, whatever functions,
    switches and closures are open around it. -/
theorem deferred_forms_agree {r : Run} {statements : List Text} (number number' : Nat) (hne : statements ≠ [])
    (h : ∀ t ∈ statements, Inline t) (hr : r.Between)
    (htext : leaveText statements (r.stateAt number (deferredLine statements)) = true) :
    r.Agree (r.sourceLine number (deferredLine statements)) (r.sourceLines number' (deferredLines statements)) := by
  have hs := r.placeless_stateAt (wellNested_deferredLine h) number
  obtain ⟨u, hopener, hw⟩ := Run.sourceLine_opener hr hs number'
  rw [Run.sourceLine_deferredLine hne h hr, deferredLines, Run.sourceLines, hopener]
  dsimp only [Except.bind]
  rw [Run.sourceLines_append]
  unfold leaveText at htext
  -- inside the closure, statement by statement
  have hbody := Run.carries_statements h hr.pending hw (number' + 1)
    (r := { r with state := u, output := r.output ++ lines (deferHead r.state.names) })
  generalize (statements.mapM Lower.simpleStatement).run _ = x at hbody htext ⊢
  generalize Run.sourceLines _ (number' + 1) statements = y at hbody ⊢
  cases hbody with
  | error stop s line => exact .error stop s.lineNumber line
  | @ok texts s' u' hsolid hw' =>
    obtain ⟨v, hcloser, hstate⟩ := Run.sourceLine_closureEnd
      (r := { r with state := u', output := r.output ++ lines (deferHead r.state.names) ++ texts.flatMap lines })
      hr.pending hw' (number' + 1 + statements.length)
    dsimp only [Except.bind]
    rw [Run.sourceLines, show "\x7d()" = ClosureKind.deferred.closer from rfl, hcloser]
    have hnil : [] ∉ texts := fun hm => by simpa using all_eq_true.mp htext [] hm
    have hnames : deferHead s'.names = deferHead r.state.names := by
      unfold deferHead NameSupply.next NameSupply.count
      rw [hw'.drawn]
    refine .ok ⟨⟨_, (deferredTexts s'.names texts).flatMap lines, rfl, ?_, unbroken_deferredTexts _ hsolid hnil⟩,
      hstate.symm, rfl, rfl⟩
    unfold deferredTexts
    rw [hnames]
    simp [append_assoc, ClosureKind.ending]

/-- Inside the entry point, with a name known to hold a map. -/
def insideEntry : Run :=
  { state := { depth := 1, function := some ⟨"main", [], 0⟩, knownMaps := ["m"] }
    output := ["auto main() -> int \x7b"] }

/-- Statements of every kind that may stand in a closure on one line. -/
def closingStatements : List Text :=
  ["fmt.Println(\"bye; \x7b\", n)", "a, b := n, 2", "v, _ := m[k]", "c := m", "xs = append(xs, v...)", "go f(a)",
    "delete(c, k)", "return"]

theorem deferred_forms_agree_closing :
    (∀ t ∈ closingStatements, Inline t) ∧ insideEntry.Between ∧
      leaveText closingStatements (insideEntry.stateAt 7 (deferredLine closingStatements)) = true ∧
      (insideEntry.sourceLine 7 (deferredLine closingStatements)).toOption.isSome = true ∧
      insideEntry.Agree (insideEntry.sourceLine 7 (deferredLine closingStatements))
        (insideEntry.sourceLines 7 (deferredLines closingStatements)) := by
  have hinline : ∀ t ∈ closingStatements, Inline t := by decide +kernel
  have htext : leaveText closingStatements (insideEntry.stateAt 7 (deferredLine closingStatements)) = true := by
    decide +kernel
  exact ⟨hinline, ⟨rfl, rfl⟩, htext, by decide +kernel,
    deferred_forms_agree 7 7 (by decide) hinline ⟨rfl, rfl⟩ htext⟩

end Linewise
