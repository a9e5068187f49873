/-
  Whole statements leave the frames as they found them.

  No tree is built while lines are read; depths alone tell which construct a brace closes. Over every
  statement they come out right.
-/
import Linewise.Proofs.Frames

namespace Linewise

open Text List StatementKind

variable {F : Frames} {a b body entries rest : List Text} {H T t x : Text} {f : SwitchFrame}
  {fs : List SwitchFrame} {block : Block} {Q Q' : Frames → Prop}

/-! ## 1. Labels -/

section Labels

variable {s s' : State}

/-- The label that waits for a clause, and the numbers of names and labels drawn. -/
@[ext] structure Labels where
  waiting : Option Text
  names : Nat
  jumps : Nat
  deriving DecidableEq, Repr

/-- The labels of a state. -/
def State.labels (s : State) : Labels := ⟨s.pendingLabel, s.names.switch, s.names.label⟩

/-- The kinds of lines that draw, place or wait for a label or a name of a switch. -/
def StatementKind.movesLabels : StatementKind → Bool
  | switch | caseClause | defaultClause | fallthrough => true
  | _ => false

/-- A line that is, to judge by its shape, no part of a switch. -/
def Quiet (t : Text) : Prop := (StatementKind.ofCode t).movesLabels = false

instance (t : Text) : Decidable (Quiet t) :=
  inferInstanceAs (Decidable ((StatementKind.ofCode t).movesLabels = false))

theorem Quiet.classify (h : Quiet t) (s : State) : (s.classify t).movesLabels = false := by
  rcases s.classify_cases t with ⟨_, hk⟩ | hk | ⟨_, hk | hk⟩ | ⟨b, _, hk | hk⟩
  · exact hk ▸ rfl
  · exact hk ▸ rfl
  · exact hk ▸ rfl
  · exact hk ▸ h
  · exact hk ▸ rfl
  · rw [hk]
    cases b <;> rfl

namespace Lower

/-- Steps that leave the labels. -/
def SameLabels (s s' : State) : Prop := s'.labels = s.labels

theorem Opens.labels_eq {P Q : Prop} (h : Opens P Q s s') : s'.labels = s.labels :=
  Labels.ext (congrArg Control.pendingLabel h.control) (congrArg Control.switchNames h.control)
    (congrArg Control.labelNames h.control)

theorem sameLabels_typeDeclaration (t : Text) :
    Keeps (fun _ => True) SameLabels (typeDeclaration t) := by
  refine (keeps_typeDeclaration t).mono (fun _ _ => trivial) ?_
  rintro s s' ⟨lowered, hs⟩
  cases hs <;> rfl

theorem sameLabels_structField (t : Text) : Keeps (fun _ => True) SameLabels (structField t) := by
  refine (meets_structField t).keeps.mono (fun _ _ => trivial) ?_
  rintro s s' ⟨known, notices, g, rfl, _⟩
  rfl

theorem sameLabels_line (t : Text) {kind : StatementKind} (hk : kind.movesLabels = false) :
    Keeps (fun _ => True) SameLabels (Lower.line kind t) := by
  cases hp : kind.isPlain with
  | true => exact (spec_line t hp).keeps.mono (fun _ _ => trivial) fun _ _ ho => Opens.labels_eq ho
  | false =>
    cases kind with
    | blockOpen block => exact fun _ => rfl
    | blockClose block => exact Keeps.of_ok (blockClose_run block t) fun _ => rfl
    | functionSignature =>
      refine (keeps_functionDefinition t).mono (fun _ _ => trivial) ?_
      rintro s s' ⟨known, prototypes, f, rfl, _⟩
      rfl
    | closureEnd => exact Keeps.of_ok (closureEnd_run t) fun _ => rfl
    | typeDeclaration => exact sameLabels_typeDeclaration t
    | structField => exact sameLabels_structField t
    | mapLiteralOpen =>
      refine (keeps_mapLiteralOpen t).mono (fun _ _ => trivial) ?_
      rintro s s' ⟨known, valueType, rfl⟩
      rfl
    | _ => exact nomatch hk, hp

end Lower

theorem State.labels_closeBrace (s : State) (t : Text) (rendered : Option Text) :
    (s.closeBrace t rendered).2.labels = s.labels := by
  obtain ⟨switches, function, h⟩ := s.closeBrace_eq t rendered
  rw [h]
  rfl

/-- A line that is no part of a switch leaves the labels. -/
theorem Takes.labels_eq (h : Takes t s s') (hq : Quiet t) : s'.labels = s.labels := by
  obtain ⟨lowered, s₁, hrun, rfl⟩ := h
  have hline : s₁.labels = (s.countBraces t).labels :=
    (Lower.sameLabels_line t (hq.classify (s.countBraces t))).ok hrun
  obtain ⟨switches, function, h⟩ := s₁.finishLine_eq ((s.countBraces t).classify t) t lowered
  rw [h]
  exact hline

end Labels

/-! ## 2. Statements -/

/-- A statement, a list of statements, what follows the first branch of a condition, the clauses of
    a switch. -/
inductive Part where
  | statement
  | body
  | branches
  | clauses

/-- **Statements and their parts, as lists of trimmed lines.** The entries of a literal are well
    nested; where its head opens no block (`OpensLiteral`), they are simple lines. -/
inductive Grammar : Part → List Text → Prop where
  | simple {t : Text} (h : Simple t) : Grammar .statement [t]
  | branch {H : Text} {body rest : List Text} (hH : Head H) (hb : Grammar .body body)
      (hr : Grammar .branches rest) : Grammar .statement (("if" ++ (H ++ "\x7b")) :: (body ++ rest))
  | branchEnd : Grammar .branches ["\x7d"]
  | otherwise {body : List Text} (hb : Grammar .body body) :
      Grammar .branches ("\x7d else \x7b" :: (body ++ [("\x7d" : Text)]))
  | elseIf {H : Text} {body rest : List Text} (hH : Head H) (hb : Grammar .body body)
      (hr : Grammar .branches rest) :
      Grammar .branches (("\x7d else if" ++ (H ++ "\x7b")) :: (body ++ rest))
  | loop {H : Text} {body : List Text} (hH : Head H) (hb : Grammar .body body) :
      Grammar .statement (("for" ++ (H ++ "\x7b")) :: (body ++ [("\x7d" : Text)]))
  | switch {H : Text} {clauses : List Text} (hH : Head H) (hc : Grammar .clauses clauses) :
      Grammar .statement (("switch" ++ (H ++ "\x7b")) :: (clauses ++ [("\x7d" : Text)]))
  | noClause : Grammar .clauses []
  | caseClause {V : Text} {body rest : List Text} (hV : Head V) (hb : Grammar .body body)
      (hr : Grammar .clauses rest) : Grammar .clauses (("case" ++ (V ++ ":")) :: (body ++ rest))
  | defaultClause {body rest : List Text} (hb : Grammar .body body) (hr : Grammar .clauses rest) :
      Grammar .clauses ("default:" :: (body ++ rest))
  | deferred {body : List Text} (hb : Grammar .body body) :
      Grammar .statement ("defer func() \x7b" :: (body ++ [("\x7d()" : Text)]))
  | functionLiteral {x params results : Text} {body : List Text} (hx : IsName x)
      (hP : WellNested params) (hR : WellNested results) (hb : Grammar .body body) :
      Grammar .statement ((x ++ (" := " ++ functionHead params results)) :: (body ++ [("\x7d" : Text)]))
  | literal {x T : Text} {entries : List Text} (hx : IsName x) (hT : LiteralType T)
      (he : ∀ e ∈ entries, WellNested e) (hs : OpensLiteral x T ∨ ∀ e ∈ entries, Simple e) :
      Grammar .statement ((x ++ (" := " ++ (T ++ "\x7b"))) :: (entries ++ [("\x7d" : Text)]))
  | empty : Grammar .body []
  | sequence {a b : List Text} (ha : Grammar .statement a) (hb : Grammar .body b) :
      Grammar .body (a ++ b)

/-! ## 3. Several lines -/

/-- These runs leave nothing pending, only add output, and outside switches leave the labels. -/
structure Run.Follows (texts : List Text) (r r' : Run) : Prop where
  pending : r'.pending = none
  output : ∃ ls, r'.output = r.output ++ ls
  labels : (∀ t ∈ texts, Quiet t) → r'.state.labels = r.state.labels

theorem Run.Follows.trans {r r' r'' : Run} (h : r.Follows a r') (h' : r'.Follows b r'') :
    r.Follows (a ++ b) r'' := by
  refine ⟨h'.pending, ?_, fun hq => ?_⟩
  · obtain ⟨ls, hls⟩ := h.output
    obtain ⟨ls', hls'⟩ := h'.output
    exact ⟨ls ++ ls', by rw [hls', hls, append_assoc]⟩
  · rw [h'.labels fun t ht => hq t (mem_append.mpr (.inr ht)),
      h.labels fun t ht => hq t (mem_append.mpr (.inl ht))]

/-- Every run over these lines from these frames that does not stop leads to frames of the given kind. -/
def Leads (texts : List Text) (F : Frames) (Q : Frames → Prop) : Prop :=
  ∀ (lines : List Text) (r r' : Run) (number : Nat), lines.map trim = texts → (∀ t ∈ texts, Plain t) →
    r.pending = none → r.state.frames = F → r.sourceLines number lines = .ok r' →
    r.Follows texts r' ∧ Q r'.state.frames

theorem Run.sourceLines_append (r : Run) (number : Nat) (a b : List Text) :
    r.sourceLines number (a ++ b)
      = (r.sourceLines number a).bind fun r => r.sourceLines (number + a.length) b := by
  induction a generalizing r number with
  | nil => rfl
  | cons line a ih =>
    simp only [cons_append, sourceLines]
    cases r.sourceLine number line with
    | error halt => rfl
    | ok r₁ =>
      show r₁.sourceLines (number + 1) (a ++ b) = _
      rw [ih, length_cons, Nat.add_assoc, Nat.add_comm 1]
      rfl

theorem leads_nil (F : Frames) : Leads [] F (· = F) := by
  intro lines r r' number hl _ hp hF hrun
  rw [map_eq_nil_iff.mp hl] at hrun
  cases hrun
  exact ⟨⟨hp, ⟨[], (append_nil _).symm⟩, fun _ => rfl⟩, hF⟩

theorem State.block?_of_classify {s : State} (h : s.classify t = .blockClose block) : s.block? = some block := by
  rcases s.classify_cases t with ⟨_, hk⟩ | hk | ⟨_, hk | hk⟩ | ⟨b, hb, hk | hk⟩
  · cases hk.symm.trans h
  · cases hk.symm.trans h
  · cases hk.symm.trans h
  · have hcode : ofCode t = .blockClose block := hk.symm.trans h
    rcases ofCode_cases t with ⟨b, _, hk⟩ | ⟨hk, _⟩ | hk <;> rw [hcode] at hk <;> cases hk
  · cases hk.symm.trans h
    exact hb
  · have hinside : inside b = .blockClose block := hk.symm.trans h
    cases b <;> cases hinside

theorem State.frames_noteOpener (s : State) (index : Nat) : (s.noteOpener index).frames = s.frames := rfl

theorem leads_line (hF : ∀ f ∈ F.blocks, f.block.isLiteral = true) (hblank : t = [] → Q F)
    (h : Plain t → t ≠ [] → Advances t F Q) : Leads [t] F Q := by
  intro lines r r' number hl hplain hp hr hrun
  obtain ⟨line, rfl, ht⟩ := map_eq_singleton_iff.mp hl
  have hpt : Plain t := hplain t mem_cons_self
  -- the block on top is that of a literal
  have htop : ∀ block, r.state.block? = some block → block.isLiteral = true := by
    intro block hb
    obtain ⟨f, hf, hfb⟩ := Option.map_eq_some_iff.mp hb
    rw [← hfb]
    refine hF f ?_
    rw [← hr]
    exact mem_of_head? hf
  have hblock : r.state.block? ≠ some .blockComment := fun hb => by cases htop _ hb
  obtain ⟨_, hline, ⟨⟩⟩ := exists_ok_of_bind hrun
  rw [Run.sourceLine_plain number ht hpt hp hblock] at hline
  by_cases hne : t = []
  · rw [if_pos (isEmpty_iff.mpr hne)] at hline
    cases hline
    exact ⟨⟨hp, ⟨_, rfl⟩, fun _ => rfl⟩, hr ▸ hblank hne⟩
  · rw [if_neg (fun he => hne (isEmpty_iff.mp he))] at hline
    obtain ⟨lowered, s', hlow, rfl⟩ := Run.codeLine_eq_ok hline
    have htakes : Takes t { r.state with lineNumber := number } _ := ⟨lowered, s', hlow, rfl⟩
    refine ⟨⟨hp, ?_, fun hq => ?_⟩, ?_⟩
    · refine ⟨_, congrArg (· ++ _) ?_⟩
      rw [if_neg]
      · rfl
      · intro hk
        have hb := State.block?_of_classify (beq_iff_eq.mp hk)
        cases htop .structBody hb
    · exact htakes.labels_eq (hq t mem_cons_self)
    · rw [State.frames_noteOpener]
      exact h hpt hne { r.state with lineNumber := number } _ hr htakes

theorem Leads.mono {texts : List Text} (h : Leads texts F Q) (hQ : ∀ F', Q F' → Q' F') :
    Leads texts F Q' :=
  fun lines r r' number hl hplain hp hr hrun =>
    (h lines r r' number hl hplain hp hr hrun).imp_right (hQ _)

theorem Leads.append (ha : Leads a F Q) (hb : ∀ F', Q F' → Leads b F' Q') :
    Leads (a ++ b) F Q' := by
  intro lines r r' number hl hplain hp hr hrun
  obtain ⟨la, lb, rfl, hla, hlb⟩ := map_eq_append_iff.mp hl
  rw [Run.sourceLines_append] at hrun
  obtain ⟨r₁, hs, hrun⟩ := exists_ok_of_bind hrun
  obtain ⟨h₁, hq₁⟩ := ha la r r₁ number hla (fun t ht => hplain t (mem_append.mpr (.inl ht))) hp hr hs
  obtain ⟨h₂, hq₂⟩ :=
    hb _ hq₁ lb r₁ r' _ hlb (fun t ht => hplain t (mem_append.mpr (.inr ht))) h₁.pending rfl hrun
  exact ⟨h₁.trans h₂, hq₂⟩

theorem Leads.cons (ha : Leads [t] F Q) (hb : ∀ F', Q F' → Leads b F' Q') : Leads (t :: b) F Q' :=
  ha.append hb

theorem leads_code (hF : F.blocks = []) (hne : t ≠ []) (h : Plain t → Advances t F Q) :
    Leads [t] F Q :=
  leads_line (by rw [hF]; exact fun f hf => absurd hf not_mem_nil)
    (fun e => absurd e hne) (fun hp _ => h hp)

/-! ## 4. The invariant of every part -/

theorem Frames.Below.deepen (h : F.Below F.depth) : Frames.Below { F with depth := F.depth + 1 } (F.depth + 1) := by
  have h' := h.mono (Nat.le_succ F.depth)
  exact ⟨h'.blocks, h'.switches, h'.closures, h'.function⟩

/-- The frames between the clauses of a switch: its own frame innermost, all others below it. -/
structure Frames.InSwitch (F : Frames) (f : SwitchFrame) (fs : List SwitchFrame) : Prop where
  blocks : F.blocks = []
  depth : F.depth = f.depth + 1
  switches : F.switches = f :: fs
  closures : ∀ c ∈ F.closures.head?, c.depth < f.depth
  function : ∀ g ∈ F.function, g.depth < f.depth

theorem Frames.InSwitch.below (h : F.InSwitch f fs) : F.Below F.depth := by
  rw [h.depth]
  refine ⟨h.blocks, ?_, fun c hc => Nat.lt_succ_of_lt (h.closures c hc),
    fun g hg => Nat.lt_succ_of_lt (h.function g hg)⟩
  intro g hg
  rw [h.switches, head?_cons, Option.mem_some_iff] at hg
  rw [← hg]
  exact Nat.lt_succ_self _

/-- A clause was entered. -/
def Frames.enter (F : Frames) (f : SwitchFrame) (fs : List SwitchFrame) : Frames :=
  { F with switches := { f with firstClause := false } :: fs }

theorem Frames.InSwitch.enter (h : F.InSwitch f fs) : (F.enter f fs).InSwitch { f with firstClause := false } fs :=
  ⟨h.blocks, h.depth, rfl, h.closures, h.function⟩

/-- **What a part does to the frames.** Statements keep them, branches come down one level, clauses
    may note that they were entered. -/
def Part.Meaning : Part → List Text → Prop
  | .statement, texts | .body, texts => ∀ F : Frames, F.Below F.depth → Leads texts F (· = F)
  | .branches, texts => ∀ F : Frames, F.Below F.depth →
      Leads texts { F with depth := F.depth + 1 } (· = F)
  | .clauses, texts => ∀ (F : Frames) (f : SwitchFrame) (fs : List SwitchFrame), F.InSwitch f fs →
      Leads texts F fun F' => F' = F ∨ F' = F.enter f fs

theorem leads_brace (hF : F.Below F.depth) : Leads ["\x7d"] { F with depth := F.depth + 1 } (· = F) := by
  refine leads_code hF.blocks (by decide) fun hp => ?_
  exact advances_brace rfl rfl hp rfl hF.blocks hF.switches hF.closures
    fun f hf => Nat.ne_of_lt (hF.function f hf)

theorem leads_head {w : Text} {kind : StatementKind} (h : Keyword w kind) (hH : Head H)
    (hlow : Lower.Keeps (fun _ => True) Lower.SameFrames (Lower.line kind (w ++ (H ++ "\x7b"))))
    (hF : F.blocks = []) : Leads [w ++ (H ++ "\x7b")] F (· = { F with depth := F.depth + 1 }) :=
  leads_code hF (by simp) fun hp => advances_head h hH hp hF hlow

theorem Part.Meaning.close (hb : Part.body.Meaning body) (hF : F.Below F.depth)
    (hr : Leads rest { F with depth := F.depth + 1 } Q) :
    Leads (body ++ rest) { F with depth := F.depth + 1 } Q := by
  refine (hb _ hF.deepen).append ?_
  rintro F' rfl
  exact hr

/-! ### Conditions and loops -/

theorem meaning_simple (h : Simple t) : Part.statement.Meaning [t] := by
  intro F hF
  refine leads_line ?_ (fun _ => rfl) fun hp hne => advances_simple h hp hne hF.blocks
  rw [hF.blocks]
  exact fun f hf => absurd hf not_mem_nil

theorem meaning_branch (hH : Head H) (hb : Part.body.Meaning body) (hr : Part.branches.Meaning rest) :
    Part.statement.Meaning (("if" ++ (H ++ "\x7b")) :: (body ++ rest)) := by
  intro F hF
  have hword : Keyword "if" .ifStatement := by decide
  refine (leads_head hword hH (@sameFrames_if H hH) hF.blocks).cons ?_
  rintro F' rfl
  exact hb.close hF (hr F hF)

theorem meaning_otherwise (hb : Part.body.Meaning body) :
    Part.branches.Meaning ("\x7d else \x7b" :: (body ++ [("\x7d" : Text)])) := by
  intro F hF
  have hd : braceDepth (F.depth + 1) "\x7d else \x7b" = F.depth + 1 :=
    WellNested.braceDepth_reopen (s := " else ") (by decide) F.depth
  have helse : Leads ["\x7d else \x7b"] { F with depth := F.depth + 1 }
      (· = { F with depth := F.depth + 1 }) := by
    refine leads_code hF.blocks (by decide) fun hp => ?_
    exact advances_brace rfl rfl hp hd hF.blocks hF.deepen.switches
      hF.deepen.closures fun f hf => Nat.ne_of_lt (hF.deepen.function f hf)
  refine helse.cons ?_
  rintro F' rfl
  exact hb.close hF (leads_brace hF)

theorem meaning_elseIf (hH : Head H) (hb : Part.body.Meaning body) (hr : Part.branches.Meaning rest) :
    Part.branches.Meaning (("\x7d else if" ++ (H ++ "\x7b")) :: (body ++ rest)) := by
  intro F hF
  refine Leads.cons (leads_code hF.blocks (append_ne_nil_of_left_ne_nil (by decide) _)
    fun hp => advances_elseIf hH hp rfl hF.deepen) ?_
  rintro F' rfl
  exact hb.close hF (hr F hF)

theorem meaning_loop (hH : Head H) (hb : Part.body.Meaning body) :
    Part.statement.Meaning (("for" ++ (H ++ "\x7b")) :: (body ++ [("\x7d" : Text)])) := by
  intro F hF
  have hword : Keyword "for" .forLoop := by decide
  refine (leads_head hword hH (@Lower.sameFrames_forLoop ("for" ++ (H ++ "\x7b"))) hF.blocks).cons ?_
  rintro F' rfl
  exact hb.close hF (leads_brace hF)

/-! ### Switches -/

theorem meaning_switch {clauses : List Text} (hH : Head H) (hc : Part.clauses.Meaning clauses) :
    Part.statement.Meaning (("switch" ++ (H ++ "\x7b")) :: (clauses ++ [("\x7d" : Text)])) := by
  intro F hF
  refine Leads.cons (leads_code hF.blocks (append_ne_nil_of_left_ne_nil (by decide) _)
    fun hp => advances_switch hH hp hF.blocks) ?_
  rintro F' ⟨discriminant, rfl⟩
  have hin : Frames.InSwitch { F with
      depth := F.depth + 1
      switches := ⟨discriminant, true, F.depth⟩ :: F.switches } ⟨discriminant, true, F.depth⟩ F.switches :=
    ⟨hF.blocks, rfl, rfl, hF.closures, hF.function⟩
  refine (hc _ _ _ hin).append ?_
  -- whether a clause was entered, the frame is the innermost one and on the depth of the brace
  rintro F' (rfl | rfl)
  · exact leads_code hF.blocks (by decide) fun _ =>
      advances_switchEnd hF.blocks rfl rfl rfl hF.closures hF.function
  · exact leads_code hF.blocks (by decide) fun _ =>
      advances_switchEnd hF.blocks rfl rfl rfl hF.closures hF.function

theorem meaning_clause {header : Text} (hh : ∀ {F : Frames} {f : SwitchFrame} {fs : List SwitchFrame}, F.InSwitch f fs →
      Leads [header] F (· = F.enter f fs)) (hb : Part.body.Meaning body) (hr : Part.clauses.Meaning rest) :
    Part.clauses.Meaning (header :: (body ++ rest)) := by
  intro F f fs hF
  refine (hh hF).cons ?_
  rintro F' rfl
  refine (hb _ hF.enter.below).append ?_
  rintro F' rfl
  exact (hr _ _ _ hF.enter).mono fun F' h => .inr (h.elim id id)

theorem leads_case {V : Text} (hV : Head V) (hF : F.InSwitch f fs) :
    Leads ["case" ++ (V ++ ":")] F (· = F.enter f fs) :=
  leads_code hF.blocks (append_ne_nil_of_left_ne_nil (by decide) _)
    fun hp => advances_case hV hp hF.blocks hF.switches

theorem leads_default (hF : F.InSwitch f fs) : Leads ["default:"] F (· = F.enter f fs) :=
  leads_code hF.blocks (by decide) fun _ => advances_default hF.blocks hF.switches

/-! ### Closures -/

theorem Part.Meaning.closeClosure (hb : Part.body.Meaning body) (hF : F.Below F.depth) (role : ClosureKind)
    (hs : startsWith t "\x7d" = true) (hd : braceDepth (F.depth + 1) t = F.depth) :
    Leads (body ++ [t])
      { F with depth := F.depth + 1, closures := ⟨role, F.depth⟩ :: F.closures } (· = F) := by
  have hbelow : Frames.Below
      { F with depth := F.depth + 1, closures := ⟨role, F.depth⟩ :: F.closures } (F.depth + 1) := by
    refine ⟨hF.blocks, hF.deepen.switches, ?_, hF.deepen.function⟩
    rintro f ⟨⟩
    exact Nat.lt_succ_self _
  refine (hb _ hbelow).append ?_
  rintro F' rfl
  have hne : t ≠ [] := by
    rintro rfl
    cases hs
  exact leads_code hF.blocks hne fun hp => advances_closureEnd hs hp
    (F := { F with depth := F.depth + 1, closures := ⟨role, F.depth⟩ :: F.closures }) hF.blocks rfl hd

theorem meaning_deferred (hb : Part.body.Meaning body) :
    Part.statement.Meaning ("defer func() \x7b" :: (body ++ [("\x7d()" : Text)])) := by
  intro F hF
  refine Leads.cons (leads_code hF.blocks (by decide) fun _ => advances_deferred hF.blocks) ?_
  rintro F' rfl
  exact hb.closeClosure hF .deferred rfl rfl

theorem meaning_functionLiteral {params results : Text} (hx : IsName x) (hP : WellNested params)
    (hR : WellNested results) (hb : Part.body.Meaning body) :
    Part.statement.Meaning
      ((x ++ (" := " ++ functionHead params results)) :: (body ++ [("\x7d" : Text)])) := by
  intro F hF
  refine Leads.cons (leads_code hF.blocks (ne_nil_define _ _) fun hp =>
    advances_functionLiteral hx hP hR hp hF.blocks) ?_
  rintro F' (rfl | rfl)
  · exact hb.close hF (leads_brace hF)
  · exact hb.closeClosure hF .lambda rfl rfl

/-! ### Literals -/

theorem Block.isLiteral_of_mem {blocks : List BlockFrame} {d : Nat} (h : block.isLiteral = true)
    (hb : blocks = [⟨block, d⟩]) : ∀ f ∈ blocks, f.block.isLiteral = true := by
  rw [hb]
  intro f hf
  rw [mem_singleton.mp hf]
  exact h

theorem leads_entries (he : ∀ e ∈ entries, WellNested e) {d : Nat} (hblock : block.isLiteral = true)
    (hF : F.blocks = [⟨block, d⟩]) : Leads entries F (· = F) := by
  induction entries with
  | nil => exact leads_nil F
  | cons e rest ih =>
    have hentry : Leads [e] F (· = F) :=
      leads_line (Block.isLiteral_of_mem hblock hF) (fun _ => rfl) fun hp hne =>
        advances_entry (he e mem_cons_self) hp hne hblock hF
    refine hentry.cons ?_
    rintro F' rfl
    exact ih (forall_mem_cons.mp he).2

theorem meaning_entries (hs : ∀ e ∈ entries, Simple e) : Part.body.Meaning entries := by
  intro F hF
  induction entries with
  | nil => exact leads_nil F
  | cons e rest ih =>
    refine (meaning_simple (hs e mem_cons_self) F hF).cons ?_
    rintro F' rfl
    exact ih (forall_mem_cons.mp hs).2

theorem meaning_literal (hx : IsName x) (hT : LiteralType T) (he : ∀ e ∈ entries, WellNested e)
    (hs : OpensLiteral x T ∨ ∀ e ∈ entries, Simple e) :
    Part.statement.Meaning ((x ++ (" := " ++ (T ++ "\x7b"))) :: (entries ++ [("\x7d" : Text)])) := by
  intro F hF
  refine Leads.cons (leads_code hF.blocks (ne_nil_define _ _)
    fun hp => advances_literal hx hT hp hF.blocks) ?_
  rintro F' (⟨hno, rfl⟩ | ⟨_, block, hblock, rfl⟩)
  · exact (meaning_entries (hs.resolve_left hno)).close hF (leads_brace hF)
  · refine (leads_entries he hblock rfl).append ?_
    rintro F' rfl
    have hback : ({ F with depth := F.depth, blocks := [] } : Frames) = F := by
      rw [← hF.blocks]
    refine leads_line (Block.isLiteral_of_mem hblock rfl) (fun e => by cases e) fun _ _ s s' hs' ht => ?_
    exact (advances_literalEnd hblock rfl rfl s s' hs' ht).trans hback

theorem leads_signatures (he : ∀ e ∈ entries, WellNested e)
    (hk : ∀ e ∈ entries, (ofCode e).movesFrames = false ∨ ofCode e = .functionSignature)
    (hF : F.blocks = []) :
    Leads entries F fun F' =>
      (∃ f : FunctionFrame, f.depth = F.depth ∧ F' = { F with function := some f }) ∨
      (F' = F ∧ ∀ e ∈ entries, ofCode e ≠ .functionSignature) := by
  induction entries generalizing F with
  | nil => exact (leads_nil F).mono fun F' h => .inr ⟨h, fun e he => absurd he not_mem_nil⟩
  | cons e rest ih =>
    have hno : ∀ f ∈ F.blocks, f.block.isLiteral = true := by
      rw [hF]
      exact fun f hf => absurd hf not_mem_nil
    have hwell := he e mem_cons_self
    have he' : ∀ e' ∈ rest, WellNested e' := (forall_mem_cons.mp he).2
    have hk' : ∀ e' ∈ rest, (ofCode e').movesFrames = false
        ∨ ofCode e' = .functionSignature := (forall_mem_cons.mp hk).2
    rcases hk e mem_cons_self with hsimple | hsig
    · have hline : Leads [e] F (· = F) := leads_line hno (fun _ => rfl) fun hp hne =>
        advances_simple ⟨hwell, hsimple⟩ hp hne hF
      refine hline.cons ?_
      rintro F' rfl
      refine (ih he' hk' hF).mono fun F' h => h.imp_right fun ⟨h, hall⟩ => ⟨h, ?_⟩
      intro e' hmem
      rcases mem_cons.mp hmem with rfl | hr
      · intro hs
        rw [hs] at hsimple
        cases hsimple
      · exact hall e' hr
    · have hne : e ≠ [] := by
        rintro rfl
        cases hsig
      refine Leads.cons (leads_code hF hne fun hp => advances_signature hwell hsig hp hne hF) ?_
      rintro F' ⟨f, hf, rfl⟩
      refine (ih he' hk' (F := { F with function := some f }) hF).mono fun F' h => .inl ?_
      rcases h with ⟨g, hg, rfl⟩ | ⟨rfl, _⟩
      · exact ⟨g, hg, rfl⟩
      · exact ⟨f, hf, rfl⟩

theorem leads_lostFunction (hx : IsName x) (hT : LiteralType T) (hno : ¬ OpensLiteral x T)
    (he : ∀ e ∈ entries, WellNested e)
    (hk : ∀ e ∈ entries, (ofCode e).movesFrames = false ∨ ofCode e = .functionSignature)
    (hsig : ∃ e ∈ entries, ofCode e = .functionSignature) (hF : F.Below F.depth) :
    Leads ((x ++ (" := " ++ (T ++ "\x7b"))) :: (entries ++ [("\x7d" : Text)])) F fun F' =>
      ∃ f : FunctionFrame, f.depth = F.depth + 1 ∧ F' = { F with function := some f } := by
  refine Leads.cons (leads_code hF.blocks (ne_nil_define _ _)
    fun hp => advances_literal hx hT hp hF.blocks) ?_
  intro F' hhead
  obtain ⟨_, rfl⟩ := hhead.resolve_right fun h => hno h.1
  refine (leads_signatures he hk (F := { F with depth := F.depth + 1 }) hF.blocks).append ?_
  intro F' hentries
  obtain ⟨e, hmem, hsig⟩ := hsig
  obtain ⟨f, hf, rfl⟩ := hentries.resolve_right fun h => h.2 e hmem hsig
  -- the frame is on the depth of the entries, so the brace of the literal does not end it
  have hbrace : Leads ["\x7d"] { F with depth := F.depth + 1, function := some f }
      (· = { F with function := some f }) := by
    refine leads_code hF.blocks (by decide) fun hp => advances_brace rfl rfl hp rfl
      hF.blocks hF.switches hF.closures ?_
    rintro g ⟨⟩
    rw [show f.depth = F.depth + 1 from hf]
    exact Nat.succ_ne_self F.depth
  exact hbrace.mono fun F' h => ⟨f, hf, h⟩

/-! ## 5. Every statement -/

/-- Every part does to the frames what it stands for. -/
theorem Grammar.meaning {part : Part} {texts : List Text} (h : Grammar part texts) :
    part.Meaning texts := by
  induction h with
  | simple h => exact meaning_simple h
  | branch hH _ _ ihb ihr => exact meaning_branch hH ihb ihr
  | branchEnd => exact fun F hF => leads_brace hF
  | otherwise _ ihb => exact meaning_otherwise ihb
  | elseIf hH _ _ ihb ihr => exact meaning_elseIf hH ihb ihr
  | loop hH _ ihb => exact meaning_loop hH ihb
  | switch hH _ ihc => exact meaning_switch hH ihc
  | noClause => exact fun F f fs _ => (leads_nil F).mono fun F' => .inl
  | caseClause hV _ _ ihb ihr => exact meaning_clause (leads_case hV) ihb ihr
  | defaultClause _ _ ihb ihr => exact meaning_clause leads_default ihb ihr
  | deferred _ ihb => exact meaning_deferred ihb
  | functionLiteral hx hP hR _ ihb => exact meaning_functionLiteral hx hP hR ihb
  | literal hx hT he hs => exact meaning_literal hx hT he hs
  | empty => exact fun F _ => leads_nil F
  | sequence _ _ iha ihb =>
    intro F hF
    refine (iha F hF).append ?_
    rintro F' rfl
    exact ihb F' hF

/-- **The frames behind a whole statement are the frames before it**: the brace depth, the blocks, the
    switches, the closures and the function under way. A literal whose head opens no block stands
    outside of `Grammar` only for entries that are no simple lines, and rightly so: with a signature
    among them the function under way is lost. -/
theorem frames_kept {r r' : Run} {number : Nat} {lines texts : List Text} (hpending : r.pending = none)
    (hF : r.state.frames.Below r.state.depth) (hl : lines.map trim = texts)
    (hplain : ∀ t ∈ texts, Plain t) (hrun : r.sourceLines number lines = .ok r') :
    (Grammar .statement texts → r'.state.frames = r.state.frames) ∧
    (∀ (x T : Text) (entries : List Text),
      texts = (x ++ (" := " ++ (T ++ "\x7b"))) :: (entries ++ [("\x7d" : Text)]) →
      IsName x → LiteralType T → ¬ OpensLiteral x T → (∀ e ∈ entries, WellNested e) →
      (∀ e ∈ entries, (ofCode e).movesFrames = false
        ∨ ofCode e = .functionSignature) →
      (∃ e ∈ entries, ofCode e = .functionSignature) →
      r'.state.function ≠ r.state.function) := by
  constructor
  · intro h
    exact (h.meaning r.state.frames hF lines r r' number hl hplain hpending rfl hrun).2
  · rintro x T entries rfl hx hT hno he hk hsig hsame
    obtain ⟨f, hf, hr⟩ :=
      (leads_lostFunction hx hT hno he hk hsig hF lines r r' number hl hplain hpending rfl hrun).2
    -- the new frame lies above the depth that the old one was below
    have hfun : r'.state.function = some f := congrArg Frames.function hr
    have hlt : f.depth < r.state.depth := hF.function f (hsame.symm.trans hfun)
    rw [hf] at hlt
    exact absurd hlt (Nat.not_lt.mpr (Nat.le_succ r.state.depth))

/-- In the body of the entry point. -/
def insideMain : Run := { state := { depth := 1, function := some ⟨"main", [], 0⟩ } }

/-- Every construct in one that is open already. -/
def nestedTexts : List Text :=
  ["if v, ok := m[k(1)]; ok \x7b",
    "switch v \x7b",
    "case 1, 2:",
    "fallthrough",
    "default:",
    "f := func(a int) int \x7b",
    "for i := 0; i < a; i++ \x7b",
    "p := Point\x7b",
    "X: 1,",
    "\x7d",
    "\x7d",
    "return a",
    "\x7d",
    "\x7d",
    "\x7d else if b \x7b",
    "defer func() \x7b",
    "fmt.Println(\"\x7b\")",
    "\x7d()",
    "\x7d else \x7b",
    "\x7d"]

theorem grammar_nestedTexts : Grammar .statement nestedTexts := by
  have hpoint : Grammar .statement ["p := Point\x7b", "X: 1,", "\x7d"] :=
    @Grammar.literal "p" "Point" ["X: 1,"] (by decide) (by decide) (by decide) (.inl (by decide))
  have hloop : Grammar .statement
      ["for i := 0; i < a; i++ \x7b", "p := Point\x7b", "X: 1,", "\x7d", "\x7d"] :=
    @Grammar.loop " i := 0; i < a; i++ " _ (by decide) (.sequence hpoint .empty)
  have hfunction := @Grammar.functionLiteral "f" "a int" " int " _ (by decide) (by decide) (by decide)
    (.sequence hloop (.sequence (.simple (t := "return a") (by decide)) .empty))
  have hswitch := @Grammar.switch " v " _ (by decide)
    (@Grammar.caseClause " 1, 2" _ _ (by decide)
      (.sequence (.simple (t := "fallthrough") (by decide)) .empty)
      (.defaultClause (.sequence hfunction .empty) .noClause))
  have hdeferred := Grammar.deferred
    (.sequence (.simple (t := "fmt.Println(\"\x7b\")") (by decide)) .empty)
  exact @Grammar.branch " v, ok := m[k(1)]; ok " _ _ (by decide) (.sequence hswitch .empty)
    (@Grammar.elseIf " b " _ _ (by decide) (.sequence hdeferred .empty) (.otherwise .empty))

theorem frames_kept_nested :
    ∃ r', insideMain.sourceLines 7 (nestedTexts.map ("\t" ++ ·)) = .ok r'
      ∧ r'.state.frames = insideMain.state.frames := by
  cases h : insideMain.sourceLines 7 (nestedTexts.map ("\t" ++ ·)) with
  | error halt =>
    have hok : (insideMain.sourceLines 7 (nestedTexts.map ("\t" ++ ·))).isOk = true := by decide +kernel
    rw [h] at hok
    cases hok
  | ok r' =>
    have hF : insideMain.state.frames.Below insideMain.state.depth :=
      ⟨rfl, by decide, by decide, by decide⟩
    exact ⟨r', rfl, (frames_kept rfl hF rfl (by decide) h).1 grammar_nestedTexts⟩

/-- The type of these elements has a brace of its own, and the entry is no longer one: the entry point
    is forgotten inside its own body. -/
theorem literal_entry_replaces_function :
    IsName "xs" ∧ LiteralType "[]interface\x7b\x7d" ∧
      WellNested "func() \x7b foo() \x7d," ∧
      (insideMain.sourceLines 7 ["xs := []interface\x7b\x7d\x7b", "func() \x7b foo() \x7d,", "\x7d"]).toOption.map
        (·.state.frames) = some { insideMain.state.frames with function := some ⟨[], [], 2⟩ } := by
  decide +kernel

end Linewise
