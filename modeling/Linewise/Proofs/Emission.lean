/-
  The lines a switch is lowered to.

  The head binds the value, a clause becomes a branch with the label that an earlier body jumps to,
  and the brace closes the last branch.
-/
import Linewise.Proofs.Chain
import Linewise.Proofs.Discipline

namespace Linewise

open Text List Lower

variable {F F' F'' : Frames} {b parts : List Text} {reason : Prop} {L L' L'' : Labels} {d init : Option Text}
  {clause indent t tag text : Text} {code code' : List Cpp} {f : SwitchFrame} {fs : List SwitchFrame}
  {s : State}

/-! ## 1. Chains as text -/

/-- A test in parentheses. -/
def parenthesized (test : Text) : Text := "(" ++ (test ++ ")")

/-- The text of one line of a chain. The tests of a branch stand in parentheses or not. -/
def Cpp.Writes : Cpp → Text → Prop
  | .bind name tag, text => text = "auto " ++ (name ++ (" = " ++ (tag ++ ";")))
  | .branch first tests, text => ∃ disjuncts : List Text,
      (disjuncts = tests ∨ disjuncts = tests.map parenthesized) ∧
      text = (if first then ([] : Text) else "\x7d else ")
        ++ (("if (" : Text) ++ (joinWith " || " disjuncts ++ (") \x7b" : Text)))
  | .always, text => text = "if (true) \x7b"
  | .otherwise, text => text = "\x7d else \x7b"
  | .close, text => text = "\x7d"
  | .goto name, text => text = "goto " ++ (name ++ ";")
  | .label name, text => text = name ++ ":;"
  | _, _ => False

/-- Some run over lines with these texts adds these lines to its output. -/
def Lowers (texts ls : List Text) : Prop :=
  ∃ (lines : List Text) (r r' : Run) (number : Nat), lines.map trim = texts ∧
    r.sourceLines number lines = .ok r' ∧ r'.output = r.output ++ ls

/-- **The lines of a chain, written out**, without marks. A statement is what its lines are lowered
    to, an initialization too, with a semicolon. -/
inductive Rendered : List Cpp → List Text → Prop where
  | nil : Rendered [] []
  | line {c : Cpp} {code : List Cpp} {ls : List Text} {indent text : Text} (hi : Blank indent)
      (hw : c.Writes text) (h : Rendered code ls) : Rendered (c :: code) ((indent ++ text) :: ls)
  | mark {m : Nat} {code : List Cpp} {ls : List Text} (h : Rendered code ls) :
      Rendered (.mark m :: code) ls
  | init {clause : Text} {code : List Cpp} {ls : List Text} {indent text : Text} {s s' : State}
      (hi : Blank indent) (hr : (initClause clause).run s = .ok text s')
      (h : Rendered code ls) :
      Rendered (.init clause :: code) ((lines (text ++ ";")).map (indent ++ ·) ++ ls)
  | statement {texts : List Text} {code : List Cpp} {ls own : List Text} (ho : Lowers texts own)
      (h : Rendered code ls) : Rendered (.statement texts :: code) (own ++ ls)

theorem Rendered.append {a b : List Cpp} {ls ls' : List Text} (ha : Rendered a ls)
    (hb : Rendered b ls') : Rendered (a ++ b) (ls ++ ls') := by
  induction ha with
  | nil => exact hb
  | line hi hw _ ih => exact .line hi hw ih
  | mark _ ih => exact .mark ih
  | init hi hr _ ih =>
    rw [cons_append, append_assoc]
    exact .init hi hr ih
  | statement ho _ ih =>
    rw [cons_append, append_assoc]
    exact .statement ho ih

/-! ## 2. Runs and the chains they write -/

/-- Some run over lines with these texts stops. -/
def Stops (texts : List Text) : Prop :=
  ∃ (lines : List Text) (r : Run) (number : Nat) (halt : Halt), lines.map trim = texts ∧
    r.sourceLines number lines = .error halt

/-- **From these frames and labels, a run over these lines writes this chain**, and ends in those.
    It stops only for a reason. -/
def Emits (texts : List Text) (reason : Prop) (F : Frames) (L : Labels) (code : List Cpp) (F' : Frames)
    (L' : Labels) : Prop :=
  ∀ (lines : List Text) (r : Run) (number : Nat), lines.map trim = texts →
    (∀ t ∈ texts, Plain t ∧ '\n' ∉ t) → r.pending = none → r.state.frames = F → r.state.labels = L →
    match r.sourceLines number lines with
    | .ok r' => r'.pending = none ∧ r'.state.frames = F' ∧ r'.state.labels = L' ∧
        ∃ ls, r'.output = r.output ++ ls ∧ Rendered code ls
    | .error _ => reason

theorem emits_nil (reason : Prop) (F : Frames) (L : Labels) : Emits [] reason F L [] F L := by
  intro lines r number hl _ hp hF hL
  rw [map_eq_nil_iff.mp hl]
  exact ⟨hp, hF, hL, [], (append_nil _).symm, .nil⟩

theorem Emits.append {a : List Text}
    (ha : Emits a reason F L code F' L') (hb : Emits b reason F' L' code' F'' L'') :
    Emits (a ++ b) reason F L (code ++ code') F'' L'' := by
  intro lines r number hl hplain hp hF hL
  obtain ⟨la, lb, rfl, hla, hlb⟩ := map_eq_append_iff.mp hl
  have ha := ha la r number hla (fun t ht => hplain t (mem_append.mpr (.inl ht))) hp hF hL
  rw [Run.sourceLines_append]
  cases hs : r.sourceLines number la with
  | error halt =>
    rw [hs] at ha
    exact ha
  | ok r₁ =>
    rw [hs] at ha
    obtain ⟨hp₁, hF₁, hL₁, ls, hout, hren⟩ := ha
    have hb := hb lb r₁ (number + la.length) hlb
      (fun t ht => hplain t (mem_append.mpr (.inr ht))) hp₁ hF₁ hL₁
    show match r₁.sourceLines (number + la.length) lb with | .ok r' => _ | .error _ => reason
    cases hs' : r₁.sourceLines (number + la.length) lb with
    | error halt =>
      rw [hs'] at hb
      exact hb
    | ok r₂ =>
      rw [hs'] at hb
      obtain ⟨hp₂, hF₂, hL₂, ls', hout', hren'⟩ := hb
      refine ⟨hp₂, hF₂, hL₂, ls ++ ls', ?_, hren.append hren'⟩
      rw [hout', hout, append_assoc]

theorem Emits.cons (ha : Emits [t] reason F L code F' L')
    (hb : Emits b reason F' L' code' F'' L'') : Emits (t :: b) reason F L (code ++ code') F'' L'' :=
  ha.append hb

theorem emits_line (kind : StatementKind) (hne : t ≠ [])
    (hF : F.blocks = []) {Q : Frames → Prop} (hadvances : Plain t → Advances t F Q)
    (hkind : ∀ s : State, s.frames = F → Plain t → (s.countBraces t).classify t = kind)
    (hlow : ∀ s : State, s.frames = F → s.labels = L → Plain t → '\n' ∉ t →
      match (Lower.line kind t).run (s.countBraces t) with
      | .error _ _ => Stops [t] → reason
      | .ok lowered s₁ => (Q (s₁.finishLine kind t lowered).2.frames →
            (s₁.finishLine kind t lowered).2.frames = F') ∧
          (s₁.finishLine kind t lowered).2.labels = L' ∧
          ∀ indent, Blank indent → Rendered code (layout indent false (s₁.finishLine kind t lowered).1 none)) :
    Emits [t] reason F L code F' L' := by
  intro lines r number hl hplain hp hr hL
  obtain ⟨line, rfl, ht⟩ := map_eq_singleton_iff.mp hl
  obtain ⟨hpt, hnl⟩ := hplain t mem_cons_self
  have hblocks : r.state.blocks = [] := (congrArg Frames.blocks hr).trans hF
  have hnone := State.block?_eq_none hblocks
  have hblock : r.state.block? ≠ some .blockComment := by
    rw [hnone]
    nofun
  have hk := hkind { r.state with lineNumber := number } hr hpt
  have hlow := hlow { r.state with lineNumber := number } hr hL hpt hnl
  have hone : r.sourceLines number [line] = r.sourceLine number line := by
    rw [Run.sourceLines]
    cases r.sourceLine number line <;> rfl
  have hcode : r.sourceLines number [line]
      = { r with state := { r.state with lineNumber := number } }.codeLine (indentation line) t none false := by
    rw [hone, Run.sourceLine_plain number ht hpt hp hblock, if_neg (by simpa using hne)]
  have hstruct : ¬ (kind == .blockClose .structBody) = true := by
    intro hc
    have hb := State.block?_of_classify (hk.trans (beq_iff_eq.mp hc))
    cases hnone.symm.trans hb
  cases hc : r.sourceLines number [line] with
  | error halt =>
    rw [hcode] at hc
    obtain ⟨s', hrun⟩ := Run.codeLine_eq_error hc
    rw [hk] at hrun
    rw [hrun] at hlow
    exact hlow ⟨[line], r, number, halt, congrArg (· :: []) ht, hcode.trans hc⟩
  | ok r' =>
    rw [hcode] at hc
    obtain ⟨lowered, s₁, hrun, rfl⟩ := Run.codeLine_eq_ok hc
    have hQ : Q _ := hadvances hpt { r.state with lineNumber := number } _ hr ⟨lowered, s₁, hrun, rfl⟩
    rw [hk] at hrun
    rw [hrun] at hlow
    obtain ⟨hF', hL', hren⟩ := hlow
    refine ⟨hp, ?_, ?_, _, ?_, hren (indentation line) (blank_indentation line)⟩
    · have hk' : (State.countBraces { r.state with lineNumber := number } t).classify t = kind := hk
      rw [hk'] at hQ
      rw [State.frames_noteOpener, hk]
      exact hF' hQ
    · rw [hk]
      exact hL'
    · simp only [hk, if_neg hstruct]
      rfl

/-! ## 3. Lines of a switch -/

theorem newline_not_mem_name (role : NameRole) (n : Nat) : '\n' ∉ role.head ++ decimal n :=
  not_mem_append (by cases role <;> decide) (not_mem_decimal rfl n)

theorem layout_line (hne : text ≠ []) (hn : '\n' ∉ text) (indent : Text) :
    layout indent false (some text) none = [indent ++ text] := by
  show (lines text).map (indent ++ ·) = _
  rw [lines_eq_singleton hne hn]
  rfl

theorem rendered_header (c : Cpp) (header : Text) {label : Option Text} (hw : c.Writes (header ++ "\x7b"))
    (hh : '\n' ∉ header) (hl : ∀ name ∈ label, '\n' ∉ name) (hi : Blank indent) :
    Rendered ([c] ++ labelCode label)
      (layout indent false (some (header ++ "\x7b" ++ labelText label)) none) := by
  have hbrace : '\n' ∉ header ++ "\x7b" := not_mem_append hh (by decide)
  cases label with
  | none =>
    rw [labelText, append_nil, layout_line (by simp) hbrace]
    exact .line hi hw .nil
  | some name =>
    have hname : '\n' ∉ name ++ ":;" := not_mem_append (hl name rfl) (by decide)
    have hlines : lines (header ++ "\x7b" ++ labelText (some name))
        = [header ++ "\x7b", name ++ ":;"] := by
      have := lines_append (a := header) (b := name ++ ":;") (c := '{') (by decide) (by decide)
      rw [lines_eq_singleton (s := header ++ ['{']) (by simp) hbrace,
        lines_eq_singleton (by simp) hname] at this
      exact this
    show Rendered _ ((lines _).map (indent ++ ·))
    rw [hlines]
    exact .line hi hw (.line hi rfl .nil)

theorem emits_fallthrough (reason : Prop) (hF : F.blocks = []) (L : Labels) :
    Emits ["fallthrough"] reason F L [.goto (labelName L.jumps)] F
      ⟨some (labelName L.jumps), L.names, L.jumps + 1⟩ := by
  refine emits_line .fallthrough (by decide) hF
    (fun hp => advances_simple (by decide) hp (by decide) hF) ?_ ?_
  · intro s hs hp
    rw [State.classify_eq_ofCode (s := s.countBraces _) (by decide) hp
      ((congrArg Frames.blocks hs).trans hF) (closesClosure_eq_false rfl)]
    decide
  · rintro s rfl rfl _ _
    rw [show (Lower.line .fallthrough "fallthrough").run (s.countBraces "fallthrough") = _ from
      fallthrough_run _]
    refine ⟨id, rfl, fun indent hi => ?_⟩
    have hn : '\n' ∉ "goto " ++ s.names.next .label ++ ";" :=
      not_mem_append (not_mem_append (by decide)
        (newline_not_mem_name .label s.names.label)) (by decide)
    show Rendered _ (layout indent false (some ("goto " ++ s.names.next .label ++ ";")) none)
    rw [layout_line (by simp) hn]
    refine .line hi ?_ .nil
    rw [append_assoc]
    rfl

/-- The text between `case` and its colon: values with commas between them, not all white space. -/
@[mk_iff] structure CaseParts (parts : List Text) : Prop where
  each : ∀ p ∈ parts, IsPart ',' p
  space : (joinWith "," parts).head? = some ' '
  solid : isAllBlank (joinWith "," parts) = false

instance (parts : List Text) : Decidable (CaseParts parts) := decidable_of_iff _ (caseParts_iff ..).symm

/-- A clause with values as it is written. -/
def caseText (parts : List Text) : Text := "case" ++ (joinWith "," parts ++ ":")

theorem CaseParts.head (h : CaseParts parts) : Head (joinWith "," parts) :=
  ⟨wellNested_joinWith (by decide) (by decide) h.each, h.space⟩

theorem clauseValues_caseText (h : ∀ p ∈ parts, IsPart ',' p) (hsolid : isAllBlank (joinWith "," parts) = false) :
    clauseValues (caseText parts) = parts.map trim := by
  unfold clauseValues caseText
  rw [stripStart_append, show ":" = [':'] from rfl, trim_stripEnd_concat rfl,
    splitTop_trim rfl rfl]
  exact splitTop_joinWith (by decide) (by decide) h hsolid

theorem CaseParts.clauseValues_eq (h : CaseParts parts) : clauseValues (caseText parts) = parts.map trim :=
  clauseValues_caseText h.each h.solid

theorem CaseParts.ne_nil (h : CaseParts parts) : parts ≠ [] := by
  rintro rfl
  exact absurd h.solid (by decide)

theorem clauseCondition_eq (d : Option Text) (parts : List Text) :
    ∃ disjuncts : List Text, (disjuncts = clauseTests d parts
        ∨ disjuncts = (clauseTests d parts).map parenthesized) ∧
      clauseCondition d (parts.map trim) = joinWith " || " disjuncts := by
  cases d with
  | some d =>
    refine ⟨_, .inl rfl, ?_⟩
    simp [clauseCondition, clauseTests, Function.comp_def]
  | none =>
    unfold clauseCondition
    split
    · rename_i h
      cases h
    · rename_i single _ hs
      refine ⟨_, .inl rfl, ?_⟩
      rw [show clauseTests none parts = parts.map trim from rfl, hs]
      simp [joinWith]
    · refine ⟨_, .inr rfl, ?_⟩
      rw [show clauseTests none parts = parts.map trim from rfl]
      simp [parenthesized, Function.comp_def]

theorem newline_not_mem_joinWith {sep : Text} (hs : '\n' ∉ sep) (h : ∀ p ∈ parts, '\n' ∉ p) :
    '\n' ∉ joinWith sep parts := by
  intro hm
  rcases mem_joinWith hm with hm | ⟨p, hp, hm⟩
  · exact hs hm
  · exact h p hp hm

theorem newline_not_mem_tests (hd : ∀ name ∈ d, '\n' ∉ name) (hp : ∀ p ∈ parts, '\n' ∉ p) :
    ∀ t ∈ clauseTests d parts, '\n' ∉ t := by
  intro t ht
  obtain ⟨p, hmem, rfl⟩ := mem_map.mp ht
  have htrim : '\n' ∉ trim p := fun h => hp p hmem (mem_of_mem_trim h)
  cases d with
  | none => exact htrim
  | some d => exact not_mem_append (hd d rfl) (not_mem_append (by decide) htrim)

theorem emits_case (hparts : CaseParts parts) (reason : Prop) (hF : F.InSwitch f fs)
    (hd : ∀ name ∈ f.discriminant, '\n' ∉ name) (hl : ∀ name ∈ L.waiting, '\n' ∉ name) :
    Emits [caseText parts] reason F L
      ([.branch f.firstClause (clauseTests f.discriminant parts)] ++ labelCode L.waiting)
      (F.enter f fs) { L with waiting := none } := by
  have hV := hparts.head
  refine emits_line .caseClause (append_ne_nil_of_left_ne_nil (by decide) _) hF.blocks
    (fun hp => advances_case hV hp hF.blocks hF.switches) ?_ ?_
  · intro s hs hp
    exact (by decide : Keyword "case" .caseClause).classify_eq hV (by decide) hp ((congrArg Frames.blocks hs).trans hF.blocks)
  · rintro s rfl rfl hp hn
    have hswitches : (s.countBraces (caseText parts)).switches = f :: fs := hF.switches
    have hvalues : clauseValues (caseText parts) ≠ [] := by
      rw [hparts.clauseValues_eq]
      simpa using hparts.ne_nil
    rw [show (Lower.line .caseClause (caseText parts)).run (s.countBraces (caseText parts)) = _ from
      caseClause_run hswitches hvalues, hparts.clauseValues_eq]
    refine ⟨id, rfl, fun indent hi => ?_⟩
    obtain ⟨disjuncts, hdis, hcond⟩ := clauseCondition_eq f.discriminant parts
    have hpart : ∀ p ∈ parts, '\n' ∉ p := fun p hp hmem => hn (mem_append.mpr (.inr
      (mem_append.mpr (.inl (mem_joinWith_of_mem hp hmem)))))
    have hdisjuncts : ∀ t ∈ disjuncts, '\n' ∉ t := by
      have htests := newline_not_mem_tests hd hpart
      rcases hdis with rfl | rfl
      · exact htests
      · intro t ht
        obtain ⟨u, hu, rfl⟩ := mem_map.mp ht
        exact not_mem_append (by decide) (not_mem_append (htests u hu) (by decide))
    have hjoined : '\n' ∉ joinWith " || " disjuncts := newline_not_mem_joinWith (by decide) hdisjuncts
    have hheader : clauseHeader f ("if (" ++ joinWith " || " disjuncts ++ ") \x7b")
        = ((if f.firstClause then ([] : Text) else "\x7d else ")
          ++ ("if (" ++ (joinWith " || " disjuncts ++ ") "))) ++ "\x7b" := by
      unfold clauseHeader
      rw [append_assoc, append_assoc, append_assoc, append_assoc]
      cases f.firstClause <;> rfl
    rw [hcond, hheader]
    have hn' : '\n' ∉ (if f.firstClause then ([] : Text) else "\x7d else ")
        ++ ("if (" ++ (joinWith " || " disjuncts ++ ") ")) := by
      refine not_mem_append ?_ (not_mem_append (by decide)
        (not_mem_append hjoined (by decide)))
      split <;> decide
    refine rendered_header (.branch f.firstClause _) _ ?_ hn' hl hi
    refine ⟨disjuncts, hdis, ?_⟩
    simp only [append_assoc]
    rfl

theorem emits_default (reason : Prop) (hF : F.InSwitch f fs) (hl : ∀ name ∈ L.waiting, '\n' ∉ name) :
    Emits ["default:"] reason F L
      ([if f.firstClause then .always else .otherwise] ++ labelCode L.waiting)
      (F.enter f fs) { L with waiting := none } := by
  refine emits_line .defaultClause (by decide) hF.blocks
    (fun _ => advances_default hF.blocks hF.switches) ?_ ?_
  · intro s hs hp
    rw [State.classify_eq_ofCode (s := s.countBraces _) (by decide) hp
      ((congrArg Frames.blocks hs).trans hF.blocks) (closesClosure_eq_false rfl)]
    decide
  · rintro s rfl rfl _ _
    have hswitches : (s.countBraces "default:").switches = f :: fs := hF.switches
    rw [show (Lower.line .defaultClause "default:").run (s.countBraces "default:") = _ from
      defaultClause_run hswitches]
    refine ⟨id, ?_, fun indent hi => ?_⟩
    · unfold noticeDefault
      split <;> rfl
    · unfold defaultHeader
      cases f.firstClause with
      | true => exact rendered_header .always "if (true) " rfl (by decide) hl hi
      | false => exact rendered_header .otherwise "\x7d else " rfl (by decide) hl hi

/-! ### Heads -/

/-- The text between `switch` and its brace. -/
def switchHead (init : Option Text) (tag : Text) : Text :=
  match init with
  | some clause => clause ++ ';' :: tag
  | none => tag

/-- The head of a switch as it is written. -/
@[mk_iff] structure SwitchParts (init : Option Text) (tag : Text) : Prop where
  head : Head (switchHead init tag)
  clause : ∀ c ∈ init, IsPart ';' c
  whole : init = none → topIndex? ';' tag = none

instance (init : Option Text) (tag : Text) : Decidable (SwitchParts init tag) :=
  decidable_of_iff _ (switchParts_iff ..).symm

/-- The line that opens a switch. -/
def switchText (init : Option Text) (tag : Text) : Text := "switch" ++ (switchHead init tag ++ "\x7b")

theorem SwitchParts.splitSwitchHead_eq (h : SwitchParts init tag) :
    splitSwitchHead (switchText init tag) = (init.map trim, trim tag) := by
  have hhead : trim (stripEnd "\x7b" (trim (stripStart "switch" (switchText init tag))))
      = trim (switchHead init tag) := by
    unfold switchText
    rw [stripStart_append]
    exact headText_eq _
  obtain ⟨u, v, hs, hu, hv⟩ := eq_append_trim (switchHead init tag)
  have hplace := topIndex?_around (by rfl : isBlank ';' = false) hu hv (trim (switchHead init tag))
  rw [← hs] at hplace
  unfold splitSwitchHead
  rw [hhead]
  generalize hm : trim (switchHead init tag) = m at *
  cases init with
  | none =>
    have hnone : topIndex? ';' m = none := by
      rw [show topIndex? ';' (switchHead none tag) = none from h.whole rfl] at hplace
      exact Option.map_eq_none_iff.mp hplace.symm
    simp only [hnone]
    rw [← hm]
    rfl
  | some clause =>
    obtain ⟨hwell, hwhole⟩ := h.clause clause rfl
    -- the semicolon is the first at top level
    have hfirst : topIndex? ';' (switchHead (some clause) tag) = _ := hwell.topIndex?_append_cons rfl tag
    rw [hwhole, Option.none_or] at hfirst
    rw [hfirst] at hplace
    obtain ⟨j, hj, hlen⟩ := Option.map_eq_some_iff.mp hplace.symm
    have hlt := lt_length_of_topIndex? hj
    have hclause : clause = u ++ m.take j := by
      have := congrArg (take clause.length) hs
      rw [show switchHead (some clause) tag = clause ++ ';' :: tag from rfl, take_left, ← hlen,
        Nat.add_comm, take_length_add_append, take_append_of_le_length (Nat.le_of_lt hlt)] at this
      exact this
    have htag : tag = m.drop (j + 1) ++ v := by
      have := congrArg (drop (clause.length + 1)) hs
      rw [show switchHead (some clause) tag = clause ++ ';' :: tag from rfl,
        drop_length_add_append, ← hlen, Nat.add_comm j, Nat.add_assoc, drop_length_add_append,
        drop_append_of_le_length hlt] at this
      exact this
    simp only [hj, Option.map_some]
    rw [hclause, htag, trim_blank_append hu, trim_append_blank hv]

theorem isEmpty_trim (s : Text) : (trim s).isEmpty = isAllBlank s := by
  rw [Bool.eq_iff_iff, List.isEmpty_iff, isAllBlank_iff, trim_eq_nil_iff]

theorem discriminant?_eq (s : State) (tag : Text) :
    discriminant? s.names.switch tag
      = if (trim tag).isEmpty then none else some (s.names.next .switch) := by
  rw [isEmpty_trim]
  rfl

theorem openSwitch_labels (tag : Text) (s : State) :
    (openSwitch (trim tag) s).labels
      = ⟨s.pendingLabel, s.names.switch + tagCount tag, s.names.label⟩ := by
  unfold openSwitch tagCount
  rw [isEmpty_trim]
  split <;> rfl

theorem openSwitch_switches (tag : Text) (s : State) :
    (openSwitch (trim tag) s).switches
      = ⟨discriminant? s.names.switch tag, true, s.depthBefore⟩ :: s.switches := by
  unfold openSwitch discriminant?
  rw [isEmpty_trim]
  split <;> rfl

theorem rendered_bind (tag : Text) (s : State) (hn : '\n' ∉ tag) (hi : Blank indent) :
    Rendered ((discriminant? s.names.switch tag).toList.map fun name => .bind name (trim tag))
      (layout indent false (switchOpener (trim tag) [] s).render none) := by
  unfold switchOpener
  rw [discriminant?_eq]
  by_cases ht : (trim tag).isEmpty = true
  · rw [if_pos ht, if_pos ht]
    exact .nil
  · rw [if_neg ht, if_neg ht]
    have htext : unlines ([] ++ ["auto " ++ s.names.next .switch ++ " = " ++ trim tag ++ ";"])
        = "auto " ++ (s.names.next .switch ++ (" = " ++ (trim tag ++ ";"))) := by
      rw [nil_append, unlines_singleton]
      simp only [append_assoc]
    have hnl : '\n' ∉ ("auto " ++ (s.names.next .switch ++ (" = " ++ (trim tag ++ ";")))) :=
      not_mem_append (by decide) (not_mem_append (newline_not_mem_name _ _)
        (not_mem_append (by decide)
          (not_mem_append (fun h => hn (mem_of_mem_trim h)) (by decide))))
    show Rendered _ (layout indent false (some (unlines _)) none)
    rw [htext, layout_line (by simp) hnl]
    exact .line hi rfl .nil

theorem rendered_init {s' : State} (hr : (initClause clause).run s = .ok text s') (tag : Text) (s₁ : State)
    (hn : '\n' ∉ tag) (hi : Blank indent) :
    Rendered (.init clause :: (discriminant? s₁.names.switch tag).toList.map fun name => .bind name (trim tag))
      (layout indent false (switchOpener (trim tag) [text ++ ";"] s₁).render none) := by
  have hbind := rendered_bind tag s₁ hn hi
  unfold switchOpener at hbind ⊢
  rw [discriminant?_eq] at hbind ⊢
  by_cases ht : (trim tag).isEmpty = true
  · simp only [ht, if_true]
    show Rendered _ ((lines (unlines [text ++ ";"])).map (indent ++ ·))
    rw [unlines_singleton, ← append_nil ((lines _).map _)]
    exact .init hi hr .nil
  · rw [if_neg ht] at hbind ⊢
    have htext : ∀ b : Text, lines (unlines ([text ++ ";"] ++ [b]))
        = lines (text ++ ";") ++ lines (unlines ([] ++ [b])) := by
      intro b
      rw [show unlines ([text ++ ";"] ++ [b]) = text ++ [';'] ++ '\n' :: b by
          simp [unlines, joinWith],
        nil_append, unlines_singleton]
      exact lines_append (by decide) (by decide)
    rw [if_neg ht] at hbind ⊢
    show Rendered _ ((lines (unlines ([text ++ ";"] ++ _))).map (indent ++ ·))
    rw [htext, map_append]
    exact .init hi hr hbind

theorem switchInit_run_none (h : init.filter (!·.isEmpty) = none) (s : State) :
    (switchInit init).run s = .ok [] s := by
  unfold switchInit
  rw [h]
  rfl

theorem switchInit_run_some (h : init.filter (!·.isEmpty) = some clause) (s : State) :
    (switchInit init).run s = match (initClause clause).run s with
      | .ok text s' => .ok [text ++ ";"] s'
      | .error stop s' => .error stop s' := by
  unfold switchInit
  rw [h, EStateM.run_bind]
  cases (initClause clause).run s <;> rfl

theorem noticeTypeSwitch_eq (line tag : Text) (s : State) :
    ∃ notices, noticeTypeSwitch line tag s = { s with notices := notices } := by
  unfold noticeTypeSwitch
  split
  · exact ⟨_, rfl⟩
  · exact ⟨s.notices, rfl⟩

theorem frames_openSwitch (h : (openSwitch (trim tag) s).frames
      = { F with depth := F.depth + 1, switches := ⟨d, true, F.depth⟩ :: F.switches }) :
    (openSwitch (trim tag) s).frames = { F with
      depth := F.depth + 1
      switches := ⟨discriminant? s.names.switch tag, true, F.depth⟩ :: F.switches } := by
  have hs := (openSwitch_switches tag s).symm.trans (congrArg Frames.switches h)
  have hd : discriminant? s.names.switch tag = d :=
    congrArg SwitchFrame.discriminant (cons.inj hs).1
  rw [hd]
  exact h

theorem opened_switch {line : Text} {s₁ : State} (hl : s₁.labels = s.labels) {bound : List Text}
    (hren : ∀ s₂ : State, s₂.names = s₁.names → ∀ indent, Blank indent →
      Rendered code (layout indent false (switchOpener (trim tag) bound s₂).render none)) :
    let s₂ := noticeTypeSwitch line (trim tag) s₁
    let s₃ := openSwitch (trim tag) s₂
    ((∃ d, s₃.frames = { s.frames with
        depth := s.frames.depth + 1
        switches := ⟨d, true, s.frames.depth⟩ :: s.frames.switches }) →
      s₃.frames = { s.frames with
        depth := s.frames.depth + 1
        switches := ⟨discriminant? s.labels.names tag, true, s.frames.depth⟩ :: s.frames.switches }) ∧
    s₃.labels = { s.labels with names := s.labels.names + tagCount tag } ∧
    ∀ indent, Blank indent →
      Rendered code (layout indent false (switchOpener (trim tag) bound s₂).render none) := by
  obtain ⟨notices, hs₂⟩ := noticeTypeSwitch_eq line (trim tag) s₁
  rw [hs₂]
  have hn : s₁.names.switch = s.labels.names := congrArg Labels.names hl
  refine ⟨?_, ?_, hren _ rfl⟩
  · rintro ⟨d, hd⟩
    rw [← hn]
    exact frames_openSwitch hd
  · rw [openSwitch_labels, ← hl]
    rfl

theorem emits_switch (h : SwitchParts init tag) (hreason : init ≠ none → Stops [switchText init tag] → reason)
    (hF : F.blocks = []) (L : Labels) :
    Emits [switchText init tag] reason F L (headCode L.names init tag)
      { F with
        depth := F.depth + 1
        switches := ⟨discriminant? L.names tag, true, F.depth⟩ :: F.switches }
      { L with names := L.names + tagCount tag } := by
  refine emits_line .switch (append_ne_nil_of_left_ne_nil (by decide) _) hF (fun hp => advances_switch h.head hp hF) ?_ ?_
  · intro s hs hp
    exact (by decide : Keyword "switch" .switch).classify_eq h.head (by decide) hp ((congrArg Frames.blocks hs).trans hF)
  · rintro s rfl rfl hp hn
    have htag : '\n' ∉ tag := by
      intro hm
      refine hn (mem_append.mpr (.inr (mem_append.mpr (.inl ?_))))
      cases init with
      | none => exact hm
      | some clause => exact mem_append.mpr (.inr (mem_cons_of_mem _ hm))
    rw [show (Lower.line .switch (switchText init tag)).run (s.countBraces (switchText init tag)) = _ from
      switch_run _ _, h.splitSwitchHead_eq]
    cases hinit : (init.map trim).filter (!·.isEmpty) with
    | none =>
      have hb := switchInit_run_none hinit (s.countBraces (switchText init tag))
      rw [hb]
      have hl : (s.countBraces (switchText init tag)).labels = s.labels := rfl
      refine opened_switch hl fun s₂ hnames indent hi => ?_
      have := rendered_bind tag s₂ htag hi
      rw [hnames] at this
      rw [headCode, hinit]
      exact this
    | some clause =>
      have hb := switchInit_run_some hinit (s.countBraces (switchText init tag))
      rw [hb]
      have hwell : WellNested clause := by
        have hmem := (Option.filter_eq_some_iff.mp hinit).1
        obtain ⟨c, hc, rfl⟩ := Option.map_eq_some_iff.mp hmem
        exact (h.clause c hc).wellNested.trim
      cases hrun : (initClause clause).run (s.countBraces (switchText init tag)) with
      | error stop s₁ =>
        refine hreason ?_
        rintro rfl
        cases hinit
      | ok text s₁ =>
        have hl : s₁.labels = (s.countBraces (switchText init tag)).labels :=
          Lower.Opens.labels_eq ((spec_initClause clause).keeps.ok hrun)
        refine opened_switch (s := s) hl fun s₂ hnames indent hi => ?_
        have := rendered_init hrun tag s₂ htag hi
        rw [hnames, show s₁.names.switch = s.names.switch from congrArg Labels.names hl] at this
        rw [headCode, hinit]
        exact this

/-! ### Braces and statements -/

theorem emits_switchEnd (reason : Prop) (hF : F.InSwitch f fs) (L : Labels) :
    Emits ["\x7d"] reason F L (if f.firstClause then [] else [.close])
      { F with depth := f.depth, switches := fs } L := by
  have hdepth : braceDepth F.depth "\x7d" = f.depth := by
    rw [hF.depth]
    rfl
  refine emits_line .expression (by decide) hF.blocks
    (fun _ => advances_switchEnd hF.blocks hF.depth hF.switches rfl hF.closures hF.function) ?_ ?_
  · rintro s rfl hp
    have hclosures : ∀ c ∈ (s.countBraces "\x7d").closures.head?, c.depth < (s.countBraces "\x7d").depth := by
      rw [show (s.countBraces "\x7d").depth = f.depth from hdepth]
      exact hF.closures
    rw [State.classify_eq_ofCode (s := s.countBraces _) (by decide) hp hF.blocks
      (State.closesClosure_of_lt hclosures)]
    decide
  · rintro s rfl rfl _ _
    refine ⟨id, State.labels_closeBrace _ _ _, fun indent hi => ?_⟩
    have hat : (s.countBraces "\x7d").switchAt? (s.countBraces "\x7d").depth = some f := by
      show (s.switches.head?).filter (fun g => g.depth == braceDepth s.depth "\x7d") = some f
      rw [show braceDepth s.depth "\x7d" = f.depth from hdepth,
        show s.switches = f :: fs from hF.switches, head?_cons, Option.filter_some,
        if_pos (by simp)]
    have hfun : ∀ g ∈ (s.countBraces "\x7d").exitSwitch.function,
        g.depth ≠ (s.countBraces "\x7d").exitSwitch.depth := by
      show ∀ g ∈ s.function, g.depth ≠ braceDepth s.depth "\x7d"
      rw [show braceDepth s.depth "\x7d" = f.depth from hdepth]
      exact fun g hg => Nat.ne_of_lt (hF.function g hg)
    show Rendered _ (layout indent false
      ((s.countBraces "\x7d").closeBrace "\x7d" (expression "\x7d").render).1 none)
    unfold State.closeBrace
    rw [hat]
    simp only
    cases f.firstClause with
    | true => exact .nil
    | false =>
      rw [if_neg Bool.false_ne_true, if_neg Bool.false_ne_true, State.closeFunction_of_ne hfun]
      show Rendered _ (layout indent false (some "\x7d") none)
      rw [layout_line (by decide) (by decide)]
      exact .line hi rfl .nil

theorem emits_statement {texts : List Text} (h : Grammar .statement texts) (hq : ∀ t ∈ texts, Quiet t)
    (hreason : Stops texts → reason) (hF : F.Below F.depth) (L : Labels) :
    Emits texts reason F L [.statement texts] F L := by
  intro lines r number hl hplain hp hr hL
  cases hs : r.sourceLines number lines with
  | error halt => exact hreason ⟨lines, r, number, halt, hl, hs⟩
  | ok r' =>
    obtain ⟨hfollows, hframes⟩ :=
      h.meaning F hF lines r r' number hl (fun t ht => (hplain t ht).1) hp hr hs
    obtain ⟨ls, hls⟩ := hfollows.output
    refine ⟨hfollows.pending, hframes, (hfollows.labels hq).trans hL, ls, hls, ?_⟩
    rw [← append_nil ls]
    exact .statement ⟨lines, r, r', number, hl, hs, hls⟩ .nil

end Linewise
