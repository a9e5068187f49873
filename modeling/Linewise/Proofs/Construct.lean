/-
  Statements with a frame of their own: switches, struct bodies, types, functions.

  For each of them the state behind the line is given outright.
-/
import Linewise.Proofs.Step

namespace Linewise

open Text List EStateM

variable {s : State} {f : SwitchFrame} {fs : List SwitchFrame} {P Q : Prop} {name rhs : Text}
  {g : State → State}

namespace Lower

open Lowered

/-! ## 1. Switches -/

theorem spec_switchInit (init : Option Text) (hP : P → ∀ c ∈ init, WellNested c)
    (hQ : Q → ∀ c ∈ init, WellNested c) :
    Spec Stop.IsFault P Q (fun bound => ∀ b ∈ bound, b ≠ []) (switchInit init) := by
  unfold switchInit
  split
  · rename_i clause hc
    have hmem : clause ∈ init := (Option.filter_eq_some_iff.mp hc).1
    have hinit := (spec_initClause clause).weaken (fun hp => hP hp clause hmem) (fun hq => hQ hq clause hmem)
    refine hinit.next fun _ => .pure fun b hb => ?_
    rw [mem_singleton.mp hb]
    exact append_cons_ne_nil _
  · exact .pure (forall_mem_nil _)

/-- The notice a switch over types leaves. -/
def noticeTypeSwitch (line tag : Text) (s : State) : State :=
  if includes tag ".(type)" then s.notice ("type switches are not supported: " ++ quoted line) else s

/-- The frame and the names after the head of a switch with this value. -/
def openSwitch (tag : Text) (s : State) : State :=
  if tag.isEmpty then s.enterSwitch none s.depthBefore
  else { s with names := s.names.advance .switch }.enterSwitch (some (s.names.next .switch)) s.depthBefore

/-- The C++ of the head of a switch, given that of its initialization. -/
def switchOpener (tag : Text) (bound : List Text) (s : State) : Lowered :=
  if tag.isEmpty then if bound.isEmpty then .dropped else .line (unlines bound)
  else .line (unlines (bound ++ ["auto " ++ s.names.next .switch ++ " = " ++ tag ++ ";"]))

theorem switch_run (line : Text) (s : State) :
    (switch line).run s = match (switchInit (splitSwitchHead line).1).run s with
      | .error stop s' => .error stop s'
      | .ok bound s' =>
        let s' := noticeTypeSwitch line (splitSwitchHead line).2 s'
        .ok (switchOpener (splitSwitchHead line).2 bound s') (openSwitch (splitSwitchHead line).2 s') := by
  unfold switch
  split
  rename_i init tag heq
  rw [heq, run_bind]
  cases (switchInit init).run s with
  | error stop s' => rfl
  | ok bound s' =>
    unfold noticeTypeSwitch openSwitch switchOpener
    generalize includes tag ".(type)" = isTypeSwitch
    generalize ht : tag.isEmpty = isTagless
    cases isTypeSwitch <;> cases isTagless <;> rfl

theorem keeps_switch (line : Text)
    (hP : P → ∀ c ∈ (splitSwitchHead line).1, WellNested c)
    (hQ : Q → ∀ c ∈ (splitSwitchHead line).1, WellNested c) :
    Keeps Stop.IsFault (fun s s' => ∃ s₁, Opens P Q s s₁ ∧ ∃ names notices discriminant,
        s' = { s₁ with names := names, notices := notices,
                       switches := ⟨discriminant, true, s₁.depthBefore⟩ :: s₁.switches })
      (switch line) := by
  intro s
  have hinit := (spec_switchInit (splitSwitchHead line).1 hP hQ).keeps
  rw [switch_run]
  cases hb : (switchInit (splitSwitchHead line).1).run s with
  | error stop s₁ => exact hinit.error hb
  | ok bound s₁ =>
    refine ⟨s₁, hinit.ok hb, ?_⟩
    simp only [noticeTypeSwitch, openSwitch]
    generalize includes (splitSwitchHead line).2 ".(type)" = isTypeSwitch
    generalize (splitSwitchHead line).2.isEmpty = isTagless
    cases isTypeSwitch <;> cases isTagless <;> exact ⟨_, _, _, rfl⟩

/-- The label a pending jump puts behind a header. -/
def labelText : Option Text → Text
  | some label => "\n" ++ (label ++ ":;")
  | none => []

theorem withPendingLabel_run (header : Text) (s : State) :
    (withPendingLabel header).run s
      = .ok (.line (header ++ labelText s.pendingLabel)) { s with pendingLabel := none } := by
  obtain ⟨_, _, _, _, _, _, _, _, label, _⟩ := s
  cases label with
  | none =>
    rw [labelText, append_nil]
    rfl
  | some label =>
    rw [labelText, ← append_assoc, ← append_assoc]
    rfl

/-- The state behind the header of a clause of the innermost switch. -/
def enterClause (f : SwitchFrame) (fs : List SwitchFrame) (s : State) : State :=
  { s with switches := { f with firstClause := false } :: fs, pendingLabel := none }

/-- The values of a `case` line. -/
def clauseValues (line : Text) : List Text :=
  splitTop ',' (trim (stripEnd ":" (trim (stripStart "case" line))))

/-- The header of a clause: the first one of a switch starts the chain. -/
def clauseHeader (f : SwitchFrame) (test : Text) : Text :=
  if f.firstClause then test else "\x7d else " ++ test

theorem caseClause_run {line : Text} (hs : s.switches = f :: fs)
    (hv : clauseValues line ≠ []) :
    (caseClause line).run s
      = .ok (.line (clauseHeader f ("if (" ++ clauseCondition f.discriminant (clauseValues line)
            ++ ") \x7b") ++ labelText s.pendingLabel)) (enterClause f fs s) := by
  unfold caseClause
  rw [run_bind, run_get]
  simp only [hs, head?_cons]
  have hne : ¬ (splitTop ',' (trim (stripEnd ":" (trim (stripStart "case" line))))).isEmpty = true := by
    rw [List.isEmpty_iff]
    exact hv
  rw [if_neg hne, run_bind]
  unfold markClause
  rw [run_modify]
  simp only [hs, modifyHead_cons]
  rw [withPendingLabel_run]
  rfl

theorem caseClause_outside (line : Text) (hs : s.switches = []) :
    (caseClause line).run s = .error (.fault (.malformed .caseOutsideSwitch line)) s := by
  unfold caseClause
  rw [run_bind, run_get]
  simp only [hs, head?_nil]
  rfl

theorem caseClause_empty {line : Text} (hs : s.switches = f :: fs)
    (hv : clauseValues line = []) :
    (caseClause line).run s = .error (.fault (.malformed .caseClause line)) s := by
  unfold caseClause
  rw [run_bind, run_get]
  simp only [hs, head?_cons]
  unfold clauseValues at hv
  rw [hv]
  rfl

theorem keeps_caseClause (line : Text) :
    Keeps Stop.IsFault (fun s s' => ∃ f fs, s.switches = f :: fs ∧ s' = enterClause f fs s)
      (caseClause line) := by
  intro s
  cases hs : s.switches with
  | nil =>
    rw [caseClause_outside line hs]
    trivial
  | cons f fs =>
    by_cases hv : clauseValues line = []
    · rw [caseClause_empty hs hv]
      trivial
    · rw [caseClause_run hs hv]
      exact ⟨f, fs, hs, rfl⟩

/-- The notice a `default` in front of all values leaves. -/
def noticeDefault (f : SwitchFrame) (s : State) : State :=
  if f.firstClause then s.notice "\x60default:\x60 before any case always runs" else s

/-- The header of the clause without values. -/
def defaultHeader (f : SwitchFrame) : Text :=
  if f.firstClause then "if (true) \x7b" else "\x7d else \x7b"

theorem defaultClause_run (hs : s.switches = f :: fs) :
    defaultClause.run s
      = .ok (.line (defaultHeader f ++ labelText s.pendingLabel)) (enterClause f fs (noticeDefault f s)) := by
  unfold defaultClause
  rw [run_bind, run_get]
  simp only [hs, head?_cons]
  obtain ⟨d, first, depth⟩ := f
  cases first with
  | true =>
    simp only [if_true]
    rw [run_bind]
    unfold markClause
    rw [run_modify]
    simp only [hs, modifyHead_cons]
    rw [run_bind, run_modify]
    simp only
    rw [withPendingLabel_run]
    rfl
  | false =>
    simp only [Bool.false_eq_true, if_false]
    rw [withPendingLabel_run]
    simp only [defaultHeader, noticeDefault, enterClause, Bool.false_eq_true, if_false, ← hs]

theorem defaultClause_outside (hs : s.switches = []) :
    defaultClause.run s = .ok (.line "default:") (s.notice "\x60default:\x60 outside a switch") := by
  unfold defaultClause
  rw [run_bind, run_get]
  simp only [hs, head?_nil]
  rfl

theorem keeps_defaultClause :
    Keeps Stop.IsFault (fun s s' => (s.switches = [] ∧ ∃ message, s' = s.notice message) ∨
      ∃ f fs, s.switches = f :: fs ∧ s' = enterClause f fs (noticeDefault f s)) defaultClause := by
  intro s
  cases hs : s.switches with
  | nil =>
    rw [defaultClause_outside hs]
    exact .inl ⟨hs, _, rfl⟩
  | cons f fs =>
    rw [defaultClause_run hs]
    exact .inr ⟨f, fs, hs, rfl⟩

/-- The state behind a jump into the next clause. -/
def awaitClause (s : State) : State :=
  { s with names := s.names.advance .label, pendingLabel := some (s.names.next .label) }

theorem fallthrough_run (s : State) :
    fallthrough.run s = .ok (.line ("goto " ++ s.names.next .label ++ ";")) (awaitClause s) := rfl

/-! ## 2. Struct bodies -/

/-- What a line of a struct body may change: known maps, notices, and the members of the struct. -/
def StructStep (s s' : State) : Prop :=
  ∃ known notices g, s' = { s with knownMaps := known, notices := notices, struct := s.struct.map g }
    ∧ ∀ d : StructDraft, (g d).name = d.name ∧ (g d).opener = d.opener

theorem StructStep.of_eq (known : List Text) (notices : List Notice) :
    StructStep s { s with knownMaps := known, notices := notices } := by
  refine ⟨known, notices, id, ?_, fun _ => ⟨rfl, rfl⟩⟩
  rw [Option.map_id]
  rfl

theorem StructStep.refl (s : State) : StructStep s s := .of_eq s.knownMaps s.notices

theorem StructStep.trans {s' s'' : State} (h : StructStep s s') (h' : StructStep s' s'') : StructStep s s'' := by
  obtain ⟨known, notices, g, rfl, hg⟩ := h
  obtain ⟨known', notices', g', rfl, hg'⟩ := h'
  refine ⟨known', notices', g' ∘ g, ?_, fun d => ?_⟩
  · simp only [Option.map_map]
  · exact ⟨(hg' (g d)).1.trans (hg d).1, (hg' (g d)).2.trans (hg d).2⟩

instance : Composes StructStep := ⟨.refl, .trans⟩

theorem meets_extendStruct (fields bases : List Text) (line : Text) :
    Meets Stop.IsFault StructStep True (fun _ => True) (extendStruct fields bases line) := by
  refine ⟨fun s => ?_, .get_bind fun s => ?_, .trivial _, fun label s => ?_⟩
  · unfold extendStruct
    rw [run_bind, run_get]
    cases h : s.struct with
    | none =>
      simp only [h]
      trivial
    | some draft =>
      simp only [h]
      refine ⟨s.knownMaps, s.notices, fun d =>
        { d with fields := d.fields ++ fields, bases := d.bases ++ bases }, ?_, fun _ => ⟨rfl, rfl⟩⟩
      rw [h]
      rfl
  · split
    · exact .of_eq rfl
    · exact .refl s
  · obtain ⟨_, _, _, _, _, _, _, _, _, _, _, struct, _⟩ := s
    cases struct <;> rfl

theorem meets_structField (line : Text) : Meets Stop.IsFault StructStep True Written (structField line) := by
  unfold structField
  extract_lets field embedded
  split
  · exact .pure written_dropped
  · split
    · split
      · exact (Meets.modify (fun s => .of_eq s.knownMaps _) fun s => .notice s _).next fun _ =>
          .pure written_dropped
      · exact (meets_extendStruct _ _ _).next fun _ => .pure written_dropped
    · rename_i names type _
      extract_lets after before
      split
      · exact .fail_bind trivial _
      · rename_i hnames
        have hafter : ∀ u, Meets Stop.IsFault StructStep True Written (after u) := by
          intro u
          refine (meets_extendStruct _ _ _).next fun _ =>
            .pure (written_line (unlines_ne_nil_of_forall ?_ fun p hp => ?_))
          · rintro hnil
            rw [map_eq_nil_iff.mp hnil] at hnames
            exact hnames rfl
          · obtain ⟨n, _, rfl⟩ := mem_map.mp hp
            exact append_cons_ne_nil _
        refine Meets.ite_next (.modify (fun s => ?_) (fun s => .registerMaps id _ s)
          fun label => (State.sparesMaps_withLabel label).registerMaps id names) hafter
        obtain ⟨known, hk⟩ := s.foldl_registerMap_eq id names
        rw [show names.foldl State.registerMap s = _ from hk]
        exact .of_eq known s.notices

theorem structClose_run (s : State) :
    ∃ text, structClose.run s = .ok text { s with struct := none } ∧ text ≠ [] := by
  obtain ⟨_, _, _, _, _, _, _, _, _, _, _, struct, _⟩ := s
  cases struct with
  | none => exact ⟨_, rfl, cons_ne_nil _ _⟩
  | some draft => exact ⟨_, rfl, append_cons_ne_nil _⟩

/-! ## 3. Types -/

/-- **What a type declaration can do.** Only a line that is not well nested opens a body. -/
inductive TypeStep (line : Text) (s : State) : Lowered → State → Prop where
  | structBody (name : Text) (hid : isIdentifier name = true) (h : ¬ WellNested line) :
      TypeStep line s (.line (classOpener name []))
        ((s.enterStruct name).enterBlock .structBody s.depthBefore)
  | interfaceBody (message : Text) (h : ¬ WellNested line) :
      TypeStep line s .dropped ((s.notice message).enterBlock .interfaceBody s.depthBefore)
  | inlineStruct (text : Text) (known : List Text) (notices : List Notice) :
      TypeStep line s (.line text)
        { s with hasAggregates := true, knownMaps := known, notices := notices, struct := none }
  | other (lowered : Lowered) (notices : List Notice) :
      TypeStep line s lowered { s with notices := notices }

theorem meets_inlineFields (inner : Text) :
    Meets Stop.IsFault StructStep True (fun _ => True) (inlineFields inner) :=
  (Meets.mapM fun f _ => meets_structField f).next fun _ => .pure trivial

theorem structDeclaration_cases (hid : isIdentifier name = true) (rest line : Text)
    (hrest : WellNested line → WellNested rest) (s : State) :
    match (structDeclaration name rest line).run s with
    | .ok lowered s' => TypeStep line s lowered s'
    | .error stop _ => stop.IsFault := by
  unfold structDeclaration
  rw [run_bind, run_modify]
  simp only
  by_cases hopen : rest == "\x7b"
  · rw [if_pos hopen]
    refine .structBody name hid fun h => ?_
    have hbad := (hrest h).not_endsWith (c := '{') rfl
    rw [show rest = "\x7b" from by simpa using hopen] at hbad
    cases hbad
  · rw [if_neg hopen]
    cases hinner : (stripStart? "\x7b" rest).bind (stripEnd? "\x7d") with
    | none => trivial
    | some inner =>
      simp only
      rw [run_bind]
      cases hf : (inlineFields inner).run (s.enterStruct name) with
      | error stop s' => exact (meets_inlineFields inner).keeps.error hf
      | ok members s' =>
        obtain ⟨known, notices, g, rfl, _⟩ := (meets_inlineFields inner).keeps.ok hf
        obtain ⟨text, hclose, _⟩ := structClose_run
          { s.enterStruct name with
            knownMaps := known, notices := notices, struct := (s.enterStruct name).struct.map g }
        simp only [run_bind, run_get, hclose]
        exact .inlineStruct _ known notices

/-- A type declaration does one of these things. -/
theorem typeDeclaration_cases (line : Text) (s : State) :
    match (typeDeclaration line).run s with
    | .ok lowered s' => TypeStep line s lowered s'
    | .error stop _ => stop.IsFault := by
  unfold typeDeclaration
  cases hsplit : splitOnce? isBlank (trim (stripStart "type " line)) with
  | none => trivial
  | some p =>
    obtain ⟨name, rest⟩ := p
    by_cases hid : isIdentifier name = true
    · simp only [hid, Bool.not_true, Bool.false_eq_true, if_false]
      -- what follows the name is well nested if the line is
      have hrest : WellNested line → WellNested (trim rest) := by
        intro h
        have hw := (h.stripStart (by decide : WellNested "type ") (by decide)).trim
        obtain ⟨b, hb, he⟩ := eq_append_of_splitOnce? hsplit
        have hbare : Bare (name ++ [b]) := (bare_of_isIdentifier hid).append fun c hc => by
          rw [mem_singleton.mp hc]
          exact ⟨(not_special_of_isBlank hb).1, (not_special_of_isBlank hb).2.1⟩
        rw [he, ← singleton_append, ← append_assoc] at hw
        refine (hw.of_append hbare.wellNested ?_).trim
        simp only [getLast?_append, getLast?_singleton, Option.some_or, ne_eq,
          Option.some.injEq]
        exact (not_special_of_isBlank hb).2.2
      cases ha : stripStart? "struct" (trim rest) with
      | some after =>
        refine structDeclaration_cases hid _ line (fun h => ?_) s
        have hw := hrest h
        rw [eq_append_of_stripStart? ha] at hw
        exact (hw.of_append (by decide) (by decide)).trim
      | none =>
        by_cases hi : startsWith (trim rest) "interface" = true
        · simp only [if_pos hi]
          rw [run_bind, run_modify]
          by_cases hopen : endsWith (trim rest) "\x7b" = true
          · simp only [if_pos hopen]
            refine .interfaceBody _ fun h => ?_
            have := (hrest h).not_endsWith (c := '{') rfl
            rw [show endsWith (trim rest) ['{'] = true from hopen] at this
            cases this
          · simp only [if_neg hopen]
            exact .other .dropped _
        · simp only [if_neg hi]
          by_cases ht : (trim (stripStart "=" (trim rest))).isEmpty = true
          · simp only [if_pos ht]
            trivial
          · simp only [if_neg ht]
            exact .other _ s.notices
    · simp only [hid, Bool.not_false, if_true]
      trivial

theorem keeps_typeDeclaration (line : Text) :
    Keeps Stop.IsFault (fun s s' => ∃ lowered, TypeStep line s lowered s') (typeDeclaration line) := by
  intro s
  have hs := typeDeclaration_cases line s
  generalize (typeDeclaration line).run s = result at hs ⊢
  cases result with
  | ok lowered s' => exact ⟨lowered, hs⟩
  | error stop s' => exact hs

/-! ## 4. Functions, closures, map literals -/

theorem keeps_functionDefinition (line : Text) :
    Keeps (fun _ => False) (fun s s' => ∃ known prototypes f,
        s' = { s with knownMaps := known, prototypes := prototypes, function := some f }
          ∧ f.depth = s.depthBefore)
      (functionDefinition line) := by
  intro s
  unfold functionDefinition
  rw [run_bind, run_modify]
  obtain ⟨known, hk⟩ := s.foldl_registerMap_eq Parameter.name
    ((Signature.parse line).params.filter (isMapType ·.type))
  simp only [show s.registerParams (Signature.parse line).params = _ from hk]
  by_cases hm : (Signature.parse line).isMain = true
  · simp only [hm, Bool.not_true, Bool.false_eq_true, if_false]
    exact ⟨known, s.prototypes, _, rfl, rfl⟩
  · simp only [hm, Bool.not_false, if_true]
    exact ⟨known, _, _, rfl, rfl⟩

theorem functionLiteral_run (lhs : Text) (kind : Binding.Kind) (hb : endsWith rhs "\x7b" = true)
    (s : State) :
    ∃ lowered known, (functionLiteral lhs kind rhs).run s
      = .ok lowered ({ s with knownMaps := known }.enterClosure .lambda s.depthBefore) := by
  unfold functionLiteral
  split
  rename_i params results _
  obtain ⟨known, hk⟩ := s.foldl_registerMap_eq Parameter.name (params.filter (isMapType ·.type))
  rw [run_bind, run_modify]
  simp only [show s.registerParams params = _ from hk]
  rw [run_bind, run_get]
  simp only [if_pos hb]
  exact ⟨_, known, rfl⟩

theorem closureEnd_run (line : Text) (s : State) :
    ∃ lowered, (closureEnd line).run s = .ok lowered s.exitClosure ∧ (line ≠ [] → lowered.Written) := by
  unfold closureEnd
  rw [run_bind, run_get]
  simp only
  rw [run_bind, run_set]
  simp only
  split
  · exact ⟨_, rfl, fun _ => written_line (cons_ne_nil _ _)⟩
  · exact ⟨_, rfl, fun _ => written_line (cons_ne_nil _ _)⟩
  · exact ⟨_, rfl, written_line⟩

theorem keeps_mapLiteralOpen (line : Text) :
    Keeps Stop.IsFault (fun s s' => ∃ known valueType,
        s' = { s with knownMaps := known, mapValue := some valueType }.enterBlock .mapLiteral s.depthBefore)
      (mapLiteralOpen line) := by
  intro s
  unfold mapLiteralOpen
  cases Binding.split? (stripStart "var " line) with
  | none => trivial
  | some b =>
    cases hname : (words b.lhs).head? with
    | none =>
      simp only [hname]
      trivial
    | some name =>
      cases hlit : Composite.split? b.rhs with
      | none =>
        simp only [hname, hlit]
        trivial
      | some lit =>
        cases htype : splitMapType? lit.type with
        | none =>
          simp only [hname, hlit, htype]
          trivial
        | some p =>
          obtain ⟨key, valueType⟩ := p
          cases hentries : mapEntries lit.elements valueType with
          | error f =>
            simp only [hname, hlit, htype, hentries]
            trivial
          | ok entries =>
            simp only [hname, hlit, htype, hentries]
            obtain ⟨known, hk⟩ := s.registerMap_eq name
            refine ⟨known, valueType, ?_⟩
            simp only [hk]

theorem assignOne_run (kind : Binding.Kind) {lit : Composite}
    (hname : isDiscard name = false) (happend : callArguments? "append" rhs = none)
    (hlit : Composite.split? rhs = some lit) (hopen : lit.closed = false) (s : State) :
    ∃ lowered aggregates, (assignOne name rhs kind).run s
      = .ok lowered ({ s with hasAggregates := aggregates }.enterBlock .compositeLiteral s.depthBefore) := by
  have hfilter : (Composite.split? rhs).filter (!·.closed) = some lit := by
    rw [hlit, Option.filter_some, hopen]
    rfl
  unfold assignOne
  rw [hname, happend, hfilter]
  exact ⟨_, _, rfl⟩

theorem blockClose_run (block : Block) (line : Text) (s : State) :
    ∃ lowered, (blockClose block line).run s = .ok lowered
      { s with
        blocks := s.blocks.tail
        struct := if block = .structBody then none else s.struct
        mapValue := if block = .mapLiteral then none else s.mapValue } ∧ lowered.Written := by
  have hend : line ++ (";" : Text) ≠ [] := append_cons_ne_nil _
  unfold blockClose
  rw [run_bind, run_modify]
  cases block with
  | structBody =>
    obtain ⟨text, hclose, hne⟩ := structClose_run s.exitBlock
    simp only
    rw [run_bind, hclose]
    exact ⟨_, rfl, written_line hne⟩
  | mapLiteral | compositeLiteral => exact ⟨_, rfl, written_line hend⟩
  | _ => exact ⟨_, rfl, written_dropped⟩

/-! ## 5. What is added -/

instance : Composes fun _ _ => True := ⟨fun _ => trivial, fun _ _ => trivial⟩

/-- What a step adds to what is gathered, and what holds of its results. -/
abbrev Adds {α : Type} (q : Prop) (R : α → Prop) (m : Lower α) : Prop :=
  Meets (fun _ => True) (fun _ _ => True) q R m

section Gathering

variable {q : Prop}

theorem Adds.of_run {α : Type} {R : α → Prop} {m : Lower α}
    (h : ∀ s, ∃ a s', m.run s = .ok a s' ∧ State.GathersAt q s s' ∧ R a) (hl : Unlabelled m) : Adds q R m := by
  refine ⟨fun s => ?_, fun s => ?_, fun s a s' hrun => ?_, hl⟩ <;> obtain ⟨b, t, hm, hg, hR⟩ := h s
  · rw [hm]
    trivial
  · rw [after_of_ok hm]
    exact hg
  · cases hm.symm.trans hrun
    exact hR

theorem Adds.of_meets {α : Type} {E : Stop → Prop} {K : State → State → Prop} {R : α → Prop} {m : Lower α}
    (h : Meets E K True R m) : Adds q R m :=
  (h.mono fun _ _ => trivial).relax fun _ _ _ => trivial

theorem adds_modify (hg : ∀ s, State.GathersAt q s (g s))
    (hl : ∀ label s, g (s.withLabel label) = (g s).withLabel label := by exact fun _ _ => rfl) :
    Adds q (fun _ => True) (modify g : Lower Unit) := .modify (fun _ => trivial) hg hl

theorem adds_rest (hg : ∀ s, (g s).record = s.record)
    (hl : ∀ label s, g (s.withLabel label) = (g s).withLabel label := by exact fun _ _ => rfl) :
    Adds q (fun _ => True) (modify g : Lower Unit) := adds_modify (fun s => .of_eq (hg s)) hl

theorem adds_freshName (role : NameRole) : Adds q (fun _ => True) (freshName role) :=
  .of_run (fun s => ⟨_, _, rfl, .advance s role, trivial⟩) fun _ _ => rfl

theorem adds_structClose : Adds q (· ≠ []) structClose := by
  refine .of_run (fun s => ?_) fun label s => ?_
  · obtain ⟨_, hrun, hne⟩ := structClose_run s
    exact ⟨_, _, hrun, .of_eq rfl, hne⟩
  · obtain ⟨_, _, _, _, _, _, _, _, _, _, _, struct, _⟩ := s
    cases struct <;> rfl

theorem adds_structDeclaration (name rest line : Text) : Adds q Written (structDeclaration name rest line) := by
  refine (adds_modify fun s => ?_).next fun _ => ?_
  · exact (State.GathersAt.useAggregates s true).trans (.of_eq (by
      simp only [State.record, State.enterStruct, Bool.or_true]))
  · split
    · exact Meets.next (adds_rest fun _ => rfl) fun _ => .pure (written_line (classOpener_ne_nil _ _))
    · split
      · exact .fail trivial
      · refine (Adds.of_meets (meets_inlineFields _)).next fun _ => Meets.get_bind (fun _ _ => rfl) fun _ =>
          adds_structClose.next fun _ => .pure (written_line ?_)
        exact unlines_ne_nil mem_cons_self (classOpener_ne_nil _ _)

theorem adds_typeDeclaration (line : Text) : Adds q Written (typeDeclaration line) := by
  unfold typeDeclaration
  extract_lets unrecognized dropped
  split
  · extract_lets rest target renamed declaration
    refine .guard trivial fun _ => ?_
    simp only [declaration]
    split
    · exact adds_structDeclaration _ _ _
    · split
      · exact (adds_modify fun s => .notice s _).next fun _ => .ite_next (adds_rest fun _ => rfl) fun _ =>
          .pure written_dropped
      · exact .guard trivial fun _ => .pure (written_of_mem (c := 'u') (by simp) rfl)
  · exact .fail trivial

theorem adds_functionDefinition (line : Text) : Adds False Written (functionDefinition line) := by
  unfold functionDefinition
  extract_lets sig rest
  refine (adds_modify (fun s => .registerMaps Parameter.name _ s)
    fun label => (State.sparesMaps_withLabel label).registerMaps Parameter.name _).next fun _ => ?_
  refine .ite_next (adds_modify fun s => .declare s _) fun _ => Meets.next (adds_rest fun _ => rfl) fun _ => .pure ?_
  split
  · exact written_line (append_cons_ne_nil _)
  · exact written_of_mem (mem_cpp sig) rfl

theorem adds_mapLiteralOpen (line : Text) : Adds q Written (mapLiteralOpen line) := by
  unfold mapLiteralOpen
  extract_lets malformed
  split
  · split
    · split
      · split
        · refine Meets.next (.lift_of fun _ _ => trivial) fun entries =>
            (adds_modify (fun s => ?_) fun label s => ?_).next fun _ => .pure (written_line ?_)
          · exact (State.GathersAt.registerMap s _).trans (.of_eq rfl)
          · rw [(State.sparesMaps_withLabel label).registerMap]
            rfl
          · rw [append_assoc]
            refine append_ne_nil_of_left_ne_nil ?_ _
            split
            · exact append_cons_ne_nil _
            · exact append_cons_ne_nil _
        · exact .fail trivial
      · exact .fail trivial
    · exact .fail trivial
  · exact .fail trivial

theorem adds_switch (line : Text) : Adds q Written (switch line) := by
  unfold switch
  split
  rename_i init tag _
  refine (Adds.of_meets (spec_switchInit (P := False) (Q := False) init nofun nofun)).bind fun bound hbound => ?_
  extract_lets rest
  refine .ite_next (adds_modify fun s => .notice s _) fun _ => ?_
  simp only [rest]
  split
  · refine Meets.next (adds_rest fun _ => rfl) fun _ => .pure ?_
    split
    · exact written_dropped
    · rename_i hne
      exact written_line (unlines_ne_nil_of_forall (by simpa using hne) hbound)
  · refine (adds_freshName _).next fun _ => Meets.next (adds_rest fun _ => rfl) fun _ => .pure (written_line ?_)
    exact unlines_ne_nil (mem_append_right _ mem_cons_self) (cons_ne_nil _ _)

theorem adds_blockClose (block : Block) (line : Text) : Adds q Written (blockClose block line) := by
  refine .of_run (fun s => ?_) ?_
  · obtain ⟨lowered, hrun, hwritten⟩ := blockClose_run block line s
    exact ⟨lowered, _, hrun, .of_eq rfl, hwritten⟩
  · unfold blockClose
    refine Unlabelled.bind (.modify fun _ _ => rfl) fun _ _ _ _ => ?_
    split
    · exact (adds_structClose (q := True)).unlabelled.bind fun _ _ _ _ _ _ => rfl
    · exact fun _ _ => rfl
    · exact fun _ _ => rfl
    · exact fun _ _ => rfl

end Gathering

theorem adds_line {kind : StatementKind} (hl : kind.usesLabel = false) (text : Text) :
    Adds (kind ≠ .functionSignature) (Shown kind text) (line kind text) := by
  have written {m : Lower Lowered} (hk : kind ≠ .assignment) (h : Adds (kind ≠ .functionSignature) Written m) :
      Adds (kind ≠ .functionSignature) (Shown kind text) m := h.imp fun _ hl => .of_written hk fun _ _ => hl
  cases hk : kind.isPlain with
  | true => exact .of_meets (spec_line text hk)
  | false =>
    cases kind with
    | functionSignature =>
      exact written nofun { adds_functionDefinition text with
        gathers := (adds_functionDefinition text).gathers.weaken fun h => h rfl }
    | blockOpen block => exact written nofun (Meets.next (adds_rest fun _ => rfl) fun _ => .pure written_dropped)
    | blockClose block => exact written nofun (adds_blockClose block text)
    | switch => exact written nofun (adds_switch text)
    | closureEnd =>
      refine .of_run (fun s => ?_) fun label s => ?_
      · obtain ⟨lowered, hrun, hwritten⟩ := closureEnd_run text s
        exact ⟨_, _, hrun, .of_eq rfl, .of_written nofun fun hne _ => hwritten hne⟩
      · obtain ⟨_, _, _, _, _, closures, _⟩ := s
        match closures with
        | [] | ⟨.deferred, _⟩ :: _ | ⟨.lambda, _⟩ :: _ => rfl
    | typeDeclaration => exact written nofun (adds_typeDeclaration text)
    | structField => exact written nofun (.of_meets (meets_structField text))
    | mapLiteralOpen => exact written nofun (adds_mapLiteralOpen text)
    | caseClause | defaultClause | fallthrough => cases hl
    | _ => cases hk

theorem usesLabel_run {kind : StatementKind} (hl : kind.usesLabel = true) (text : Text) (s : State) {q : Prop} :
    (∃ stop, (line kind text).run s = .error stop s) ∨
      ∃ lowered s', (line kind text).run s = .ok lowered s' ∧ State.GathersAt q s s' ∧ lowered.Written := by
  cases kind with
  | caseClause =>
    cases hs : s.switches with
    | nil => exact .inl ⟨_, caseClause_outside text hs⟩
    | cons f fs =>
      by_cases hv : clauseValues text = []
      · exact .inl ⟨_, caseClause_empty hs hv⟩
      · refine .inr ⟨_, _, caseClause_run hs hv, .of_eq rfl, written_line (append_ne_nil_of_left_ne_nil ?_ _)⟩
        unfold clauseHeader
        split
        · exact cons_ne_nil _ _
        · exact cons_ne_nil _ _
  | defaultClause =>
    refine .inr ?_
    cases hs : s.switches with
    | nil => exact ⟨_, _, defaultClause_outside hs, .notice s _, written_line (cons_ne_nil _ _)⟩
    | cons f fs =>
      refine ⟨_, _, defaultClause_run hs, ?_, written_line (append_ne_nil_of_left_ne_nil ?_ _)⟩
      · unfold noticeDefault
        split
        · exact (State.GathersAt.notice s _).trans (.of_eq rfl)
        · exact .of_eq rfl
      · unfold defaultHeader
        split
        · exact cons_ne_nil _ _
        · exact cons_ne_nil _ _
  | fallthrough =>
    exact .inr ⟨_, _, fallthrough_run s, (State.GathersAt.advance s .label).trans (.of_eq rfl),
      written_line (cons_ne_nil _ _)⟩
  | _ => cases hl

/-- **Lowering a line only adds to what is gathered**, whether it ends or stops, for every kind of
    line and from every state. Only the header of a function declares one. -/
theorem gathers_line (kind : StatementKind) (text : Text) :
    Gathers (kind ≠ .functionSignature) (line kind text) := by
  cases hl : kind.usesLabel with
  | false => exact (adds_line hl text).gathers
  | true =>
    intro s
    rcases usesLabel_run hl text s with ⟨stop, hrun⟩ | ⟨lowered, s', hrun, hgathers, _⟩
    · rw [after_of_error hrun]
      exact .refl s
    · rw [after_of_ok hrun]
      exact hgathers

/-- A line is written or dropped, idle appends apart. -/
theorem shows_line (kind : StatementKind) (text : Text) : Yields (Shown kind text) (line kind text) := by
  cases hl : kind.usesLabel with
  | false => exact (adds_line hl text).yields
  | true =>
    intro s lowered s' hrun
    rcases usesLabel_run hl text s (q := True) with ⟨stop, herror⟩ | ⟨lowered', s'', hok, _, hwritten⟩
    · cases herror.symm.trans hrun
    · cases hok.symm.trans hrun
      exact .of_written (fun h => by rw [h] at hl; cases hl) fun _ _ => hwritten

end Lower

end Linewise
