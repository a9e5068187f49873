/-
  When a line has the wrong number of values.

  As many values as names are wanted; outside constants several names may also share the results of
  one value. A line that wants more or less stops the run, except for a definition or an assignment of
  a single name.
-/
import Linewise.Proofs.ConstEntries

namespace Linewise

open Text List Lower

variable {e : Fault} {E : Stop → Prop}

/-! ## 1. Values -/

/-- The fault is a wrong number of values. -/
def Fault.IsCount : Fault → Prop
  | countMismatch _ _ _ => True
  | _ => False

theorem not_isCount_of_mapEntries {list valueType : Text} (h : mapEntries list valueType = .error e) :
    ¬ e.IsCount := by
  rw [mapEntries_eq] at h
  obtain ⟨entry, _, hentry⟩ := exists_error_of_mapM h
  unfold mapEntry at hentry
  split at hentry
  · cases hentry
    exact id
  · unfold mapPair at hentry
    split at hentry
    · split at hentry <;> cases hentry
    · cases hentry

theorem not_isCount_of_construct {expr : Text} (h : construct expr = .error e) : ¬ e.IsCount := by
  unfold construct at h
  split at h
  · cases h
  · split at h
    · cases h
    · rename_i lit _
      split at h
      · rename_i valueType _
        cases hentries : mapEntries lit.elements valueType with
        | error e' =>
          rw [hentries] at h
          cases h
          exact not_isCount_of_mapEntries hentries
        | ok entries =>
          rw [hentries] at h
          cases h
      · split at h
        · cases h
        · split at h <;> cases h

theorem not_isCount_of_value {expr : Text} (h : value expr = .error e) : ¬ e.IsCount := by
  have hplain {x : Text} (h : (construct x >>= fun c => pure ((c.map (·.temporary)).getD x)) = .error e) :
      ¬ e.IsCount := by
    cases hx : construct x with
    | error e' =>
      rw [hx] at h
      cases h
      exact not_isCount_of_construct hx
    | ok c =>
      rw [hx] at h
      cases h
  unfold value at h
  split at h
  · rename_i inner _
    cases hinner : construct inner with
    | error e' =>
      rw [hinner] at h
      cases h
      exact not_isCount_of_construct hinner
    | ok c =>
      rw [hinner] at h
      cases c with
      | none => exact hplain h
      | some c => cases h
  · exact hplain h

/-! ## 2. Steps that do not count -/

/-- The run stops for a wrong number of values. -/
def Stop.IsCount : Stop → Prop
  | .fault f => f.IsCount
  | .splitCharacter => False

namespace Lower

/-- The step stops for no other reason than those in `E`. -/
abbrev StopsOnly {α : Type} (E : Stop → Prop) (m : Lower α) : Prop := Keeps E (fun _ _ => True) m

theorem StopsOnly.ends {α : Type} {m : Lower α} (h : StopsOnly (fun _ => False) m) (s : State) :
    ∃ a s', m.run s = .ok a s' := by
  cases hrun : m.run s with
  | error stop s' => exact (h.error hrun).elim
  | ok a s' => exact ⟨a, s', rfl⟩

theorem Meets.stopsOnly {α : Type} {R : α → Prop} {m : Lower α}
    (h : Spec E False False R m) : StopsOnly E m :=
  h.keeps.mono (fun _ => id) fun _ _ _ => trivial

/-- The step never stops for a count. -/
abbrev Uncounted {α : Type} (m : Lower α) : Prop := StopsOnly (¬ ·.IsCount) m

theorem not_isCount_of_ofValue (f : Fault) (h : OfValue f) : ¬ f.IsCount := by
  obtain ⟨expr, hvalue | hconstruct⟩ := h
  · exact not_isCount_of_value hvalue
  · exact not_isCount_of_construct hconstruct

theorem uncounted_assignOne (name rhs : Text) (kind : Binding.Kind) : Uncounted (assignOne name rhs kind) :=
  (spec_assignOne name rhs kind not_isCount_of_ofValue nofun).stopsOnly

theorem uncounted_varValues (type : Option Text) (names values : List Text) :
    Uncounted (varValues type names values) :=
  (spec_varValues type names values not_isCount_of_ofValue nofun).stopsOnly

/-! ## 3. Ways through a line -/

variable {line : Text} {b : Binding}

theorem stopsOnly_assignment (hb : Binding.split? line = some b)
    (hseveral : 1 < (splitTop ',' b.lhs).length) (hone : (splitTop ',' b.rhs).length = 1) :
    StopsOnly E (assignment line) := by
  cases hliteral : b.isLiteral with
  | true =>
    rw [assignment_literal hb hliteral]
    exact (spec_functionLiteral _ _ _ nofun).stopsOnly
  | false =>
    obtain ⟨single, hsingle⟩ := length_eq_one_iff.mp hone
    rw [assignment_several hb hliteral hseveral, hsingle]
    exact (spec_destructure _ _ _ _).stopsOnly

theorem assignment_mismatch (hb : Binding.split? line = some b) (hliteral : b.isLiteral = false)
    (hseveral : 1 < (splitTop ',' b.lhs).length) (hone : (splitTop ',' b.rhs).length ≠ 1)
    (hne : (splitTop ',' b.lhs).length ≠ (splitTop ',' b.rhs).length) :
    assignment line = fail (.countMismatch (splitTop ',' b.lhs).length (splitTop ',' b.rhs).length line) := by
  rw [assignment_several hb hliteral hseveral]
  split
  · rename_i hsingle
    rw [hsingle] at hone
    exact absurd rfl hone
  · exact if_pos (bne_iff_ne.mpr (Ne.symm hne))

theorem varDeclaration_run_eq (hb : Binding.split? (trim (stripStart "var " line)) = some b)
    (hnames : areNames (splitNamesAndType b.lhs).1 = true) (hvalues : splitTop ',' b.rhs ≠ []) (s : State) :
    ∃ s₀ type, (varDeclaration line).run s =
      (if (splitTop ',' b.rhs).length = 1 ∧ 1 < (splitNamesAndType b.lhs).1.length then
        assignment (joinWith ", " (splitNamesAndType b.lhs).1 ++ " := " ++ (splitTop ',' b.rhs).headD [])
      else if (splitTop ',' b.rhs).length ≠ (splitNamesAndType b.lhs).1.length then
        fail (.countMismatch (splitNamesAndType b.lhs).1.length (splitTop ',' b.rhs).length line)
      else varValues type (splitNamesAndType b.lhs).1 (splitTop ',' b.rhs)).run s₀ := by
  unfold varDeclaration
  simp only [hb]
  generalize splitNamesAndType b.lhs = targets at hnames ⊢
  obtain ⟨names, type⟩ := targets
  have hsome : (splitTop ',' b.rhs).isEmpty = false := isEmpty_eq_false_iff.mpr hvalues
  simp only [hnames, hsome, Bool.not_true, Bool.false_eq_true, if_false, Bool.and_eq_true, beq_iff_eq,
    decide_eq_true_eq, bne_iff_ne]
  split
  · exact ⟨_, _, rfl⟩
  · exact ⟨_, _, rfl⟩

theorem stopsOnly_oneValue (hb : Binding.split? (trim (stripStart "var " line)) = some b)
    (hnames : areNames (splitNamesAndType b.lhs).1 = true) (hseveral : 1 < (splitNamesAndType b.lhs).1.length)
    (hone : (splitTop ',' b.rhs).length = 1) :
    StopsOnly E (assignment
      (joinWith ", " (splitNamesAndType b.lhs).1 ++ " := " ++ (splitTop ',' b.rhs).headD [])) := by
  generalize (splitNamesAndType b.lhs).1 = names at hnames hseveral
  obtain ⟨single, hsingle⟩ := length_eq_one_iff.mp hone
  have hvalue : splitTop ',' single = [single] := by
    have htrim : single = b.rhs := (eq_trim_of_splitTop hsingle).trans (Binding.trim_sides hb).2
    rw [htrim, hsingle, htrim]
  have hid := (areNames_iff.mp hnames).2
  rw [hsingle, append_assoc]
  refine stopsOnly_assignment (Binding.split?_define (bare_names hid)
    (not_mem_names hid rfl (by decide)) single) ?_ ?_
  · have := two_le_length_splitTop hid hseveral
    simp only
    omega
  · rw [splitTop_trim rfl rfl, hvalue]
    rfl

end Lower

/-! ## 4. Counts -/

namespace BindingForm

/-- **The counts that fit**: as many values as names or, outside constants, one value for several
    names. -/
def Fits (form : BindingForm) (n k : Nat) : Prop := n = k ∨ form ≠ constant ∧ 1 < n ∧ k = 1

/-- The counts that stop a line. Nobody counts the values of a single name that is assigned. -/
def Rejects (form : BindingForm) (n k : Nat) : Prop := ¬ form.Fits n k ∧ ¬ (form = assignment ∧ n = 1)

instance (form : BindingForm) (n k : Nat) : Decidable (form.Fits n k) := inferInstanceAs (Decidable (_ ∨ _))

instance (form : BindingForm) (n k : Nat) : Decidable (form.Rejects n k) := inferInstanceAs (Decidable (_ ∧ _))

/-- A line stops with both numbers if they are rejected, and never for a count otherwise. -/
structure Outcome (form : BindingForm) (line : Text) (b : Binding) (s : State) : Prop where
  rejected : form.Rejects (form.names b).length (values b).length →
    ∃ s', (form.lower line).run s
      = .error (.fault (.countMismatch (form.names b).length (values b).length line)) s'
  passed : ¬ form.Rejects (form.names b).length (values b).length →
    ∀ stop s', (form.lower line).run s = .error stop s' → ¬ stop.IsCount

variable {line : Text} {b : Binding}

theorem outcome_assignment (hb : assignment.split? line = some b) (hnames : areNames (assignment.names b) = true)
    (hliteral : b.isLiteral = false) (s : State) : Outcome assignment line b s := by
  have hpos : 0 < (assignment.names b).length := length_pos_iff.mpr (areNames_iff.mp hnames).1
  refine ⟨fun h => ⟨s, ?_⟩, fun h stop s' hrun => ?_⟩
  · simp only [Rejects, Fits, true_and, ne_eq, reduceCtorEq, not_false_eq_true] at h
    have hmismatch := assignment_mismatch hb hliteral (show 1 < (assignment.names b).length by omega)
      (show (values b).length ≠ 1 by omega) (show (assignment.names b).length ≠ (values b).length by omega)
    exact congrArg (EStateM.run · s) hmismatch
  · have hrun : (Lower.assignment line).run s = .error stop s' := hrun
    simp only [Rejects, Fits, true_and, ne_eq, reduceCtorEq, not_false_eq_true] at h
    by_cases hone : (assignment.names b).length ≤ 1
    · rw [assignment_one hb hliteral hone] at hrun
      exact (uncounted_assignOne _ _ _).error hrun
    · by_cases hsingle : (values b).length = 1
      · exact (Lower.stopsOnly_assignment (E := (¬ ·.IsCount)) hb (Nat.lt_of_not_le hone) hsingle).error hrun
      · have hpaired : (assignment.names b).length = (values b).length := by omega
        rw [assignment_parallel hb hliteral (Nat.lt_of_not_le hone) hpaired] at hrun
        refine Keeps.error (E := (¬ ·.IsCount)) (Meets.stopsOnly (R := fun _ => True)
          (.next (.lift_of fun e he => ?_) fun _ => .pure trivial)) hrun
        obtain ⟨v, _, hv⟩ := exists_error_of_mapM he
        exact not_isCount_of_value hv

theorem outcome_declaration (hb : declaration.split? line = some b) (hnames : areNames (declaration.names b) = true)
    (hvalues : values b ≠ []) (s : State) : Outcome declaration line b s := by
  obtain ⟨s₀, type, heq⟩ := varDeclaration_run_eq hb hnames hvalues s
  refine ⟨fun h => ⟨s₀, ?_⟩, fun h stop s' hrun => ?_⟩
  · simp only [Rejects, Fits, ne_eq, reduceCtorEq, not_false_eq_true, true_and, false_and, and_true] at h
    refine heq.trans ?_
    rw [if_neg (fun hone => h (.inr ⟨hone.2, hone.1⟩)), if_pos (fun hpaired => h (.inl hpaired.symm))]
    rfl
  · simp only [Rejects, Fits, ne_eq, reduceCtorEq, not_false_eq_true, true_and, false_and, and_true,
      Decidable.not_not] at h
    have hrun := heq.symm.trans hrun
    split at hrun
    · rename_i hone
      exact (stopsOnly_oneValue (E := (¬ ·.IsCount)) hb hnames hone.2 hone.1).error hrun
    · rename_i hone
      rw [if_neg] at hrun
      · exact (uncounted_varValues _ _ _).error hrun
      · exact fun hne => hone ((h.resolve_left (Ne.symm hne)).symm)

theorem outcome_constant (hb : constant.split? line = some b) (s : State) : Outcome constant line b s := by
  have hparts : constParts s.constGroup (trim (stripStart "const " line)) line =
      if (values b).length != (constant.names b).length then
        .error (.countMismatch (constant.names b).length (values b).length line)
      else .ok ((constant.names b), ⟨(splitNamesAndType b.lhs).2.map cppType, values b⟩) := by
    unfold constParts
    rw [show Binding.split? (trim (stripStart "const " line)) = some b from hb]
    rfl
  have hentry (h : (values b).length ≠ (constant.names b).length) : constEntryOf s.constGroup line
      = .error (.countMismatch (constant.names b).length (values b).length line) := by
    unfold constEntryOf
    rw [hparts, if_pos (bne_iff_ne.mpr h)]
    rfl
  refine ⟨fun h => ?_, fun h stop s' hrun => ?_⟩
  · simp only [Rejects, Fits, ne_eq, reduceCtorEq, not_true_eq_false, false_and, or_false, not_false_eq_true,
      and_true] at h
    obtain ⟨s', hrun, _⟩ := constDeclaration_error (hentry (Ne.symm h))
    exact ⟨s', hrun⟩
  · simp only [Rejects, Fits, ne_eq, reduceCtorEq, not_true_eq_false, false_and, or_false, not_false_eq_true,
      and_true, Decidable.not_not] at h
    cases hok : constEntryOf s.constGroup line with
    | ok p =>
      rw [show (lower constant line).run s = _ from constDeclaration_ok hok] at hrun
      cases hrun
    | error f =>
      obtain ⟨s'', hstop, _⟩ := constDeclaration_error hok
      cases hrun.symm.trans hstop
      -- with the counts paired only the names can be wrong
      unfold constEntryOf at hok
      rw [hparts, if_neg (by rw [h, bne_self_eq_false]; exact Bool.false_ne_true)] at hok
      replace hok : (if areNames (constant.names b) then Except.ok _ else .error (Fault.unrecognized .const line))
          = .error f := hok
      split at hok
      · cases hok
      · cases hok
        exact id

end BindingForm

/-! ## 5. Lines that stop -/

/-- **When a line stops for its counts**, and with which numbers. For names, and values that are there, it
    does so exactly if the counts do not fit, unless a single name is assigned, whose values nobody counts.
    Outside constants several names and one value always end. -/
theorem countMismatch_iff {form : BindingForm} {line : Text} {b : Binding} {s : State}
    (hb : form.split? line = some b) (hnames : areNames (form.names b) = true)
    (hvalues : BindingForm.values b ≠ []) (hliteral : form = .assignment → b.isLiteral = false) :
    (∀ n k text, (∃ s', (form.lower line).run s = .error (.fault (.countMismatch n k text)) s') ↔
      (n = (form.names b).length ∧ k = (BindingForm.values b).length ∧ text = line) ∧
        ¬ form.Fits n k ∧ ¬ (form = .assignment ∧ n = 1)) ∧
    (form ≠ .constant → 1 < (form.names b).length → (BindingForm.values b).length = 1 →
      ∃ lowered s', (form.lower line).run s = .ok lowered s') := by
  have houtcome : form.Outcome line b s := by
    cases form with
    | assignment => exact BindingForm.outcome_assignment hb hnames (hliteral rfl) s
    | declaration => exact BindingForm.outcome_declaration hb hnames hvalues s
    | constant => exact BindingForm.outcome_constant hb s
  refine ⟨fun n k text => ⟨fun ⟨s', hrun⟩ => ?_, ?_⟩, fun hform hseveral hone => ?_⟩
  · have hrejects : form.Rejects (form.names b).length (BindingForm.values b).length :=
      Decidable.not_not.mp fun hpass => houtcome.passed hpass _ s' hrun trivial
    obtain ⟨s'', hstop⟩ := houtcome.rejected hrejects
    cases hrun.symm.trans hstop
    exact ⟨⟨rfl, rfl, rfl⟩, hrejects⟩
  · rintro ⟨⟨rfl, rfl, rfl⟩, hrejects⟩
    exact houtcome.rejected hrejects
  · cases form with
    | constant => exact absurd rfl hform
    | assignment => exact (Lower.stopsOnly_assignment hb hseveral hone).ends s
    | declaration =>
      obtain ⟨s₀, type, heq⟩ := Lower.varDeclaration_run_eq hb hnames hvalues s
      obtain ⟨lowered, s', hrun⟩ := (Lower.stopsOnly_oneValue hb hnames hseveral hone).ends s₀
      exact ⟨lowered, s', (heq.trans (by rw [if_pos ⟨hone, hseveral⟩])).trans hrun⟩

/-- Two names too many, a constant without a value, and three values for two names. -/
theorem countMismatch_iff_lines :
    (∃ s', (BindingForm.declaration.lower "var a, b, c, d int = 1, 2").run {}
      = .error (.fault (.countMismatch 4 2 "var a, b, c, d int = 1, 2")) s') ∧
    (∃ s', (BindingForm.constant.lower "const a, b = f(1, 2)").run {}
      = .error (.fault (.countMismatch 2 1 "const a, b = f(1, 2)")) s') ∧
    (∃ s', (BindingForm.assignment.lower "a, b = f(1, 2), 3, 4").run {}
      = .error (.fault (.countMismatch 2 3 "a, b = f(1, 2), 3, 4")) s') ∧
    (∃ lowered s', (BindingForm.assignment.lower "a, b = f(1, 2)").run {} = .ok lowered s') := by
  have hvar : BindingForm.declaration.split? "var a, b, c, d int = 1, 2"
    = some ⟨"a, b, c, d int", "1, 2", .assign⟩ := by decide +kernel
  have hconst : BindingForm.constant.split? "const a, b = f(1, 2)" = some ⟨"a, b", "f(1, 2)", .assign⟩ := by
    decide +kernel
  have hassign : BindingForm.assignment.split? "a, b = f(1, 2), 3, 4"
    = some ⟨"a, b", "f(1, 2), 3, 4", .assign⟩ := by decide +kernel
  have hone : BindingForm.assignment.split? "a, b = f(1, 2)" = some ⟨"a, b", "f(1, 2)", .assign⟩ := by
    decide +kernel
  refine ⟨?_, ?_, ?_, ?_⟩
  · exact ((countMismatch_iff hvar (by decide +kernel) (by decide +kernel) nofun).1 4 2 _).mpr (by decide +kernel)
  · exact ((countMismatch_iff hconst (by decide +kernel) (by decide +kernel) nofun).1 2 1 _).mpr (by decide +kernel)
  · exact ((countMismatch_iff hassign (by decide +kernel) (by decide +kernel) fun _ => by decide +kernel).1 2 3 _).mpr
      (by decide +kernel)
  · exact (countMismatch_iff hone (by decide +kernel) (by decide +kernel) fun _ => by decide +kernel).2
      (by decide) (by decide +kernel) (by decide +kernel)

/-- **Two values for one name**: the declaration stops, the definition becomes a comma expression. -/
theorem singleName_uncounted :
    ¬ BindingForm.assignment.Fits 1 2 ∧
    (∃ s', (BindingForm.declaration.lower "var a = 1, 2").run {}
      = .error (.fault (.countMismatch 1 2 "var a = 1, 2")) s') ∧
    (∃ s', (BindingForm.assignment.lower "a := 1, 2").run {} = .ok (.statement "auto a = 1, 2") s') := by
  refine ⟨by decide, ⟨_, rfl⟩, ⟨{}, by with_unfolding_all rfl⟩⟩

end Linewise
