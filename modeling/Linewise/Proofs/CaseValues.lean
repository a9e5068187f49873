/-
  The values of a clause as operands of their comparisons.

  The values go into the condition as they stand, so one with an operator that binds no tighter than
  the comparison is torn apart:

      case a & b:     if (_s__0 == a & b) {     ((_s__0 == a) & b)
-/
import Linewise.Proofs.Precedence
import Linewise.Proofs.Emission

namespace Linewise

open Text List

variable {d v : Text}

namespace Grouping

/-! ## 1. The condition that is meant -/

/-- A value compared with the value of the switch, whole on the right side. -/
def comparison (d v : Text) : Grouping := binary .equal (operand d) (read v)

/-- One of these conditions holds. -/
def disjunction : List Grouping → Grouping
  | [] => operand "false"
  | g :: gs => gs.foldl (binary .or) g

theorem row_foldl_or (gs : List Grouping) (g : Grouping) :
    (gs.foldl (binary .or) g).row = gs.foldl (fun w x => w.join .or x.row) g.row := by
  induction gs generalizing g with
  | nil => rfl
  | cons x gs ih => exact ih (binary .or g x)

theorem allowed_foldl_or {gs : List Grouping} (hgs : ∀ x ∈ gs, 0 < x.level) (g : Grouping) :
    (gs.foldl (binary .or) g).Allowed ↔ g.Allowed ∧ ∀ x ∈ gs, x.Allowed := by
  induction gs generalizing g with
  | nil => simp
  | cons x gs ih =>
    have hx : 0 < x.level := hgs x mem_cons_self
    have hor : (binary .or g x).Allowed ↔ g.Allowed ∧ x.Allowed :=
      ⟨fun h => h.2.2, fun h => ⟨Nat.zero_le _, hx, h⟩⟩
    rw [foldl_cons, ih (forall_mem_cons.mp hgs).2, hor, forall_mem_cons,
      and_assoc]

theorem allowed_comparison : (comparison d v).Allowed ↔ (Row.ofText v).rest = [] := by
  constructor
  · rintro ⟨-, hlevel, -⟩
    exact rest_ofRow hlevel
  · intro h
    have hv : read v = operand (Row.ofText v).first := by rw [read, ofRow, h]; rfl
    have hlevel : Operator.equal.level < (read v).level := by rw [hv]; exact Operator.level_lt _
    exact ⟨Nat.le_of_lt (Operator.level_lt _), hlevel, trivial, allowed_ofRow _⟩

/-- Allowed unless a value has an operator that binds no tighter than `==`. -/
theorem allowed_disjunction {values : List Text} :
    (disjunction (values.map (comparison d))).Allowed ↔ ∀ v ∈ values, (Row.ofText v).rest = [] := by
  cases values with
  | nil => simp [disjunction, Allowed]
  | cons v values =>
    have hlevel : ∀ x ∈ values.map (comparison d), 0 < x.level := by
      intro x hx
      obtain ⟨w, -, rfl⟩ := mem_map.mp hx
      exact Nat.zero_lt_succ 4
    rw [map_cons, disjunction, allowed_foldl_or hlevel, forall_mem_cons, allowed_comparison,
      forall_mem_map]
    simp only [allowed_comparison]

/-! ## 2. The condition that is written -/

/-- A value of a switch, compared with one of a clause. -/
def comparisonText (d v : Text) : Text := d ++ (" " ++ (Operator.equal.text ++ (" " ++ v)))

theorem row_comparison (hd : isIdentifier d = true) (v : Text) :
    Row.ofText (comparisonText d v) = (comparison d v).row := by
  rw [comparisonText, Row.ofText_binary .equal (operandEnd_of_isIdentifier hd),
    Row.ofText_of_isIdentifier hd, comparison, row, row, read, row_ofRow]

theorem operandEnd_comparison (hd : isIdentifier d = true) (hv : OperandEnd v) :
    OperandEnd (comparisonText d v) := by
  have hsign : Bare " == " := by decide
  have hleft : WellNested (d ++ " == ") :=
    hsign.append_wellNested (bare_of_isIdentifier hd).wellNested
  have htext : comparisonText d v = d ++ " == " ++ v := by
    rw [append_assoc]
    rfl
  have hne : v ≠ [] := by
    rintro rfl
    exact absurd hv.last (by decide)
  rw [htext]
  refine ⟨hleft.append hv.wellNested (by simp), ?_⟩
  rw [getLast?_append_of_ne_nil _ hne]
  exact hv.last

theorem join_foldl (a b : Row) (cs : List Text) :
    a.join .or (cs.foldl (fun w x => w.join .or (.ofText x)) b)
      = cs.foldl (fun w x => w.join .or (.ofText x)) (a.join .or b) := by
  induction cs generalizing b with
  | nil => rfl
  | cons x cs ih => rw [foldl_cons, foldl_cons, ih, Row.join_assoc]

theorem ofText_disjunction {c : Text} {cs : List Text} (h : ∀ x ∈ c :: cs, OperandEnd x) :
    Row.ofText (joinWith " || " (c :: cs))
      = cs.foldl (fun w x => w.join .or (.ofText x)) (.ofText c) := by
  induction cs generalizing c with
  | nil => rw [joinWith_singleton]; rfl
  | cons x cs ih =>
    have hor : joinWith " || " (c :: x :: cs)
        = c ++ (" " ++ (Operator.or.text ++ (" " ++ joinWith " || " (x :: cs)))) := by
      rw [joinWith_cons_cons]
      rfl
    rw [hor, Row.ofText_binary .or (h c mem_cons_self), ih (forall_mem_cons.mp h).2,
      join_foldl]
    rfl

theorem row_disjunction (hd : isIdentifier d = true) {values : List Text} (hne : values ≠ [])
    (h : ∀ v ∈ values, OperandEnd v) :
    (disjunction (values.map (comparison d))).row
      = Row.ofText (joinWith " || " (values.map (comparisonText d))) := by
  cases values with
  | nil => exact absurd rfl hne
  | cons v values =>
    have hc : ∀ x ∈ comparisonText d v :: values.map (comparisonText d), OperandEnd x := by
      rw [← map_cons, forall_mem_map]
      exact fun w hw => operandEnd_comparison hd (h w hw)
    rw [map_cons, map_cons, ofText_disjunction hc, disjunction, row_foldl_or, foldl_map,
      foldl_map]
    simp only [row_comparison hd]

end Grouping

/-! ## 3. Clauses -/

theorem clauseCondition_some (d : Text) (values : List Text) :
    Lower.clauseCondition (some d) values = joinWith " || " (values.map (Grouping.comparisonText d)) := by
  have htext : (fun v => d ++ " == " ++ v) = Grouping.comparisonText d := by
    funext v
    rw [append_assoc]
    rfl
  rw [← htext]
  rfl

/-- A value that a clause can list: no comma at top level, and an operand at its end. -/
@[mk_iff] structure CaseValue (p : Text) : Prop where
  part : IsPart ',' p
  operandEnd : OperandEnd (trim p)

instance (p : Text) : Decidable (CaseValue p) := decidable_of_iff _ (caseValue_iff ..).symm

theorem not_isAllBlank_values {parts : List Text} (hne : parts ≠ []) (h : ∀ p ∈ parts, CaseValue p) :
    isAllBlank (joinWith "," parts) = false := by
  obtain ⟨p, hp⟩ := exists_mem_of_ne_nil parts hne
  obtain ⟨c, hlast, hc, -⟩ := (h p hp).operandEnd.exists_last
  have hmem : c ∈ joinWith "," parts :=
    mem_joinWith_of_mem hp (mem_of_mem_trim (mem_of_getLast? hlast))
  refine Bool.eq_false_iff.mpr fun hblank => ?_
  rw [isAllBlank_iff.mp hblank c hmem] at hc
  cases hc

/-- **The condition of a clause** of a switch over a value is read as the disjunction of the
    comparisons, each with the whole of its value on the right side, if and only if no value holds an
    operator at top level that binds no tighter than `==`. -/
theorem caseClause_grouping {s : State} {f : SwitchFrame} {fs : List SwitchFrame} {d : Text}
    {parts : List Text} (hs : s.switches = f :: fs) (hf : f.discriminant = some d)
    (hd : isIdentifier d = true) (hne : parts ≠ []) (hparts : ∀ p ∈ parts, CaseValue p) :
    ∃ condition s',
      (Lower.caseClause (caseText parts)).run s
        = .ok (.line (Lower.clauseHeader f ("if (" ++ condition ++ ") \x7b")
            ++ Lower.labelText s.pendingLabel)) s' ∧
      (Grouping.read condition = Grouping.disjunction (parts.map fun p => .comparison d (trim p)) ↔
        ∀ p ∈ parts, (Row.ofText (trim p)).rest = []) := by
  have hv : Lower.clauseValues (caseText parts) = parts.map trim :=
    clauseValues_caseText (fun p hp => (hparts p hp).part) (not_isAllBlank_values hne hparts)
  have hvne : parts.map trim ≠ [] := by simpa using hne
  refine ⟨_, _, Lower.caseClause_run hs (hv ▸ hvne), ?_⟩
  have hends : ∀ v ∈ parts.map trim, OperandEnd v :=
    forall_mem_map.mpr fun p hp => (hparts p hp).operandEnd
  have hmeant : (parts.map fun p => Grouping.comparison d (trim p)) = (parts.map trim).map (.comparison d) := by
    rw [map_map]
    rfl
  rw [hv, hf, clauseCondition_some, hmeant, Grouping.read_eq_iff, Grouping.allowed_disjunction,
    forall_mem_map]
  exact and_iff_left (Grouping.row_disjunction hd hvne hends)

/-- A switch over a value before its first clause. -/
def valueSwitch : SwitchFrame := ⟨some "_s__0", true, 1⟩

/-- Values whose operators bind tighter than a comparison. -/
def wholeValues : List Text := [" a + f(b, '&')", " -1"]

theorem caseClause_grouping_wholeValues :
    (∀ p ∈ wholeValues, CaseValue p) ∧ ∃ condition s',
      (Lower.caseClause (caseText wholeValues)).run { switches := [valueSwitch] }
        = .ok (.line (Lower.clauseHeader valueSwitch ("if (" ++ condition ++ ") \x7b")
            ++ Lower.labelText none)) s' ∧
      (Grouping.read condition
          = Grouping.disjunction (wholeValues.map fun p => .comparison "_s__0" (trim p)) ↔
        ∀ p ∈ wholeValues, (Row.ofText (trim p)).rest = []) := by
  have hvalues : ∀ p ∈ wholeValues, CaseValue p := by decide
  exact ⟨hvalues, caseClause_grouping rfl rfl rfl (by decide) hvalues⟩

/-- The value `a & b` does not stay together: what is compared is `a` alone. -/
theorem maskedValue_torn :
    ∃ s', (Lower.caseClause (caseText [" a & b"])).run { switches := [valueSwitch] }
        = .ok (.line "if (_s__0 == a & b) \x7b") s' ∧
      Grouping.read "_s__0 == a & b"
        = .binary .bitAnd (.binary .equal (.operand "_s__0") (.operand "a")) (.operand "b") ∧
      Grouping.read "_s__0 == a & b" ≠ Grouping.disjunction [.comparison "_s__0" "a & b"] := by
  refine ⟨_, rfl, ?_⟩
  decide +kernel

end Linewise
