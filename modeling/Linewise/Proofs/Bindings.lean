/-
  Which way a line with `=` or `:=` goes.

  A function literal on the right goes its own way. Otherwise one name is bound by itself, and several
  are bound to as many values.
-/
import Linewise.Proofs.Construct

namespace Linewise

open Text List

variable {s head part : Text} {c sep : Char}

/-! ## 1. Steps that end -/

namespace Lower

variable {α β : Type} {s s' s'' : State}

/-- Whether a step ends, or stops. -/
def ends (m : Lower α) (s : State) : Bool :=
  match m.run s with
  | .ok _ _ => true
  | .error _ _ => false

theorem run_of_ends {m : Lower α} (h : m.ends s = true) : ∃ a, m.run s = .ok a (m.after s) := by
  cases hrun : m.run s with
  | error stop s' =>
    rw [ends, hrun] at h
    cases h
  | ok a s' => exact ⟨a, by rw [after_of_ok hrun]⟩

theorem exists_run_of_mem {f : α → Lower β} (hf : ∀ a, Gathers True (f a)) {xs : List α} {x : α} (hx : x ∈ xs)
    {bs : List β} (h : (xs.mapM f).run s = .ok bs s') :
    ∃ before b after, (f x).run before = .ok b after ∧ State.Gathers after s' := by
  induction xs generalizing s bs with
  | nil => cases hx
  | cons y ys ih =>
    rw [mapM_cons] at h
    obtain ⟨b, s₁, hy, h⟩ := bind_eq_ok h
    obtain ⟨bs', s₂, hys, h⟩ := bind_eq_ok h
    cases h
    rcases mem_cons.mp hx with rfl | hx
    · have hrest := @Gathers.mapM _ _ _ f ys (fun a _ => hf a) s₁
      rw [after_of_ok hys] at hrest
      exact ⟨s, b, s₁, hy, hrest.gathers⟩
    · exact ih hx hys

theorem mapM_unchanged {f : α → Lower β} (hf : ∀ a s b s', (f a).run s = .ok b s' → s' = s) {xs : List α}
    {bs : List β} (h : (xs.mapM f).run s = .ok bs s') : s' = s := by
  induction xs generalizing s bs with
  | nil =>
    cases h
    rfl
  | cons x xs ih =>
    rw [mapM_cons] at h
    obtain ⟨b, s₁, hx, h⟩ := bind_eq_ok h
    obtain ⟨bs', s₂, hxs, h⟩ := bind_eq_ok h
    cases h
    rw [ih hxs, hf x s b s₁ hx]

end Lower

/-! ## 2. Sides -/

namespace Binding

theorem trim_sides {line : Text} {b : Binding} (h : split? line = some b) :
    trim b.lhs = b.lhs ∧ trim b.rhs = b.rhs := by
  obtain ⟨⟨i, kind⟩, _, rfl⟩ := Option.map_eq_some_iff.mp h
  cases kind <;> exact ⟨trim_trim _, trim_trim _⟩

theorem split?_assign {a : Text} (ha : Bare a) (he : '=' ∉ a) (v : Text) :
    split? (a ++ (" = " ++ v)) = some ⟨trim a, trim v, .assign⟩ := by
  have hb : Blank " " := by decide
  have hsign := signFrom?_bare (ha.append (by decide : Bare " ")) (not_mem_append he (by decide))
    (by rw [getLast?_append]; rfl) (by decide) v
  have hlhs : (a ++ (" = " ++ v)).take (a.length + 1) = a ++ " " := by
    rw [take_length_add_append]
    rfl
  have hrhs : (a ++ (" = " ++ v)).drop (a.length + 2) = " " ++ v := by
    rw [drop_length_add_append]
    rfl
  rw [append_assoc, length_append] at hsign
  refine (congrArg _ hsign).trans ?_
  show some (⟨trim (take (a.length + 1) _), trim (drop (a.length + 2) _), .assign⟩ : Binding) = _
  rw [hlhs, hrhs, trim_append_blank hb, trim_blank_append hb]

end Binding

/-! ## 3. The three ways -/

namespace Lower

variable {line : Text} {b : Binding}

theorem assignment_literal (hb : Binding.split? line = some b) (h : b.isLiteral = true) :
    assignment line = functionLiteral b.lhs b.kind b.rhs := by
  unfold assignment
  rw [hb]
  exact if_pos h

theorem assignment_one (hb : Binding.split? line = some b) (h : b.isLiteral = false)
    (hone : (splitTop ',' b.lhs).length ≤ 1) : assignment line = assignOne b.lhs b.rhs b.kind := by
  unfold assignment
  rw [hb]
  exact (if_neg (Bool.eq_false_iff.mp h)).trans (if_pos hone)

theorem assignment_several (hb : Binding.split? line = some b) (h : b.isLiteral = false)
    (hseveral : 1 < (splitTop ',' b.lhs).length) :
    assignment line = match splitTop ',' b.rhs with
      | [single] => destructure (splitTop ',' b.lhs) single b.kind line
      | values =>
        if values.length != (splitTop ',' b.lhs).length then
          fail (.countMismatch (splitTop ',' b.lhs).length values.length line)
        else do
          return assignParallel (splitTop ',' b.lhs) (← lift (values.mapM value)) b.kind := by
  unfold assignment
  rw [hb]
  exact (if_neg (Bool.eq_false_iff.mp h)).trans (if_neg (Nat.not_le_of_lt hseveral))

theorem assignment_parallel (hb : Binding.split? line = some b) (h : b.isLiteral = false)
    (hseveral : 1 < (splitTop ',' b.lhs).length)
    (hpaired : (splitTop ',' b.lhs).length = (splitTop ',' b.rhs).length) :
    assignment line = do
      return assignParallel (splitTop ',' b.lhs) (← lift ((splitTop ',' b.rhs).mapM value)) b.kind := by
  rw [assignment_several hb h hseveral]
  split
  · rename_i hsingle
    rw [hpaired, hsingle] at hseveral
    exact absurd hseveral (Nat.lt_irrefl 1)
  · refine if_neg ?_
    rw [hpaired, bne_self_eq_false]
    exact Bool.false_ne_true

end Lower

/-! ## 4. Lines that bind -/

/-- The lines that bind names to values. -/
inductive BindingForm where
  /-- a line with `=` or `:=` -/
  | assignment
  /-- a line `var …`, or an entry of a group -/
  | declaration
  /-- a line `const …` with expressions, or such an entry of a group -/
  | constant
  deriving DecidableEq, Repr

namespace BindingForm

/-- How such a line is lowered. -/
def lower : BindingForm → Text → Lower Lowered
  | assignment => Lower.assignment
  | declaration => Lower.varDeclaration
  | constant => Lower.constDeclaration

/-- The two sides of such a line. -/
def split? : BindingForm → Text → Option Binding
  | assignment, line => Binding.split? line
  | declaration, line => Binding.split? (trim (stripStart "var " line))
  | constant, line => Binding.split? (trim (stripStart "const " line))

/-- The names on its left side. -/
def names : BindingForm → Binding → List Text
  | assignment, b => splitTop ',' b.lhs
  | declaration, b => (splitNamesAndType b.lhs).1
  | constant, b => (splitNamesAndType b.lhs).1

/-- The values on its right side. -/
def values (b : Binding) : List Text := splitTop ',' b.rhs

end BindingForm

end Linewise
