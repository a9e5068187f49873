/-
  Composite literals as they are written: a type, then elements in braces.

  A literal may be left open at the end of a line; its elements then go on below. Text after the
  closing brace makes the whole something else.
-/
import Linewise.Nesting

namespace Linewise

open Text

/-- A type and the text of the elements, both trimmed. -/
structure Composite where
  type : Text
  elements : Text
  closed : Bool
  deriving DecidableEq, Repr

/-- The composite literal a text is. -/
def Composite.split? (s : Text) : Option Composite :=
  let s := trim s
  (topIndex? '{' s).bind fun i =>
    let type := trim (s.take i)
    if type.isEmpty then none
    else
      match matching? (s.drop i) with
      | some n =>
        if i + n + 1 == s.length then some ⟨type, trim ((s.drop (i + 1)).take (n - 1)), true⟩ else none
      | none => some ⟨type, trim (s.drop (i + 1)), false⟩

theorem Composite.length_elements_lt {s : Text} {lit : Composite} (h : Composite.split? s = some lit) :
    lit.elements.length < s.length := by
  have ht := length_trim_le s
  simp only [Composite.split?] at h
  obtain ⟨i, hi, h⟩ := Option.bind_eq_some_iff.mp h
  have hlt := lt_length_of_topIndex? hi
  split at h
  · cases h
  · split at h
    · split at h
      · cases h
        rename_i n _ _
        have := length_trim_le (((trim s).drop (i + 1)).take (n - 1))
        simp only [List.length_take, List.length_drop] at this
        simp only
        omega
      · cases h
    · cases h
      have := length_trim_le ((trim s).drop (i + 1))
      simp only [List.length_drop] at this
      simp only
      omega

end Linewise
