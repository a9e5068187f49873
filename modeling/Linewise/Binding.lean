/-
  Where a statement binds or assigns: the top-level `=` or `:=`.

  A comparison (`==`, `!=`, `<=`, `>=`) is passed over. An arithmetic or bitwise operator right
  before the sign makes the statement an update in place, which is no binding at all.
-/
import Linewise.Nesting

namespace Linewise

open Text

/-- Whether names are introduced or assigned. -/
inductive Binding.Kind where
  /-- `:=` -/
  | define
  /-- `=` -/
  | assign
  deriving DecidableEq, Repr

/-- The two sides of a binding, trimmed. -/
structure Binding where
  lhs : Text
  rhs : Text
  kind : Binding.Kind
  deriving DecidableEq, Repr

namespace Binding

/-- Where the binding sign stands, from a machine and a depth on: the index of its `=`. -/
def signFrom? (l : Lexer) (depth : Int) : Text → Option (Nat × Kind)
  | [] => none
  | c :: r =>
    let later := (signFrom? (l.step c) (depth + l.nesting c) r).map fun (i, k) => (i + 1, k)
    if l.isCode c && c == '=' && depth == 0 then
      if r.head? == some '=' || ("=!<>" : Text).contains l.last then later
      else if ("+-*/%&|^" : Text).contains l.last then none
      else some (0, if l.last == ':' then .define else .assign)
    else later

/-- The binding a statement makes, if it makes one. -/
def split? (s : Text) : Option Binding :=
  (signFrom? Lexer.start 0 s).map fun (i, kind) =>
    match kind with
    | .define => ⟨trim (s.take (i - 1)), trim (s.drop (i + 1)), .define⟩
    | .assign => ⟨trim (s.take i), trim (s.drop (i + 1)), .assign⟩

end Binding

end Linewise
