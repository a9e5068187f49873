/-
  What lowering remembers from line to line.

  One value holds all of it: the depth of braces, the open frames, the function and the struct
  under way, the constants' index, the names known to be maps, what the whole program will need,
  and the notices. A step is a function on this value that may stop; when it stops, what it had
  changed by then stays changed.
-/
import Linewise.Block
import Linewise.Fault
import Linewise.Name

namespace Linewise

open Text

/-! ## 1. Parts -/

/-- The function whose body is open. -/
structure FunctionFrame where
  name : Text
  /-- the C++ types of its results -/
  results : List Text
  depth : Nat
  deriving DecidableEq, Repr

namespace FunctionFrame

/-- The entry point, which returns a status. -/
def isMain (f : FunctionFrame) : Bool := f.name == ("main" : Text)

/-- It returns several values. -/
def returnsTuple (f : FunctionFrame) : Bool := 1 < f.results.length

end FunctionFrame

/-- The struct whose body is open. -/
structure StructDraft where
  name : Text
  /-- what its text form shows, in order -/
  fields : List Text := []
  /-- embedded types, which become bases -/
  bases : List Text := []
  /-- which output line opens the class -/
  opener : Option Nat := none
  deriving DecidableEq, Repr

/-- What an entry without expressions repeats. -/
structure ConstTemplate where
  type : Option Text
  /-- one expression per name, the index not yet filled in -/
  exprs : List Text
  deriving DecidableEq, Repr

/-- The constant group under way. -/
structure ConstGroup where
  index : Nat := 0
  template : Option ConstTemplate := none
  deriving DecidableEq, Repr

/-! ## 2. The state -/

/-- The memory of a run. Stacks have the innermost frame first. -/
structure State where
  lineNumber : Nat := 0
  depth : Nat := 0
  /-- the brace depth before the line at hand -/
  depthBefore : Nat := 0
  blocks : List BlockFrame := []
  switches : List SwitchFrame := []
  closures : List ClosureFrame := []
  names : NameSupply := {}
  function : Option FunctionFrame := none
  /-- the label the next clause has to carry -/
  pendingLabel : Option Text := none
  consts : ConstGroup := {}
  /-- names that hold maps, each once -/
  knownMaps : List Text := []
  struct : Option StructDraft := none
  /-- the value type of the map literal under way -/
  mapValue : Option Text := none
  /-- something that is no literal is printed -/
  needsPrettyPrint : Bool := false
  /-- a struct is declared or built -/
  hasAggregates : Bool := false
  /-- headers of the functions so far, as declarations -/
  prototypes : List Text := []
  notices : List Notice := []
  deriving DecidableEq, Repr

namespace State

/-! ## 3. Maps -/

/-- The name is known to hold a map from now on. -/
def registerMap (s : State) (name : Text) : State :=
  if trim name ∈ s.knownMaps then s else { s with knownMaps := s.knownMaps ++ [trim name] }

theorem registerMap_knownMaps (s : State) (name : Text) :
    ∃ known, s.registerMap name = { s with knownMaps := known } ∧
      ∀ x, x ∈ known ↔ x ∈ s.knownMaps ∨ trim name = x := by
  unfold registerMap
  by_cases hin : trim name ∈ s.knownMaps
  · rw [if_pos hin]
    exact ⟨s.knownMaps, rfl, fun x => ⟨.inl, fun h => h.elim id fun e => e ▸ hin⟩⟩
  · rw [if_neg hin]
    exact ⟨s.knownMaps ++ [trim name], rfl, fun x => by simp [eq_comm]⟩

/-- What is asked about when an expression is asked about: parentheses around it and stars before
    it do not matter. -/
def bareOperand (expr : Text) : Text :=
  (trim (dropEndWhile (· == ')') ((trim expr).dropWhile (· == '(')))).dropWhile (· == '*')

/-- The expression, or the member it selects last, is known to hold a map. -/
def isKnownMap (s : State) (expr : Text) : Bool :=
  let e := bareOperand expr
  e ∈ s.knownMaps || (pieces (· == '.') e).getLast?.any (· ∈ s.knownMaps)

/-! ## 4. Frames -/

/-- A notice about the line at hand. -/
def notice (s : State) (message : Text) : State :=
  { s with notices := s.notices ++ [⟨s.lineNumber, message⟩] }

/-- A block opens. A group of constants counts from zero. -/
def enterBlock (s : State) (block : Block) (depth : Nat) : State :=
  { s with
    blocks := ⟨block, depth⟩ :: s.blocks
    consts := if block = .constGroup then {} else s.consts }

/-- The innermost block closes. -/
def exitBlock (s : State) : State := { s with blocks := s.blocks.tail }

/-- The innermost block. -/
def block? (s : State) : Option Block := s.blocks.head?.map (·.block)

/-- The line closes the innermost block; `depth` is the brace depth after the line. -/
def closesBlock (s : State) (line : Text) (depth : Nat) : Bool :=
  s.blocks.head?.any (·.closes line depth)

/-- A switch opens. -/
def enterSwitch (s : State) (discriminant : Option Text) (depth : Nat) : State :=
  { s with switches := ⟨discriminant, true, depth⟩ :: s.switches }

/-- The innermost switch, if this depth is the one it was opened on. -/
def switchAt? (s : State) (depth : Nat) : Option SwitchFrame :=
  s.switches.head?.filter (·.depth == depth)

/-- The innermost switch closes. -/
def exitSwitch (s : State) : State := { s with switches := s.switches.tail }

/-- A closure opens. -/
def enterClosure (s : State) (kind : ClosureKind) (depth : Nat) : State :=
  { s with closures := ⟨kind, depth⟩ :: s.closures }

/-- The line closes the innermost closure; `depth` is the brace depth after the line. -/
def closesClosure (s : State) (line : Text) (depth : Nat) : Bool :=
  startsWith line "\x7d" && s.closures.head?.any (·.depth == depth)

/-- The innermost closure closes. -/
def exitClosure (s : State) : State := { s with closures := s.closures.tail }

/-- The line closes the function's body. -/
def closesFunction (s : State) (line : Text) : Bool :=
  startsWith line "\x7d" && s.function.any (·.depth == s.depth)

/-- A struct body opens. -/
def enterStruct (s : State) (name : Text) : State :=
  { s with hasAggregates := true, struct := some { name } }

end State

/-! ## 5. Steps -/

/-- A step that may stop; what it changed before it stopped stays changed. -/
abbrev Lower := EStateM Stop State

namespace Lower

/-- Stop with a fault. -/
def fail {α : Type} (f : Fault) : Lower α := throw (.fault f)

/-- A computation that may fault, as a step that leaves the state alone. -/
def lift {α : Type} : Except Fault α → Lower α
  | .ok a => pure a
  | .error f => fail f

/-- Draw the next name of a role. -/
def freshName (role : NameRole) : Lower Text := do
  let s ← get
  set { s with names := s.names.advance role }
  return s.names.next role

end Lower

end Linewise
