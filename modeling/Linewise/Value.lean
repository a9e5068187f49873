/-
  Values: composite literals, `make`, and what is built on the heap.

  A value that builds something is read as a construction: a C++ type followed by an initializer
  in braces or parentheses. It can stand as a temporary or initialize a declaration. Elements are
  lowered the same way at every depth:

      X: 1            .X = 1
      {1, 2}          {1, 2}
      T{1, 2}         T{1, 2}       the type spelled in C++
      &T{1}           new T{1}
      "a": 1          {"a", 1}      in a map

  Any other text is a value as it stands.
-/
import Linewise.Composite
import Linewise.Fault
import Linewise.GoType.Parser

namespace Linewise

open Text

/-! ## 1. Shapes -/

/-- Something built: its C++ type and its initializer. -/
structure Construction where
  type : Text
  init : Text
  isMap : Bool
  deriving DecidableEq, Repr

namespace Construction

/-- The construction as a value. -/
def temporary (c : Construction) : Text := c.type ++ c.init

/-- The construction as the declaration of a name. -/
def declaration (c : Construction) (name : Text) : Text := c.type ++ " " ++ name ++ c.init

end Construction

/-- The text in braces. -/
def braced (s : Text) : Text := "\x7b" ++ s ++ "\x7d"

/-- The text starts and ends with braces, perhaps with those of a pair. -/
def isBraced (s : Text) : Bool := startsWith s "\x7b" && endsWith s "\x7d"

/-- A name, or names joined by dots. -/
def isTypeName (s : Text) : Bool := (pieces (· == '.') s).all isIdentifier

/-- The argument text of a call of `name` that is the whole expression. -/
def callArguments? (name expr : Text) : Option Text :=
  (stripStart? name expr).bind fun r =>
    if startsWith r "(" then
      (enclosed? r).bind fun (inside, after) => if after.isEmpty then some inside else none
    else none

/-- What `make` builds from its arguments. -/
def constructMake (args : Text) : Option Construction :=
  match splitTop ',' args with
  | [] => none
  | type :: sizes =>
    if isMapType type then some ⟨cppType type, braced [], true⟩
    else if isSliceType type then
      match sizes with
      | [] => some ⟨cppType type, braced [], false⟩
      | size :: _ => some ⟨cppType type, "(" ++ size ++ ")", false⟩
    else none

/-- The element list without a comma at its end, and that comma. -/
def splitTrailingComma (list : Text) : Text × Text :=
  match stripEnd? "," (trim list) with
  | some body => (body, ",")
  | none => (trim list, [])

/-- The outermost form of an element, its parts still text. -/
inductive ElementShape where
  /-- `key: value` with an identifier for a key -/
  | keyed (key value : Text)
  /-- `{inner}` -/
  | braces (inner : Text)
  /-- `&inner` -/
  | address (inner : Text)
  | plain
  deriving DecidableEq, Repr

/-- The value of an element that has an identifier for a key, and that key. -/
def splitKey? (e : Text) : Option (Text × Text) :=
  (topIndex? ':' e).bind fun i =>
    let key := trim (e.take i)
    if isIdentifier key then some (key, e.drop (i + 1)) else none

/-- The form of a trimmed element. The first that fits decides. -/
def ElementShape.of (e : Text) : ElementShape :=
  if let some (key, value) := splitKey? e then keyed key value
  else if isBraced e then braces ((e.drop 1).take (e.length - 2))
  else if let some inner := stripStart? "&" e then address inner
  else plain

/-! ## 2. Lengths -/

theorem length_splitTrailingComma_le (list : Text) :
    (splitTrailingComma list).1.length ≤ list.length := by
  have := length_trim_le list
  unfold splitTrailingComma stripEnd?
  split
  · rename_i h
    split at h
    · cases h
      simp only [List.length_take]
      omega
    · cases h
  · exact this

theorem length_of_splitKey? {e k v : Text} (h : splitKey? e = some (k, v)) :
    v.length < e.length := by
  unfold splitKey? at h
  obtain ⟨i, hi, h⟩ := Option.bind_eq_some_iff.mp h
  have := lt_length_of_topIndex? hi
  dsimp only at h
  split at h
  · simp only [Option.some.injEq, Prod.mk.injEq] at h
    obtain ⟨_, rfl⟩ := h
    simp only [List.length_drop]
    omega
  · cases h

theorem length_pos_of_isBraced {e : Text} (h : isBraced e = true) : 0 < e.length := by
  cases e with
  | nil => simp [isBraced, startsWith] at h
  | cons c r => simp

/-- What is read on is shorter than the element. -/
def ElementShape.Shorter (n : Nat) : ElementShape → Prop
  | keyed _ value => value.length < n
  | braces inner => inner.length < n
  | address inner => inner.length < n
  | plain => True

theorem ElementShape.of_shorter (e : Text) : (ElementShape.of e).Shorter e.length := by
  unfold ElementShape.of
  split
  · rename_i h
    exact length_of_splitKey? h
  · split
    · rename_i h
      have := length_pos_of_isBraced h
      simp only [Shorter, List.length_take, List.length_drop]
      omega
    · split
      · rename_i h
        have := length_of_stripStart? h
        simp at this
        simp only [Shorter]
        omega
      · trivial

/-! ## 3. Elements at every depth -/

mutual

/-- What an expression builds: `make(…)` or a closed composite literal. -/
def construct (expr : Text) : Except Fault (Option Construction) :=
  match callArguments? "make" (trim expr) with
  | some args => .ok (constructMake args)
  | none =>
    match _h : (Composite.split? (trim expr)).filter (·.closed) with
    | none => .ok none
    | some lit =>
      match splitMapType? lit.type with
      | some (_, valueType) =>
        (mapEntries lit.elements valueType).map fun entries =>
          some ⟨cppType lit.type, braced (joinWith ", " entries), true⟩
      | none =>
        match stripStart? "[...]" lit.type with
        | some elementType =>
          let count := ((splitTop ',' lit.elements).filter (!·.isEmpty)).length
          .ok (some ⟨"std::array<" ++ cppType elementType ++ ", " ++ decimal count ++ ">",
            braced (elements lit.elements), false⟩)
        | none =>
          if startsWith lit.type "[" || isTypeName lit.type then
            .ok (some ⟨cppType lit.type, braced (elements lit.elements), false⟩)
          else .ok none
termination_by 3 * expr.length
decreasing_by
  all_goals
    have h1 := Composite.length_elements_lt (Option.filter_eq_some_iff.mp _h).1
    have h2 := length_trim_le expr
    omega

/-- One element of a composite literal. A fault inside it leaves the element as it is written. -/
def element (e : Text) : Text :=
  match _h : ElementShape.of (trim e) with
  | .keyed key value => "." ++ key ++ " = " ++ element value
  | .braces inner => braced (elements inner)
  | .address inner =>
    match construct inner with
    | .ok (some c) => "new " ++ c.temporary
    | _ => trim e
  | .plain =>
    match construct (trim e) with
    | .ok (some c) => c.temporary
    | _ => trim e
termination_by 3 * e.length + 1
decreasing_by
  all_goals
    have h1 := ElementShape.of_shorter (trim e)
    have h2 := length_trim_le e
    simp only [_h, ElementShape.Shorter] at h1
    omega

/-- The elements of a composite literal, in order; a comma at the end stays. -/
def elements (list : Text) : Text :=
  let parts := (splitTop ',' (splitTrailingComma list).1).attach.map fun e => element e.1
  joinWith ", " parts ++ (splitTrailingComma list).2
termination_by 3 * list.length + 2
decreasing_by
  have := length_of_mem_splitTop e.2
  have := length_splitTrailingComma_le list
  omega

/-- The entries of a map literal, each as a pair in braces. An entry in braces is allocated where
    the values are pointers. -/
def mapEntries (list valueType : Text) : Except Fault (List Text) :=
  ((splitTop ',' list).filter (!·.isEmpty)).attach.mapM fun entry =>
    match _h : topIndex? ':' entry.1 with
    | none => .error (.missingSeparator entry.1)
    | some i =>
      let key := element (entry.1.take i)
      let value := element (trim (entry.1.drop (i + 1)))
      match stripStart? "*" (trim valueType) with
      | some pointee =>
        if isBraced (trim (entry.1.drop (i + 1))) then
          .ok (braced (key ++ ", new " ++ cppType pointee ++ value))
        else .ok (braced (key ++ ", " ++ value))
      | none => .ok (braced (key ++ ", " ++ value))
termination_by 3 * list.length + 2
decreasing_by
  all_goals
    have h1 := length_of_mem_splitTop (List.mem_filter.mp entry.2).1
    have h2 := lt_length_of_topIndex? _h
  · simp only [List.length_take]
    omega
  · have := length_trim_le (entry.1.drop (i + 1))
    simp only [List.length_drop] at this
    omega

end

/-! ## 4. Values -/

/-- A value in C++. Text that builds nothing stands as it is. -/
def value (expr : Text) : Except Fault Text := do
  if let some inner := stripStart? "&" (trim expr) then
    if let some c ← construct inner then
      return "new " ++ c.temporary
  return ((← construct (trim expr)).map (·.temporary)).getD (trim expr)

end Linewise
