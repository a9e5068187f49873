/-
  Go types as they are written, and lists of names with types.

  Reading never fails: text that has no other shape is a name. Go writes a name before its type,
  and names that follow each other may share one: `a, b int, s string`. In a list where no part
  has both, every part is a type.
-/
import Linewise.GoType.Basic
import Linewise.Nesting
import Linewise.Text.Word

namespace Linewise

open Text

/-! ## 1. Names with types -/

/-- A parameter, result or field: a name, empty where only the type is given, and a type. -/
structure Parameter where
  name : Text
  type : Text
  deriving DecidableEq, Repr

namespace Parameter

/-- Parts read from left to right; `pending` are those whose type has not come yet. -/
def listFrom (pending : List Text) : List Text → List Parameter
  | [] => pending.map fun type => ⟨[], type⟩
  | part :: parts =>
    match splitOnce? isBlank part with
    | some (name, type) =>
      if isIdentifier name then
        pending.map (fun name => ⟨name, trim type⟩) ++ ⟨name, trim type⟩ :: listFrom [] parts
      else listFrom (pending ++ [part]) parts
    | none => listFrom (pending ++ [part]) parts

/-- The list between a pair of parentheses. -/
def list (s : Text) : List Parameter := listFrom [] (splitTop ',' s)

theorem length_of_mem_listFrom {n : Nat} {parts : List Text} :
    ∀ {pending : List Text}, (∀ q ∈ pending, q.length ≤ n) → (∀ q ∈ parts, q.length ≤ n) →
      ∀ p ∈ listFrom pending parts, p.type.length ≤ n := by
  induction parts with
  | nil =>
    intro pending hp _ p h
    simp only [listFrom, List.mem_map] at h
    obtain ⟨t, ht, rfl⟩ := h
    exact hp t ht
  | cons part parts ih =>
    intro pending hp hq p h
    have hrest : ∀ q ∈ parts, q.length ≤ n := fun q hm => hq q (by simp [hm])
    have hpend : ∀ q ∈ pending ++ [part], q.length ≤ n := by
      intro q hm
      rcases List.mem_append.mp hm with hm | hm
      · exact hp q hm
      · exact hq q (by simp_all)
    simp only [listFrom] at h
    split at h
    · rename_i name type hs
      split at h
      · have ht : (trim type).length ≤ n :=
          Nat.le_trans (length_trim_le type)
            (Nat.le_trans (Nat.le_of_lt (length_of_splitOnce? hs)) (hq part (by simp)))
        simp only [List.mem_append, List.mem_map, List.mem_cons] at h
        rcases h with ⟨_, _, rfl⟩ | rfl | h
        · exact ht
        · exact ht
        · exact ih (by simp) hrest p h
      · exact ih hpend hrest p h
    · exact ih hpend hrest p h

theorem length_of_mem_list {s : Text} {p : Parameter} (h : p ∈ list s) : p.type.length ≤ s.length :=
  length_of_mem_listFrom (by simp) (fun _ hq => length_of_mem_splitTop hq) p h

end Parameter

/-- The result types in the text after a parameter list, an opening brace at its end left aside:
    none, one type as it stands, or the types of a parenthesised list. -/
def resultTypes (s : Text) : List Text :=
  let s := trim (stripEnd "\x7b" (trim s))
  if s.isEmpty then []
  else
    match (if startsWith s "(" then enclosed? s else none) with
    | some (inside, _) => (Parameter.list inside).map (·.type)
    | none => [s]

theorem length_of_mem_resultTypes {s t : Text} (h : t ∈ resultTypes s) : t.length ≤ s.length := by
  have hs : (trim (stripEnd "\x7b" (trim s))).length ≤ s.length :=
    Nat.le_trans (length_trim_le _) (Nat.le_trans (length_stripEnd_le _ _) (length_trim_le s))
  simp only [resultTypes] at h
  split at h
  · cases h
  · split at h
    · rename_i inside _ he
      split at he
      · obtain ⟨p, hp, rfl⟩ := List.mem_map.mp h
        have h1 := Parameter.length_of_mem_list hp
        have h2 := (length_of_enclosed? he).1
        omega
      · cases he
    · simp only [List.mem_singleton] at h
      subst h
      exact hs

/-! ## 2. Types -/

/-- The text is a map type, to judge by its head. -/
def isMapType (s : Text) : Bool := startsWith (trimStart s) "map["

/-- The text is a slice type, to judge by its head. -/
def isSliceType (s : Text) : Bool := startsWith (trimStart s) "[]"

/-- Key and value of a map type; the value may not be missing. -/
def splitMapType? (s : Text) : Option (Text × Text) :=
  (stripStart? "map" (trim s)).bind fun r =>
    if startsWith r "[" then
      (enclosed? r).bind fun (key, rest) =>
        if isAllBlank rest then none else some (key, trim rest)
    else none

theorem length_of_splitMapType? {s k v : Text} (h : splitMapType? s = some (k, v)) :
    k.length < s.length ∧ v.length < s.length := by
  unfold splitMapType? at h
  obtain ⟨r, hr, h⟩ := Option.bind_eq_some_iff.mp h
  have h1 := length_of_stripStart? hr
  have h2 := length_trim_le s
  split at h
  · obtain ⟨⟨key, rest⟩, he, h⟩ := Option.bind_eq_some_iff.mp h
    have h3 := length_of_enclosed? he
    have h4 := length_trim_le rest
    dsimp only at h
    split at h
    · cases h
    · simp only [Option.some.injEq, Prod.mk.injEq] at h
      obtain ⟨rfl, rfl⟩ := h
      omega
  · cases h

/-- Element text of a slice or of a variadic parameter. -/
def splitSliceType? (s : Text) : Option Text := (stripStart? "[]" s).or (stripStart? "..." s)

theorem length_of_splitSliceType? {s e : Text} (h : splitSliceType? s = some e) :
    e.length < s.length := by
  unfold splitSliceType? at h
  rcases Option.or_eq_some_iff.mp h with h | ⟨_, h⟩ <;>
  · have := length_of_stripStart? h
    simp at this
    omega

/-- Parameters and results of a function type: the text between its parentheses and after them. -/
def splitFuncType? (s : Text) : Option (Text × Text) :=
  (stripStart? "func" s).bind fun r => if startsWith r "(" then enclosed? r else none

theorem length_of_splitFuncType? {s a b : Text} (h : splitFuncType? s = some (a, b)) :
    a.length < s.length ∧ b.length < s.length := by
  unfold splitFuncType? at h
  obtain ⟨r, hr, h⟩ := Option.bind_eq_some_iff.mp h
  have h1 := length_of_stripStart? hr
  split at h
  · have h2 := length_of_enclosed? h
    omega
  · cases h

/-- Size and element text of an array type. -/
def splitArrayType? (s : Text) : Option (Text × Text) :=
  if startsWith s "[" then (enclosed? s).map fun (size, rest) => (trim size, rest) else none

theorem length_of_splitArrayType? {s n e : Text} (h : splitArrayType? s = some (n, e)) :
    e.length < s.length := by
  unfold splitArrayType? at h
  split at h
  · obtain ⟨⟨size, rest⟩, he, h⟩ := Option.map_eq_some_iff.mp h
    have h1 := length_of_enclosed? he
    simp only [Prod.mk.injEq] at h
    obtain ⟨_, rfl⟩ := h
    exact h1.2
  · cases h

namespace GoType

/-- The outermost constructor of a written type, its parts still text. -/
inductive Shape where
  | named (name : Text)
  | pointer (pointee : Text)
  | slice (element : Text)
  | array (size element : Text)
  | map (key value : Text)
  | func (params results : List Text)
  deriving DecidableEq, Repr

/-- The parts that are types themselves. -/
def Shape.parts : Shape → List Text
  | named _ => []
  | pointer t => [t]
  | slice t => [t]
  | array _ t => [t]
  | map k v => [k, v]
  | func params results => params ++ results

/-- Reading one constructor off a text. The first head that fits decides. -/
def shape (s : Text) : Shape :=
  let s := trim s
  if let some pointee := stripStart? "*" s then .pointer pointee
  else if let some element := splitSliceType? s then .slice element
  else if let some (key, value) := splitMapType? s then .map key value
  else if let some (params, results) := splitFuncType? s then
    .func ((Parameter.list params).map (·.type)) (resultTypes results)
  else if let some (size, element) := splitArrayType? s then .array size element
  else .named s

theorem length_of_mem_parts {s t : Text} (h : t ∈ (shape s).parts) : t.length < s.length := by
  have ht := length_trim_le s
  simp only [shape] at h
  split at h
  · rename_i hp
    have := length_of_stripStart? hp
    simp only [Shape.parts, List.mem_singleton] at h
    simp at this
    subst h
    omega
  · split at h
    · rename_i hs
      have := length_of_splitSliceType? hs
      simp only [Shape.parts, List.mem_singleton] at h
      subst h
      omega
    · split at h
      · rename_i hm
        have := length_of_splitMapType? hm
        simp only [Shape.parts, List.mem_cons, List.not_mem_nil, or_false] at h
        rcases h with rfl | rfl <;> omega
      · split at h
        · rename_i hf
          have := length_of_splitFuncType? hf
          simp only [Shape.parts, List.mem_append, List.mem_map] at h
          rcases h with ⟨p, hp, rfl⟩ | hr
          · have := Parameter.length_of_mem_list hp
            omega
          · have := length_of_mem_resultTypes hr
            omega
        · split at h
          · rename_i ha
            have := length_of_splitArrayType? ha
            simp only [Shape.parts, List.mem_singleton] at h
            subst h
            omega
          · simp [Shape.parts] at h

/-- The type a text spells. -/
def parse (s : Text) : GoType :=
  match _h : shape s with
  | .named name => named name
  | .pointer t => pointer (parse t)
  | .slice t => slice (parse t)
  | .array size t => array size (parse t)
  | .map k v => map (parse k) (parse v)
  | .func params results =>
    func (params.attach.map fun t => parse t.1) (results.attach.map fun t => parse t.1)
termination_by s.length
decreasing_by
  · exact length_of_mem_parts (by simp [_h, Shape.parts])
  · exact length_of_mem_parts (by simp [_h, Shape.parts])
  · exact length_of_mem_parts (by simp [_h, Shape.parts])
  · exact length_of_mem_parts (by simp [_h, Shape.parts])
  · exact length_of_mem_parts (by simp [_h, Shape.parts])
  · exact length_of_mem_parts (by simp [_h, Shape.parts, t.2])
  · exact length_of_mem_parts (by simp [_h, Shape.parts, t.2])

end GoType

/-! ## 3. Spellings of written types -/

/-- The C++ spelling of a written Go type. -/
def cppType (s : Text) : Text := (GoType.parse s).cpp

/-- The C++ type of written results. -/
def cppResult (results : List Text) : Text := GoType.resultSpelling (results.map cppType)

/-- A parameter in C++: type, then name. -/
def Parameter.cpp (p : Parameter) : Text :=
  if p.name.isEmpty then cppType p.type else cppType p.type ++ " " ++ p.name

/-- A parameter list in C++. -/
def Parameter.cppList (ps : List Parameter) : Text := joinWith ", " (ps.map Parameter.cpp)

end Linewise
