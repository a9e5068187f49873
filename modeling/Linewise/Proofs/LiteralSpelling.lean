/-
  A composite literal is spelled in C++ as its parts say.

  Lowering a printed literal gives the C++ text by recursion over the tree. A literal whose type has a
  brace of its own at top level, such as `[]interface{}{1}`, is taken for no literal at all.
-/
import Linewise.Value
import Linewise.Proofs.TypeSpelling

namespace Linewise

open Text List ElementShape Composite

variable {a e k s t v seps : Text} {parts : List Text}

/-! ## 1. Written values -/

/-- A solid text that none of the separators cuts at top level. -/
@[mk_iff] structure Whole (seps s : Text) : Prop where
  part : ∀ c ∈ seps, IsPart c s
  solid : Solid s
  ne_nil : s ≠ []

instance (s : Text) : Decidable (Solid s) :=
  decidable_of_iff (s.head?.all (!isBlank ·) = true ∧ s.getLast?.all (!isBlank ·) = true) (by
    cases hh : s.head? <;> cases hl : s.getLast? <;> simp [Solid, hh, hl])

instance (seps s : Text) : Decidable (Whole seps s) := decidable_of_iff _ (whole_iff ..).symm

/-- A value that stands as it is: no address, and no call of `make`. -/
structure AtomExpr where
  text : Text
  whole : Whole ",:\x7b" text
  not_address : text.head? ≠ some '&'
  not_make : ∀ args, WellNested args → text ≠ "make(" ++ (args ++ ")")

/-- A type inside another one. -/
structure InnerType where
  text : Text
  whole : Whole ",:" text

/-- What stands between the brackets of an array type. Dots would have the elements counted. -/
structure SizeText where
  text : Text
  wellNested : WellNested text
  ne_dots : text ≠ "..."

/-- The type of a literal that is no map. -/
inductive BuiltType where
  | name (n : TypeName)
  | slice (u : InnerType)
  | array (size : SizeText) (u : InnerType)

/-- The type as it is written. -/
def BuiltType.text : BuiltType → Text
  | .name n => n.text
  | .slice u => "[]" ++ u.text
  | .array size u => "[" ++ (size.text ++ ("]" ++ u.text))

/-- The type of a map literal. -/
structure MapType where
  key : Text
  wellNested : WellNested key
  value : InnerType

/-- The type as it is written. -/
def MapType.text (m : MapType) : Text := "map[" ++ (m.key ++ ("]" ++ m.value.text))

mutual

/-- A written value. -/
inductive ValueExpr where
  | atom (a : AtomExpr)
  | braces (es : ElementExprs)
  | literal (l : LiteralExpr)
  | address (l : LiteralExpr)

/-- A composite literal. -/
inductive LiteralExpr where
  | typed (t : BuiltType) (es : ElementExprs)
  | mapping (m : MapType) (es : EntryExprs)

/-- The elements of a literal, with or without field names. -/
inductive ElementExprs where
  | nil
  | plain (v : ValueExpr) (es : ElementExprs)
  | keyed (name : Ident) (v : ValueExpr) (es : ElementExprs)

/-- The entries of a map literal. -/
inductive EntryExprs where
  | nil
  | cons (key : AtomExpr) (v : ValueExpr) (es : EntryExprs)

end

mutual

/-- The value as it is written. -/
def ValueExpr.go : ValueExpr → Text
  | .atom a => a.text
  | .braces es => braced (joinWith ", " es.parts)
  | .literal l => l.go
  | .address l => "&" ++ l.go

/-- The literal as it is written. -/
def LiteralExpr.go : LiteralExpr → Text
  | .typed t es => t.text ++ braced (joinWith ", " es.parts)
  | .mapping m es => m.text ++ braced (joinWith ", " es.parts)

/-- The elements as they are written. -/
def ElementExprs.parts : ElementExprs → List Text
  | .nil => []
  | .plain v es => v.go :: es.parts
  | .keyed name v es => (name.text ++ (": " ++ v.go)) :: es.parts

/-- The entries as they are written. -/
def EntryExprs.parts : EntryExprs → List Text
  | .nil => []
  | .cons key v es => (key.text ++ (": " ++ v.go)) :: es.parts

end

/-- What is put in front of a value in braces: an allocation, where the values are pointers. -/
def InnerType.allocation (t : InnerType) : Text :=
  match t.text with
  | '*' :: pointee => "new " ++ cppType pointee
  | _ => []

/-- A value in braces, without a type. -/
def ValueExpr.isBraces : ValueExpr → Bool
  | .braces _ => true
  | _ => false

/-- The type of the literal, as it is written. -/
def LiteralExpr.type : LiteralExpr → Text
  | .typed t _ => t.text
  | .mapping m _ => m.text

/-- The first brace of a literal is not one of its type. -/
def LiteralExpr.isPlain (l : LiteralExpr) : Bool := (topIndex? '{' l.type).isNone

mutual

/-- The value in C++. A literal that is not plain stays as it is written. -/
def ValueExpr.cpp : ValueExpr → Text
  | .atom a => a.text
  | .braces es => braced (joinWith ", " es.cpps)
  | .literal l => if l.isPlain then l.cpp else l.go
  | .address l => if l.isPlain then "new " ++ l.cpp else "&" ++ l.go

/-- A plain literal in C++. -/
def LiteralExpr.cpp : LiteralExpr → Text
  | .typed t es => cppType t.text ++ braced (joinWith ", " es.cpps)
  | .mapping m es => cppType m.text ++ braced (joinWith ", " (es.cpps m.value))

/-- The elements in C++. -/
def ElementExprs.cpps : ElementExprs → List Text
  | .nil => []
  | .plain v es => v.cpp :: es.cpps
  | .keyed name v es => ("." ++ name.text ++ " = " ++ v.cpp) :: es.cpps

/-- The entries of a map with values of this type. -/
def EntryExprs.cpps (t : InnerType) : EntryExprs → List Text
  | .nil => []
  | .cons key v es =>
    braced (key.text ++ ", " ++ ((if v.isBraces then t.allocation else []) ++ v.cpp)) :: es.cpps t

end

/-! ## 2. Printed values -/

theorem Whole.isElement (h : Whole seps s) (hc : ',' ∈ seps) : IsElement s :=
  ⟨h.part ',' hc, h.solid, h.ne_nil⟩

theorem Whole.mono {seps' : Text} (h : Whole seps s) (hsub : ∀ c ∈ seps', c ∈ seps) : Whole seps' s :=
  ⟨fun c hc => h.part c (hsub c hc), h.solid, h.ne_nil⟩

theorem braced_eq (s : Text) : braced s = '{' :: (s ++ ['}']) := rfl

theorem joins_braced (a s : Text) : Joins a (braced s) := joins_of_head (by decide) a _

theorem getLast?_append_braced (a s : Text) : (a ++ braced s).getLast? = some '}' := getLast?_bracketed a s '{' '}'

theorem solid_append_braced (hhead : SolidStart a) (s : Text) : Solid (a ++ braced s) := by
  refine ⟨?_, solidEnd_of_last (getLast?_append_braced a s) rfl⟩
  cases a with
  | nil => exact solidStart_cons rfl _
  | cons d r => exact hhead

theorem whole_append_braced (ha : ∀ c ∈ seps, IsPart c a) (hhead : SolidStart a)
    (hseps : '{' ∉ seps) (hs : WellNested s) :
    Whole seps (a ++ braced s) where
  part c hc := by
    have hne : '{' ≠ c := fun e => hseps (by rwa [e])
    exact (ha c hc).join (.bracketed rfl hne hs) (joins_braced a s)
  solid := solid_append_braced hhead s
  ne_nil := by simp [braced_eq]

theorem whole_indexed {n u : Text} (ha : ∀ c ∈ a, isWordChar c = true)
    (hseps : ∀ c ∈ seps, isWordChar c = false ∧ c ≠ '[') (hn : WellNested n) (hu : Whole seps u) :
    Whole seps (a ++ ('[' :: (n ++ (']' :: u)))) where
  part c hc := by
    have hword : IsPart c a :=
      isPart_bare (fun d hd => not_special_of_isWordChar (ha d hd))
        fun hm => ne_of_isWordChar (ha c hm) (hseps c hc).1 rfl
    rw [append_bracketed]
    refine IsPart.join ?_ (hu.part c hc) (.inl (by rw [getLast?_bracketed]; decide))
    exact hword.join (.bracketed rfl (Ne.symm (hseps c hc).2) hn) (joins_of_head (by decide) a _)
  solid := by
    refine ⟨?_, ?_⟩
    · cases a with
      | nil => exact solidStart_cons rfl _
      | cons d r => exact solidStart_cons (not_isBlank_of_isWordChar (ha d mem_cons_self)) _
    · rw [append_bracketed]
      exact SolidEnd.append hu.solid.2 hu.ne_nil _
  ne_nil := by simp

theorem not_isWordChar_seps : ∀ c ∈ (",:" : Text), isWordChar c = false ∧ c ≠ '[' := by decide

theorem TypeName.whole (n : TypeName) : Whole ",:" n.text := by
  have hne : ∀ c ∈ (",:" : Text), c ≠ '.' := by decide
  refine ⟨fun c hc => isPart_bare n.bare_text ?_, n.isTypeText.solid, n.isTypeText.ne_nil⟩
  exact n.not_mem_text (not_isWordChar_seps c hc).1 (hne c hc)

theorem BuiltType.whole : ∀ t : BuiltType, Whole ",:" t.text
  | .name n => n.whole
  | .slice u => whole_indexed (forall_mem_nil _) not_isWordChar_seps wellNested_nil u.whole
  | .array size u => whole_indexed (forall_mem_nil _) not_isWordChar_seps size.wellNested u.whole

theorem MapType.whole (m : MapType) : Whole ",:" m.text :=
  whole_indexed (a := "map") (by decide) not_isWordChar_seps m.wellNested m.value.whole

theorem Whole.literal (ht : Whole ",:" t) (hs : WellNested s) : Whole ",:" (t ++ braced s) :=
  whole_append_braced ht.part ht.solid.1 (by decide) hs

theorem Whole.address (h : Whole seps s) (hseps : '&' ∉ seps) : Whole seps ("&" ++ s) where
  part c hc := by
    have hne : c ∉ ("&" : Text) := fun hm => by
      obtain rfl : c = '&' := by simpa using hm
      exact hseps hc
    exact (isPart_bare (by decide) hne).join (h.part c hc) (.inl (by decide))
  solid := ⟨solidStart_cons rfl s, SolidEnd.append h.solid.2 h.ne_nil _⟩
  ne_nil := by simp

theorem isElement_keyed (hk : IsElement k) (hv : IsElement v) : IsElement (k ++ (": " ++ v)) :=
  isElement_pair (by decide) (by decide) (by decide) (by decide) hk hv

mutual

theorem ValueExpr.whole : ∀ v : ValueExpr, Whole ",:" v.go
  | .atom a => a.whole.mono (by decide)
  | .braces es => whole_append_braced (a := []) (by decide) nofun (by decide) es.wellNested
  | .literal l => l.whole
  | .address l => l.whole.address (by decide)

theorem LiteralExpr.whole : ∀ l : LiteralExpr, Whole ",:" l.go
  | .typed t es => t.whole.literal es.wellNested
  | .mapping m es => m.whole.literal es.wellNested

theorem ElementExprs.isElement : ∀ (es : ElementExprs), ∀ p ∈ es.parts, IsElement p
  | .nil => nofun
  | .plain v es => forall_mem_cons.mpr ⟨v.whole.isElement (by decide), es.isElement⟩
  | .keyed name v es => forall_mem_cons.mpr
    ⟨isElement_keyed name.isElement (v.whole.isElement (by decide)), es.isElement⟩

theorem ElementExprs.wellNested (es : ElementExprs) : WellNested (joinWith ", " es.parts) :=
  wellNested_list fun p hp => (es.isElement p hp).part

theorem EntryExprs.isElement : ∀ (es : EntryExprs), ∀ p ∈ es.parts, IsElement p
  | .nil => nofun
  | .cons key v es => forall_mem_cons.mpr
    ⟨isElement_keyed (key.whole.isElement (by decide)) (v.whole.isElement (by decide)), es.isElement⟩

theorem EntryExprs.wellNested (es : EntryExprs) : WellNested (joinWith ", " es.parts) :=
  wellNested_list fun p hp => (es.isElement p hp).part

end

/-! ## 3. Where a literal is cut -/

namespace Composite

theorem split?_closed (ht : IsPart '{' t) (hhead : SolidStart t) (hne : t ≠ [])
    (hs : WellNested s) : split? (t ++ braced s) = some ⟨Text.trim t, Text.trim s, true⟩ := by
  have hopen : topIndex? '{' (t ++ braced s) = some t.length := by
    have hzero : topIndex? '{' (braced s) = some 0 := rfl
    rw [topIndex?_join ht (joins_braced t s), hzero, Option.map_some, Nat.zero_add]
  have hmatch : matching? (braced s) = some (s.length + 1) := matching?_bracketed rfl hs
  have hlength : (t ++ braced s).length = t.length + (s.length + 1) + 1 := by
    simp [braced_eq]
    omega
  have hinside : ((t ++ braced s).drop (t.length + 1)).take s.length = s := by
    rw [drop_length_add_append, braced_eq, drop_one, tail_cons, take_left]
  have htype : Text.trim t ≠ [] := by
    obtain ⟨c, r, rfl⟩ := exists_cons_of_ne_nil hne
    exact ne_nil_of_mem (mem_trim_of_solid mem_cons_self (hhead c rfl))
  unfold split?
  rw [trim_eq_self_of_solid (solid_append_braced hhead s)]
  dsimp only
  rw [hopen, Option.bind_some, take_left, drop_left, if_neg (by simpa using htype), hmatch]
  dsimp only
  rw [hlength, Nat.add_sub_cancel, hinside]
  simp

end Composite

theorem eq_call_of_callArguments? {name args : Text} (hname : Bare name) (hR : name.getLast? ≠ some 'R')
    (h : WellNested e) (hc : callArguments? name e = some args) :
    WellNested args ∧ e = name ++ ("(" ++ (args ++ ")")) := by
  obtain ⟨r, hr, hcall⟩ := Option.bind_eq_some_iff.mp hc
  obtain rfl := eq_append_of_stripStart? hr
  split at hcall
  · rename_i hopen
    obtain ⟨s, rfl⟩ := startsWith_iff.mp hopen
    obtain ⟨a, b, rfl, hinside, ha, _⟩ := WellNested.enclosed (o := '(') rfl (h.of_append hname.wellNested hR)
    rw [show enclosed? ("(" ++ (a ++ ')' :: b)) = some (a, b) from hinside, Option.bind_some] at hcall
    dsimp only at hcall
    split at hcall
    · rename_i hb
      obtain rfl : a = args := Option.some.inj hcall
      obtain rfl : b = [] := by simpa using hb
      exact ⟨ha, rfl⟩
    · cases hcall
  · cases hcall

theorem callArguments?_of_getLast? (h : WellNested e) (hlast : e.getLast? = some '}') :
    callArguments? "make" e = none := by
  cases hc : callArguments? "make" e with
  | none => rfl
  | some args =>
    have hcall := congrArg getLast? (eq_call_of_callArguments? (by decide) (by decide) h hc).2
    rw [hlast, ← append_assoc, ← append_assoc, getLast?_append_of_ne_nil _ (by decide)] at hcall
    exact absurd (Option.some.inj hcall) (by decide)

theorem callArguments?_braced (h : WellNested (t ++ braced s)) : callArguments? "make" (t ++ braced s) = none :=
  callArguments?_of_getLast? h (getLast?_append_braced t s)

theorem callArguments?_atom (a : AtomExpr) : callArguments? "make" a.text = none := by
  cases hc : callArguments? "make" a.text with
  | none => rfl
  | some args =>
    have hnested := (a.whole.part ',' (by decide)).wellNested
    obtain ⟨hargs, he⟩ := eq_call_of_callArguments? (by decide) (by decide) hnested hc
    exact absurd he (a.not_make args hargs)

/-! ## 4. One layer -/

/-- The construction that elements under a type are read as. -/
def constructLiteral (type elementList : Text) : Except Fault (Option Construction) :=
  match splitMapType? type with
  | some (_, valueType) =>
    (mapEntries elementList valueType).map fun entries =>
      some ⟨cppType type, braced (joinWith ", " entries), true⟩
  | none =>
    match stripStart? "[...]" type with
    | some elementType =>
      .ok (some ⟨"std::array<" ++ cppType elementType ++ ", "
          ++ decimal ((splitTop ',' elementList).filter (!·.isEmpty)).length ++ ">",
        braced (elements elementList), false⟩)
    | none =>
      if startsWith type "[" || isTypeName type then
        .ok (some ⟨cppType type, braced (elements elementList), false⟩)
      else .ok none

theorem construct_eq_match (e : Text) :
    construct e = match callArguments? "make" (trim e) with
      | some args => .ok (constructMake args)
      | none =>
        match (split? (trim e)).filter (·.closed) with
        | none => .ok none
        | some lit => constructLiteral lit.type lit.elements := by
  rw [construct]
  cases callArguments? "make" (trim e) with
  | some args => rfl
  | none =>
    dsimp only
    split
    · rename_i h
      rw [h]
    · rename_i h
      rw [h]
      rfl

theorem construct_of_callArguments? (htrim : trim e = e) (hcall : callArguments? "make" e = none) :
    construct e = match (split? e).filter (·.closed) with
      | none => .ok none
      | some lit => constructLiteral lit.type lit.elements := by
  rw [construct_eq_match, htrim, hcall]

theorem construct_of_split? (htrim : trim e = e) (hcall : callArguments? "make" e = none)
    (hsplit : split? e = none) : construct e = .ok none := by
  rw [construct_of_callArguments? htrim hcall, hsplit]
  rfl

theorem construct_atom (a : AtomExpr) : construct a.text = .ok none := by
  have hsplit : split? a.text = none := by
    unfold split?
    rw [trim_eq_self_of_solid a.whole.solid]
    dsimp only
    rw [(a.whole.part '{' (by decide)).whole]
    rfl
  exact construct_of_split? (trim_eq_self_of_solid a.whole.solid) (callArguments?_atom a) hsplit

theorem construct_braced (ht : IsPart '{' t) (hhead : SolidStart t) (hne : t ≠ [])
    (hs : WellNested s) : construct (t ++ braced s) = constructLiteral (trim t) (trim s) := by
  have hnested : WellNested (t ++ braced s) := ht.wellNested.join (hs.bracketed rfl) (joins_braced t s)
  rw [construct_of_callArguments? (trim_eq_self_of_solid (solid_append_braced hhead s)) (callArguments?_braced hnested),
    split?_closed ht hhead hne hs]
  rfl

theorem Whole.construct_literal (ht : Whole ",:" t) (hno : topIndex? '{' t = none) (hs : WellNested s) :
    construct (t ++ braced s) = constructLiteral t (trim s) := by
  rw [construct_braced ⟨(ht.part ',' (by decide)).wellNested, hno⟩ ht.solid.1 ht.ne_nil hs,
    trim_eq_self_of_solid ht.solid]

theorem isTypeName_text (n : TypeName) : isTypeName n.text = true := by
  obtain ⟨first, more⟩ := n
  unfold isTypeName TypeName.text
  have hdot : ∀ x ∈ (first :: more).map Ident.text, '.' ∉ x := by
    intro x hx
    obtain ⟨i, -, rfl⟩ := mem_map.mp hx
    exact not_mem_of_isIdentifier i.valid rfl
  rw [show (("." : String) : Text) = ['.'] from rfl, pieces_joinWith (by simp) hdot, all_map, all_eq_true]
  exact fun i _ => i.valid

theorem constructLiteral_built (t : BuiltType) (list : Text) :
    constructLiteral t.text list = .ok (some ⟨cppType t.text, braced (elements list), false⟩) := by
  have hread (hmap : splitMapType? t.text = none) (hdots : stripStart? "[...]" t.text = none)
      (hhead : (startsWith t.text "[" || isTypeName t.text) = true) :
      constructLiteral t.text list = .ok (some ⟨cppType t.text, braced (elements list), false⟩) := by
    unfold constructLiteral
    rw [hmap, hdots]
    exact if_pos hhead
  cases t with
  | name n =>
    refine hread (splitMapType?_of_not_mem (n.not_mem_text rfl (by decide)))
      (stripStart?_eq_none (startsWith_eq_false (c := '[') (by decide) ?_)) ?_
    · exact n.not_mem_text rfl (by decide)
    · rw [show (BuiltType.name n).text = n.text from rfl, isTypeName_text, Bool.or_true]
  | slice u => exact hread (splitMapType?_square _) rfl rfl
  | array size u =>
    refine hread (splitMapType?_square _) ?_ rfl
    cases hs : stripStart? "[...]" (BuiltType.array size u).text with
    | none => rfl
    | some r =>
      -- the first bracket closes once, so its inside is both the size and the dots
      have hsize := enclosed?_eq (o := '[') rfl size.wellNested u.text
      have hdots := enclosed?_eq (o := '[') rfl (show WellNested "..." by decide) r
      rw [show '[' :: (size.text ++ ']' :: u.text) = '[' :: ("..." ++ ']' :: r) from
        eq_append_of_stripStart? hs, hdots] at hsize
      exact absurd (Prod.mk.inj (Option.some.inj hsize)).1.symm size.ne_dots

theorem constructLiteral_mapping (m : MapType) {list : Text} {entries : List Text}
    (h : mapEntries list m.value.text = .ok entries) :
    constructLiteral m.text list = .ok (some ⟨cppType m.text, braced (joinWith ", " entries), true⟩) := by
  unfold constructLiteral
  rw [show splitMapType? m.text = some (m.key, m.value.text) from
    splitMapType?_eq m.wellNested m.value.whole.solid m.value.whole.ne_nil]
  dsimp only
  rw [h]
  rfl

theorem splitTrailingComma_list (h : ∀ p ∈ parts, IsElement p) :
    splitTrailingComma (joinWith ", " parts) = (joinWith ", " parts, []) := by
  have hcomma : stripEnd? "," (joinWith ", " parts) = none := by
    cases hs : stripEnd? "," (joinWith ", " parts) with
    | none => rfl
    | some r =>
      have hlast : (joinWith ", " parts).getLast? = some ',' := by
        rw [eq_append_of_stripEnd? hs]
        exact getLast?_concat
      obtain ⟨p, hp, hlast⟩ := getLast?_joinWith (fun p hp => (h p hp).ne_nil) hlast
      exact absurd hlast ((h p hp).part.getLast?_ne rfl rfl)
  unfold splitTrailingComma
  rw [trim_eq_self_of_solid (solid_list h), hcomma]

theorem elements_eq (list : Text) :
    elements list = joinWith ", " ((splitTop ',' (splitTrailingComma list).1).map element)
      ++ (splitTrailingComma list).2 := by
  rw [elements, map_attach_eq_pmap, pmap_eq_map]

theorem elements_list (h : ∀ p ∈ parts, IsElement p) :
    elements (joinWith ", " parts) = joinWith ", " (parts.map element) := by
  rw [elements_eq, splitTrailingComma_list h, splitTop_list h, append_nil]

/-- A trimmed element by its outermost form. -/
def ElementShape.lower (e : Text) : ElementShape → Text
  | .keyed key value => "." ++ key ++ " = " ++ element value
  | .braces inner => braced (elements inner)
  | .address inner =>
    match construct inner with
    | .ok (some c) => "new " ++ c.temporary
    | _ => e
  | .plain =>
    match construct e with
    | .ok (some c) => c.temporary
    | _ => e

theorem element_eq (e : Text) : element e = (of (trim e)).lower (trim e) := by
  rw [element]
  split <;> rename_i h <;> rw [h] <;> rfl

theorem splitKey?_eq_none (h : IsPart ':' e) : splitKey? e = none := by
  unfold splitKey?
  rw [h.whole]
  rfl

theorem isBraced_braced (s : Text) : isBraced (braced s) = true := by
  show (startsWith ("\x7b" ++ (s ++ "\x7d")) "\x7b" && endsWith (("\x7b" ++ s) ++ "\x7d") "\x7d") = true
  rw [startsWith_append, endsWith_append]
  rfl

theorem isBraced_of_head (h : e.head? ≠ some '{') : isBraced e = false := by
  unfold isBraced
  rw [show startsWith e "\x7b" = false from startsWith_of_head h, Bool.false_and]

theorem ElementShape.of_plain (hkey : splitKey? e = none) (hbrace : e.head? ≠ some '{')
    (haddress : e.head? ≠ some '&') : of e = .plain := by
  have hstrip : stripStart? "&" e = none := stripStart?_eq_none (startsWith_of_head haddress)
  rw [of, hkey]
  dsimp only
  rw [isBraced_of_head hbrace, hstrip]
  rfl

theorem ElementShape.of_address (h : IsPart ':' ("&" ++ e)) : of ("&" ++ e) = .address e := by
  rw [of, splitKey?_eq_none h]
  rw [isBraced_of_head (show ("&" ++ e).head? ≠ some '{' from nofun),
    show stripStart? "&" ("&" ++ e) = some e from rfl]
  rfl

theorem ElementShape.of_braces (h : IsPart ':' (braced s)) : of (braced s) = .braces s := by
  have hinner : ((braced s).drop 1).take ((braced s).length - 2) = s := by
    simp [braced_eq]
  rw [of, splitKey?_eq_none h]
  rw [if_pos (isBraced_braced s), hinner]

theorem topIndex?_pair (hk : IsPart ':' k) (v : Text) : topIndex? ':' (k ++ (": " ++ v)) = some k.length := by
  have hjoins : Joins k (": " ++ v) := joins_of_head (by decide) k (' ' :: v)
  have hzero : topIndex? ':' (": " ++ v) = some 0 := rfl
  rw [topIndex?_join hk hjoins, hzero, Option.map_some, Nat.zero_add]

theorem drop_pair (k v : Text) : (k ++ (": " ++ v)).drop (k.length + 1) = " " ++ v := by
  rw [drop_length_add_append]
  rfl

theorem head?_ne_of_isPart {c : Char} (hc : Lexer.isQuote c = false) (h : IsPart c e) : e.head? ≠ some c := by
  intro hhead
  obtain ⟨r, rfl⟩ := head?_eq_some_iff.mp hhead
  have hwhole := h.whole
  unfold topIndex? at hwhole
  rw [topIndexFrom?, Lexer.isCode_of_mode rfl hc] at hwhole
  simp at hwhole

theorem element_keyed (name : Ident) (hv : Whole ",:" v) :
    element (name.text ++ (": " ++ v)) = "." ++ name.text ++ " = " ++ element v := by
  have helement := isElement_keyed name.isElement (hv.isElement (by decide))
  have hname : IsPart ':' name.text :=
    isPart_bare (bare_of_isIdentifier name.valid) (not_mem_of_isIdentifier name.valid rfl)
  have hkey : splitKey? (name.text ++ (": " ++ v)) = some (name.text, " " ++ v) := by
    unfold splitKey?
    rw [topIndex?_pair hname, Option.bind_some]
    rw [take_left, name.isElement.trim_eq, if_pos name.valid, drop_pair]
  -- the space behind the colon goes when the value is trimmed
  have hspace : element (" " ++ v) = element v := by
    rw [element_eq, element_eq v, trim_eq_self_of_solid hv.solid,
      show trim (" " ++ v) = v from trim_space_of_solid hv.solid]
  rw [element_eq, helement.trim_eq, of, hkey]
  show "." ++ name.text ++ " = " ++ element (" " ++ v) = _
  rw [hspace]

theorem element_braces (h : ∀ p ∈ parts, IsElement p) :
    element (braced (joinWith ", " parts)) = braced (joinWith ", " (parts.map element)) := by
  have hwhole : Whole ",:" (braced (joinWith ", " parts)) :=
    whole_append_braced (a := []) (by decide) nofun (by decide) (wellNested_list fun p hp => (h p hp).part)
  rw [element_eq, trim_eq_self_of_solid hwhole.solid, of_braces (hwhole.part ':' (by decide)),
    ElementShape.lower, elements_list h]

theorem element_plain (h : Whole ",:" e) (hbrace : e.head? ≠ some '{') (haddress : e.head? ≠ some '&') :
    element e = ElementShape.plain.lower e := by
  have hkey := splitKey?_eq_none (h.part ':' (by decide))
  rw [element_eq, trim_eq_self_of_solid h.solid, of_plain hkey hbrace haddress]

theorem element_atom (a : AtomExpr) : element a.text = a.text := by
  have hbrace := head?_ne_of_isPart rfl (a.whole.part '{' (by decide))
  rw [element_plain (a.whole.mono (by decide)) hbrace a.not_address, ElementShape.lower, construct_atom]

theorem element_address (h : Whole ",:" e) : element ("&" ++ e) = (ElementShape.address e).lower ("&" ++ e) := by
  have hwhole := h.address (by decide)
  rw [element_eq, trim_eq_self_of_solid hwhole.solid, of_address (hwhole.part ':' (by decide))]

/-- Key and value of a map literal, in braces. -/
def mapPair (valueType key v : Text) : Except Fault Text :=
  match stripStart? "*" (trim valueType) with
  | some pointee =>
    if isBraced v then .ok (braced (element key ++ ", new " ++ cppType pointee ++ element v))
    else .ok (braced (element key ++ ", " ++ element v))
  | none => .ok (braced (element key ++ ", " ++ element v))

/-- One entry of a map literal. -/
def mapEntry (valueType entry : Text) : Except Fault Text :=
  match topIndex? ':' entry with
  | none => .error (.missingSeparator entry)
  | some i => mapPair valueType (entry.take i) (trim (entry.drop (i + 1)))

theorem mapEntries_eq (list valueType : Text) :
    mapEntries list valueType = ((splitTop ',' list).filter (!·.isEmpty)).mapM (mapEntry valueType) := by
  have hattach (parts : List Text) :
      parts.attach.mapM (fun e => mapEntry valueType e.1) = parts.mapM (mapEntry valueType) := by
    show parts.attach.mapM (mapEntry valueType ∘ Subtype.val) = _
    rw [← mapM_map, attach_map_subtype_val]
  rw [mapEntries, ← hattach]
  refine congrArg (mapM · _) (funext fun e => ?_)
  unfold mapEntry
  split
  · rename_i h
    rw [h]
  · rename_i h
    rw [h]
    rfl

theorem InnerType.allocation_eq (t : InnerType) :
    t.allocation = match stripStart? "*" t.text with
      | some pointee => "new " ++ cppType pointee
      | none => [] := by
  unfold InnerType.allocation
  split
  · rename_i pointee h
    rw [h]
    rfl
  · rename_i h
    cases hs : stripStart? "*" t.text with
    | none => rfl
    | some pointee => exact absurd (eq_append_of_stripStart? hs) (h pointee)

theorem mapEntry_pair (key : AtomExpr) (t : InnerType) (hv : Whole ",:" v) :
    mapEntry t.text (key.text ++ (": " ++ v)) =
      .ok (braced (key.text ++ ", " ++ ((if isBraced v then t.allocation else []) ++ element v))) := by
  have hvalue : trim (" " ++ v) = v := trim_space_of_solid hv.solid
  unfold mapEntry
  rw [topIndex?_pair (key.whole.part ':' (by decide))]
  dsimp only
  rw [take_left, drop_pair, hvalue, mapPair, trim_eq_self_of_solid t.whole.solid, t.allocation_eq, element_atom]
  cases stripStart? "*" t.text with
  | none => cases isBraced v <;> rfl
  | some pointee =>
    cases isBraced v with
    | false => rfl
    | true => simp

theorem mapEntries_list (h : ∀ p ∈ parts, IsElement p) (valueType : Text) :
    mapEntries (joinWith ", " parts) valueType = parts.mapM (mapEntry valueType) := by
  rw [mapEntries_eq, splitTop_list h, filter_eq_self.mpr fun p hp => by simpa using (h p hp).ne_nil]

/-! ## 5. Every layer -/

theorem LiteralExpr.head?_go (l : LiteralExpr) : l.go.head? ≠ some '{' ∧ l.go.head? ≠ some '&' := by
  cases l with
  | typed t es =>
    cases t with
    | name n =>
      obtain ⟨c, r, htext, hc⟩ := n.head_text
      show (n.text ++ _).head? ≠ _ ∧ (n.text ++ _).head? ≠ _
      rw [htext]
      refine ⟨fun h => ?_, fun h => ?_⟩
      · exact ne_of_isWordChar hc rfl (Option.some.inj h)
      · exact ne_of_isWordChar hc rfl (Option.some.inj h)
    | slice u => exact ⟨nofun, nofun⟩
    | array size u => exact ⟨nofun, nofun⟩
  | mapping m es => exact ⟨nofun, nofun⟩

theorem ValueExpr.isBraced_go (v : ValueExpr) : isBraced v.go = v.isBraces := by
  cases v with
  | atom a => exact isBraced_of_head (head?_ne_of_isPart rfl (a.whole.part '{' (by decide)))
  | braces es => exact isBraced_braced _
  | literal l => exact isBraced_of_head l.head?_go.1
  | address l => exact isBraced_of_head (show ("&" ++ l.go).head? ≠ some '{' from nofun)

theorem construct_of_topIndex? (ht : WellNested t) (hhead : SolidStart t)
    (hbrace : topIndex? '{' t ≠ none) (hs : WellNested s) : construct (t ++ braced s) = .ok none := by
  have htrim : trim (t ++ braced s) = t ++ braced s :=
    trim_eq_self_of_solid (solid_append_braced hhead s)
  obtain ⟨i, hi⟩ := Option.ne_none_iff_exists'.mp hbrace
  have hnested : WellNested (t ++ braced s) := ht.join (hs.bracketed rfl) (joins_braced t s)
  exact construct_of_split? htrim (callArguments?_braced hnested)
    (split?_append_eq_none ht (by simp [braced_eq]) htrim hi)

theorem LiteralExpr.construct_eq_none (l : LiteralExpr) (h : l.isPlain = false) :
    construct l.go = .ok none ∧ construct ("&" ++ l.go) = .ok none := by
  have hbrace : topIndex? '{' l.type ≠ none := fun e => by
    rw [LiteralExpr.isPlain, e] at h
    cases h
  have hboth {t s : Text} (ht : Whole ",:" t) (hs : WellNested s) (hb : topIndex? '{' t ≠ none) :
      construct (t ++ braced s) = .ok none ∧ construct ("&" ++ (t ++ braced s)) = .ok none := by
    have haddress := ht.address (by decide)
    have hshift : topIndex? '{' ("&" ++ t) ≠ none := by
      rw [topIndex?_join (isPart_bare (by decide) (by decide)) (.inl (by decide)), Ne, Option.map_eq_none_iff]
      exact hb
    rw [← append_assoc]
    exact ⟨construct_of_topIndex? (ht.part ',' (by decide)).wellNested ht.solid.1 hb hs,
      construct_of_topIndex? (haddress.part ',' (by decide)).wellNested haddress.solid.1 hshift hs⟩
  cases l with
  | typed t es => exact hboth t.whole es.wellNested hbrace
  | mapping m es => exact hboth m.whole es.wellNested hbrace

mutual

theorem ValueExpr.element_eq : ∀ v : ValueExpr, element v.go = v.cpp
  | .atom a => element_atom a
  | .braces es => by
    show element (braced (joinWith ", " es.parts)) = braced (joinWith ", " es.cpps)
    rw [element_braces es.isElement, es.element_eq]
  | .literal l => by
    show element l.go = if l.isPlain then l.cpp else l.go
    rw [element_plain l.whole l.head?_go.1 l.head?_go.2, ElementShape.lower]
    cases hplain : l.isPlain with
    | true =>
      obtain ⟨c, hc, htext⟩ := l.construct_eq hplain
      rw [hc, if_pos rfl]
      exact htext
    | false =>
      rw [(l.construct_eq_none hplain).1, if_neg Bool.false_ne_true]
  | .address l => by
    show element ("&" ++ l.go) = if l.isPlain then "new " ++ l.cpp else "&" ++ l.go
    rw [element_address l.whole, ElementShape.lower]
    cases hplain : l.isPlain with
    | true =>
      obtain ⟨c, hc, htext⟩ := l.construct_eq hplain
      rw [hc, if_pos rfl, ← htext]
    | false =>
      rw [(l.construct_eq_none hplain).1, if_neg Bool.false_ne_true]

theorem LiteralExpr.construct_eq : ∀ l : LiteralExpr, l.isPlain = true →
    ∃ c, construct l.go = .ok (some c) ∧ c.temporary = l.cpp
  | .typed t es => fun h => by
    refine ⟨⟨cppType t.text, braced (joinWith ", " es.cpps), false⟩, ?_, rfl⟩
    show construct (t.text ++ braced (joinWith ", " es.parts)) = _
    rw [t.whole.construct_literal (Option.isNone_iff_eq_none.mp h) es.wellNested,
      trim_eq_self_of_solid (solid_list es.isElement), constructLiteral_built, elements_list es.isElement,
      es.element_eq]
  | .mapping m es => fun h => by
    refine ⟨⟨cppType m.text, braced (joinWith ", " (es.cpps m.value)), true⟩, ?_, rfl⟩
    show construct (m.text ++ braced (joinWith ", " es.parts)) = _
    have hentries := (mapEntries_list es.isElement m.value.text).trans (es.mapEntry_eq m.value)
    rw [m.whole.construct_literal (Option.isNone_iff_eq_none.mp h) es.wellNested,
      trim_eq_self_of_solid (solid_list es.isElement), constructLiteral_mapping m hentries]

theorem ElementExprs.element_eq : ∀ es : ElementExprs, es.parts.map element = es.cpps
  | .nil => rfl
  | .plain v es => by
    show element v.go :: es.parts.map element = v.cpp :: es.cpps
    rw [v.element_eq, es.element_eq]
  | .keyed name v es => by
    show element (name.text ++ (": " ++ v.go)) :: es.parts.map element =
      ("." ++ name.text ++ " = " ++ v.cpp) :: es.cpps
    rw [element_keyed name v.whole, v.element_eq, es.element_eq]

theorem EntryExprs.mapEntry_eq (t : InnerType) :
    ∀ es : EntryExprs, es.parts.mapM (mapEntry t.text) = .ok (es.cpps t)
  | .nil => rfl
  | .cons key v es => by
    show ((key.text ++ (": " ++ v.go)) :: es.parts).mapM (mapEntry t.text) = _
    rw [mapM_cons, mapEntry_pair key t v.whole, es.mapEntry_eq t, v.isBraced_go, v.element_eq]
    rfl

end

theorem value_eq {built : Option Construction} (htrim : trim e = e) (hhead : e.head? ≠ some '&')
    (hc : construct e = .ok built) : value e = .ok ((built.map (·.temporary)).getD e) := by
  have hstrip : stripStart? "&" e = none := stripStart?_eq_none (startsWith_of_head hhead)
  unfold value
  rw [htrim, hstrip]
  rw [hc]
  rfl

theorem value_address {c : Construction} (h : Whole ",:" e) (hc : construct e = .ok (some c)) :
    value ("&" ++ e) = .ok ("new " ++ c.temporary) := by
  unfold value
  rw [trim_eq_self_of_solid (h.address (by decide)).solid, show stripStart? "&" ("&" ++ e) = some e from rfl]
  dsimp only
  rw [hc]
  rfl

theorem value_address_eq_self (h : Whole ",:" e) (hc : construct e = .ok none)
    (hc' : construct ("&" ++ e) = .ok none) : value ("&" ++ e) = .ok ("&" ++ e) := by
  unfold value
  rw [trim_eq_self_of_solid (h.address (by decide)).solid, show stripStart? "&" ("&" ++ e) = some e from rfl]
  dsimp only
  rw [hc, hc']
  rfl

/-- **The C++ text of a printed literal**, of its address too. Whatever is nested in what, a literal is
    lowered by recursion over its tree; one that is not plain stays as it is written. -/
theorem value_literal (l : LiteralExpr) :
    value l.go = .ok (ValueExpr.literal l).cpp ∧ value ("&" ++ l.go) = .ok (ValueExpr.address l).cpp := by
  have htrim := trim_eq_self_of_solid l.whole.solid
  show value l.go = .ok (if l.isPlain then l.cpp else l.go) ∧
    value ("&" ++ l.go) = .ok (if l.isPlain then "new " ++ l.cpp else "&" ++ l.go)
  cases hplain : l.isPlain with
  | true =>
    obtain ⟨c, hc, htext⟩ := l.construct_eq hplain
    rw [value_eq htrim l.head?_go.2 hc, value_address l.whole hc, htext]
    exact ⟨congrArg Except.ok htext, rfl⟩
  | false =>
    obtain ⟨hc, hc'⟩ := l.construct_eq_none hplain
    rw [value_eq htrim l.head?_go.2 hc, value_address_eq_self l.whole hc hc']
    exact ⟨rfl, rfl⟩

/-- The number one. -/
def atomOne : AtomExpr := ⟨"1", by decide, by decide, nofun⟩

/-- A text literal with every separator in it. -/
def atomKey : AtomExpr := ⟨"\"a, \x7b: b\"", by decide, by decide, nofun⟩

/-- A type of another package. -/
def pointName : TypeName := ⟨⟨"geo", rfl⟩, [⟨"Point", rfl⟩]⟩

/-- Points by name: one in braces, one by its address, with a slice inside. -/
def pointsLiteral : LiteralExpr :=
  .mapping ⟨"string", by decide, ⟨"*geo.Point", by decide⟩⟩
    (.cons atomKey (.braces (.keyed ⟨"X", rfl⟩ (.atom atomOne) .nil))
      (.cons atomOne (.address (.typed (.name pointName)
          (.plain (.literal (.typed (.slice ⟨"int", by decide⟩) (.plain (.atom atomOne) .nil))) .nil)))
        .nil))

example : pointsLiteral.go =
    "map[string]*geo.Point\x7b\"a, \x7b: b\": \x7bX: 1\x7d, 1: &geo.Point\x7b[]int\x7b1\x7d\x7d\x7d" := by
  decide +kernel

example : (ValueExpr.literal pointsLiteral).cpp =
    "std::unordered_map<std::string, geo.Point*>" ++ braced
      ("\x7b\"a, \x7b: b\", new geo.Point\x7b.X = 1\x7d\x7d, " ++
        "\x7b1, new geo.Point\x7bstd::vector<int>\x7b1\x7d\x7d\x7d") := by
  decide +kernel

/-- The type of these elements can be spelled, and the literal is left as it is. -/
theorem sliceOfInterfaces_unchanged :
    value "[]interface\x7b\x7d\x7b1, 2\x7d" = .ok "[]interface\x7b\x7d\x7b1, 2\x7d" ∧
      cppType "[]interface\x7b\x7d" ++ braced "1, 2" = "std::vector<interface\x7b\x7d>\x7b1, 2\x7d" := by
  have hbuilt : construct ("[]interface\x7b\x7d" ++ braced "1, 2") = .ok none :=
    construct_of_topIndex? (by decide) (solidStart_cons rfl _) (by decide) (by decide)
  exact ⟨value_eq rfl (by decide) hbuilt, by decide +kernel⟩

end Linewise
