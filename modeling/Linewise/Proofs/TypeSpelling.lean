/-
  A written type is spelled in C++ as its parts say.

  Reading a printed type gives the C++ spelling by recursion over the tree.
-/
import Linewise.GoType.Parser
import Linewise.Proofs.Parts

namespace Linewise

open Text List Parameter

variable {a k n s t v head rest inside : Text} {c : Char}

/-! ## 1. Written types -/

/-- A name as it stands in a program. -/
structure Ident where
  text : Text
  valid : isIdentifier text = true

/-- The name of a type: identifiers with dots between them. -/
structure TypeName where
  first : Ident
  more : List Ident

/-- The name as it is written. -/
def TypeName.text (n : TypeName) : Text := joinWith "." ((n.first :: n.more).map Ident.text)

/-- The size of an array, as its digits. -/
structure ArraySize where
  digits : Text
  ne_nil : digits ≠ []
  valid : ∀ c ∈ digits, c ∈ ("0123456789" : Text)

mutual

/-- A written type. -/
inductive TypeExpr where
  | name (n : TypeName)
  | pointer (t : TypeExpr)
  | slice (t : TypeExpr)
  | array (size : ArraySize) (t : TypeExpr)
  | map (k v : TypeExpr)
  | func (params : ParamExprs) (results : ResultExpr)

/-- What stands between the parentheses: types alone, or names with types. -/
inductive ParamExprs where
  | unnamed (ts : TypeExprs)
  | named (gs : NamedExprs)

/-- Types in order. -/
inductive TypeExprs where
  | nil
  | cons (t : TypeExpr) (ts : TypeExprs)

/-- Groups of names with one type each: `shared`, and the name before the type. -/
inductive NamedExprs where
  | nil
  | cons (shared : List Ident) (last : Ident) (t : TypeExpr) (gs : NamedExprs)

/-- What stands behind the parameters. -/
inductive ResultExpr where
  | none
  | single (t : TypeExpr)
  | list (ps : ParamExprs)

end

mutual

/-- The type as it is written. -/
def TypeExpr.go : TypeExpr → Text
  | .name n => n.text
  | .pointer t => "*" ++ t.go
  | .slice t => "[]" ++ t.go
  | .array size t => "[" ++ (size.digits ++ ("]" ++ t.go))
  | .map k v => "map[" ++ (k.go ++ ("]" ++ v.go))
  | .func ps r => "func(" ++ (joinWith ", " ps.parts ++ (")" ++ r.go))

/-- The elements of a list of parameters. -/
def ParamExprs.parts : ParamExprs → List Text
  | .unnamed ts => ts.parts
  | .named gs => gs.parts

/-- The types as they are written. -/
def TypeExprs.parts : TypeExprs → List Text
  | .nil => []
  | .cons t ts => t.go :: ts.parts

/-- The groups as they are written, part by part. -/
def NamedExprs.parts : NamedExprs → List Text
  | .nil => []
  | .cons shared last t gs => shared.map Ident.text ++ (last.text ++ (" " ++ t.go)) :: gs.parts

/-- The results as they are written, with a space in front. -/
def ResultExpr.go : ResultExpr → Text
  | .none => []
  | .single t => " " ++ t.go
  | .list ps => " (" ++ (joinWith ", " ps.parts ++ ")")

end

mutual

/-- The C++ spelling of the type. -/
def TypeExpr.cpp : TypeExpr → Text
  | .name n =>
    match GoType.primitives.lookup n.text with
    | some spelling => spelling
    | none => n.text
  | .pointer t => t.cpp ++ "*"
  | .slice t => "std::vector<" ++ t.cpp ++ ">"
  | .array size t => "std::array<" ++ t.cpp ++ ", " ++ size.digits ++ ">"
  | .map k v => "std::unordered_map<" ++ k.cpp ++ ", " ++ v.cpp ++ ">"
  | .func ps r => "std::function<" ++ r.cpp ++ "(" ++ joinWith ", " ps.cpps ++ ")>"

/-- The C++ types of parameters, one for each of them. -/
def ParamExprs.cpps : ParamExprs → List Text
  | .unnamed ts => ts.cpps
  | .named gs => gs.cpps

/-- The types in C++. -/
def TypeExprs.cpps : TypeExprs → List Text
  | .nil => []
  | .cons t ts => t.cpp :: ts.cpps

/-- The types in C++, one for each name. -/
def NamedExprs.cpps : NamedExprs → List Text
  | .nil => []
  | .cons shared _ t gs => replicate (shared.length + 1) t.cpp ++ gs.cpps

/-- The C++ type of the results: nothing, one type, or a tuple. -/
def ResultExpr.cpp : ResultExpr → Text
  | .none => "void"
  | .single t => t.cpp
  | .list ps =>
    match ps.cpps with
    | [] => "void"
    | [t] => t
    | ts => "std::tuple<" ++ joinWith ", " ts ++ ">"

end

/-! ## 2. The text of a type -/

/-- No white space, or none before the first parenthesis. -/
def Compact (s : Text) : Prop :=
  (∀ c ∈ s, isBlank c = false) ∨ ∃ a b, s = a ++ '(' :: b ∧ ∀ c ∈ a, isBlank c = false

theorem Compact.append {b : Text} (ha : Compact a) (hb : Compact b) : Compact (a ++ b) := by
  rcases ha with ha | ⟨x, y, rfl, hx⟩
  · rcases hb with hb | ⟨x, y, rfl, hx⟩
    · exact .inl (forall_mem_append.mpr ⟨ha, hb⟩)
    · exact .inr ⟨a ++ x, y, by rw [append_assoc], forall_mem_append.mpr ⟨ha, hx⟩⟩
  · exact .inr ⟨x, y ++ b, by rw [append_assoc]; rfl, hx⟩

theorem Compact.not_isIdentifier {name : Text} (h : Compact s) (hs : splitOnce? isBlank s = some (name, rest)) :
    isIdentifier name = false := by
  have hname : name = s.takeWhile (!isBlank ·) := by
    unfold splitOnce? at hs
    split at hs
    · cases hs
    · cases hs
      rfl
  rcases h with h | ⟨a, b, rfl, ha⟩
  · obtain ⟨c, hc, rfl⟩ := eq_append_of_splitOnce? hs
    rw [h c (by simp)] at hc
    cases hc
  · -- the parenthesis stands before the cut
    refine Bool.eq_false_iff.mpr fun hid => not_mem_of_isIdentifier hid (show isWordChar '(' = false by decide) ?_
    rw [hname, takeWhile_append_of_pos fun c hc => by rw [ha c hc]; rfl,
      takeWhile_cons_of_pos rfl]
    simp

/-- The text of a type: an element of a list without white space before the first parenthesis, which
    is not in front. -/
structure IsTypeText (s : Text) : Prop extends IsElement s where
  compact : Compact s
  head : s.head? ≠ some '('

theorem solid_of_forall (h : ∀ c ∈ s, isBlank c = false) : Solid s :=
  ⟨fun c hc => h c (mem_of_head? hc), fun c hc => h c (mem_of_getLast? hc)⟩

/-- What may stand in front of a type. -/
structure IsTypeHead (a : Text) : Prop where
  part : IsPart ',' a
  compact : Compact a
  ne_nil : a ≠ []
  head : ∀ c, a.head? = some c → isBlank c = false ∧ c ≠ '('

theorem IsTypeHead.isTypeText (ha : IsTypeHead a) (ht : IsTypeText t) (h : Joins a t) :
    IsTypeText (a ++ t) where
  part := ha.part.join ht.part h
  solid := by
    exact ⟨SolidStart.append (fun d hd => (ha.head d hd).1) ha.ne_nil t, SolidEnd.append ht.solid.2 ht.ne_nil a⟩
  ne_nil := append_ne_nil_of_left_ne_nil ha.ne_nil t
  compact := ha.compact.append ht.compact
  head := by
    obtain ⟨c, r, rfl⟩ := exists_cons_of_ne_nil ha.ne_nil
    exact fun e => (ha.head c rfl).2 (Option.some.inj e)

theorem isTypeHead_bare (hbare : Bare a) (hcomma : ',' ∉ a) (hblank : ∀ c ∈ a, isBlank c = false) (hne : a ≠ []) :
    IsTypeHead a where
  part := isPart_bare hbare hcomma
  compact := .inl hblank
  ne_nil := hne
  head c hc := by
    have hmem := mem_of_head? hc
    exact ⟨hblank c hmem, fun e => absurd (hbare c hmem).1 (by rw [e]; decide)⟩

theorem isTypeHead_index (hbare : Bare a) (hcomma : ',' ∉ a) (hblank : ∀ c ∈ a, isBlank c = false)
    (hs : WellNested s) (hcompact : Compact s) : IsTypeHead (a ++ ('[' :: (s ++ [']']))) where
  part := (isPart_bare hbare hcomma).join (.bracketed rfl (by decide) hs) (joins_of_head (by decide) a _)
  compact := by
    refine Compact.append (.inl hblank) ?_
    have hopen : Compact ['['] := .inl (by decide)
    have hclose : Compact [']'] := .inl (by decide)
    exact hopen.append (hcompact.append hclose)
  ne_nil := by simp
  head c hc := by
    cases a with
    | nil =>
      obtain rfl : '[' = c := Option.some.inj hc
      decide
    | cons d r =>
      obtain rfl : d = c := Option.some.inj hc
      exact ⟨hblank d mem_cons_self, fun e => absurd hbare.head.1 (by rw [e]; decide)⟩

/-! ## 3. Names and sizes -/

theorem TypeName.mem_text {n : TypeName} (h : c ∈ n.text) : isWordChar c = true ∨ c = '.' := by
  rcases mem_joinWith h with h | ⟨q, hq, h⟩
  · exact .inr (by simpa using h)
  · obtain ⟨i, _, rfl⟩ := mem_map.mp hq
    exact .inl (isWordChar_of_mem i.valid c h)

theorem TypeName.not_mem_text (n : TypeName) {d : Char} (hd : isWordChar d = false) (hdot : d ≠ '.') : d ∉ n.text := by
  intro h
  rcases n.mem_text h with h | h
  · exact ne_of_isWordChar h hd rfl
  · exact hdot h

theorem TypeName.bare_text (n : TypeName) : Bare n.text := by
  intro c hc
  rcases n.mem_text hc with h | rfl
  · exact not_special_of_isWordChar h
  · decide

theorem TypeName.not_blank_text (n : TypeName) : ∀ c ∈ n.text, isBlank c = false := by
  intro c hc
  rcases n.mem_text hc with h | rfl
  · exact not_isBlank_of_isWordChar h
  · decide

theorem TypeName.head_text (n : TypeName) : ∃ c r, n.text = c :: r ∧ isWordChar c = true := by
  obtain ⟨⟨text, valid⟩, more⟩ := n
  obtain ⟨c, r, rfl, hc⟩ := exists_cons_of_isIdentifier valid
  exact ⟨c, _, joinWith_head "." c r (more.map Ident.text), hc⟩

theorem TypeName.isTypeText (n : TypeName) : IsTypeText n.text := by
  have hbare := isPart_bare n.bare_text (n.not_mem_text (show isWordChar ',' = false by decide) (by decide))
  obtain ⟨c, r, htext, hc⟩ := n.head_text
  refine ⟨⟨hbare, solid_of_forall n.not_blank_text, ?_⟩, .inl n.not_blank_text, ?_⟩
  · rw [htext]
    exact cons_ne_nil c r
  · intro e
    exact n.not_mem_text (show isWordChar '(' = false by decide) (by decide) (mem_of_head? e)

theorem ArraySize.isWordChar_of_mem (n : ArraySize) : ∀ c ∈ n.digits, isWordChar c = true := by
  have h : ∀ c ∈ ("0123456789" : Text), isWordChar c = true := by decide
  exact fun c hc => h c (n.valid c hc)

/-! ## 4. Printed types -/

/-- What may be written behind the parameters of a function type. -/
structure IsResultText (s : Text) : Prop where
  part : IsPart ',' s
  last : ∀ c, s.getLast? = some c → isBlank c = false

theorem append_bracketed (a s t : Text) (o k : Char) :
    a ++ (o :: (s ++ (k :: t))) = (a ++ (o :: (s ++ [k]))) ++ t := by
  simp

theorem getLast?_bracketed (a s : Text) (o k : Char) : (a ++ (o :: (s ++ [k]))).getLast? = some k := by
  rw [← cons_append, ← append_assoc]
  exact getLast?_concat

theorem isTypeText_func (hinside : WellNested inside) (hrest : IsResultText rest) :
    IsTypeText ("func(" ++ (inside ++ (")" ++ rest))) := by
  show IsTypeText ("func" ++ ('(' :: (inside ++ (')' :: rest))))
  refine ⟨⟨?_, ⟨solidStart_cons rfl _, ?_⟩, by simp⟩, .inr ⟨"func", _, rfl, by decide⟩, nofun⟩
  · rw [append_bracketed]
    have hparams : IsPart ',' ("func" ++ ('(' :: (inside ++ [')']))) :=
      (isPart_bare (by decide) (by decide)).join (.bracketed rfl (by decide) hinside)
        (joins_of_head (by decide) _ _)
    exact hparams.join hrest.part (.inl (by rw [getLast?_bracketed]; decide))
  · by_cases hne : rest = []
    · rw [hne]
      exact solidEnd_of_last (getLast?_bracketed _ _ _ _) rfl
    · rw [append_bracketed]
      exact SolidEnd.append hrest.last hne _

theorem Ident.isElement (i : Ident) : IsElement i.text where
  part := isPart_bare (bare_of_isIdentifier i.valid) (not_mem_of_isIdentifier i.valid rfl)
  solid := solid_of_isIdentifier i.valid
  ne_nil e := by
    have := i.valid
    rw [e] at this
    cases this

theorem isElement_named (i : Ident) (ht : IsTypeText t) : IsElement (i.text ++ (" " ++ t)) :=
  isElement_pair (by decide) (by decide) (by decide) (by decide) i.isElement ht.toIsElement

mutual

theorem TypeExpr.isTypeText : ∀ t : TypeExpr, IsTypeText t.go
  | .name n => n.isTypeText
  | .pointer t =>
    (isTypeHead_bare (a := "*") (by decide) (by decide) (by decide) (by decide)).isTypeText t.isTypeText
      (.inl (by decide))
  | .slice t =>
    (isTypeHead_index (a := []) (s := []) (by decide) (by decide) (by decide) wellNested_nil (.inl nofun)).isTypeText
      t.isTypeText (.inl (by decide))
  | .array size t => by
    show IsTypeText ([] ++ ('[' :: (size.digits ++ (']' :: t.go))))
    rw [append_bracketed]
    have hbare : Bare size.digits := fun c hc => not_special_of_isWordChar (size.isWordChar_of_mem c hc)
    exact (isTypeHead_index (by decide) (by decide) (by decide) hbare.wellNested
      (.inl fun c hc => not_isBlank_of_isWordChar (size.isWordChar_of_mem c hc))).isTypeText t.isTypeText
      (.inl (by rw [getLast?_bracketed]; decide))
  | .map k v => by
    show IsTypeText ("map" ++ ('[' :: (k.go ++ (']' :: v.go))))
    rw [append_bracketed]
    exact (isTypeHead_index (by decide) (by decide) (by decide) k.isTypeText.part.wellNested
      k.isTypeText.compact).isTypeText v.isTypeText (.inl (by rw [getLast?_bracketed]; decide))
  | .func ps r => isTypeText_func (wellNested_list fun p hp => (ps.isElement p hp).part) r.isResultText

theorem ParamExprs.isElement : ∀ (ps : ParamExprs), ∀ p ∈ ps.parts, IsElement p
  | .unnamed ts => fun p hp => (ts.isTypeText p hp).toIsElement
  | .named gs => gs.isElement

theorem TypeExprs.isTypeText : ∀ (ts : TypeExprs), ∀ p ∈ ts.parts, IsTypeText p
  | .nil => nofun
  | .cons t ts => forall_mem_cons.mpr ⟨t.isTypeText, ts.isTypeText⟩

theorem NamedExprs.isElement : ∀ (gs : NamedExprs), ∀ p ∈ gs.parts, IsElement p
  | .nil => nofun
  | .cons shared last t gs => by
    refine forall_mem_append.mpr ⟨fun p hp => ?_, forall_mem_cons.mpr
      ⟨isElement_named last t.isTypeText, gs.isElement⟩⟩
    obtain ⟨i, _, rfl⟩ := mem_map.mp hp
    exact i.isElement

theorem ResultExpr.isResultText : ∀ r : ResultExpr, IsResultText r.go
  | .none => ⟨isPart_bare nofun nofun, nofun⟩
  | .single t => by
    exact ⟨isPart_space (by decide) t.isTypeText.part, SolidEnd.append t.isTypeText.solid.2 t.isTypeText.ne_nil " "⟩
  | .list ps => by
    have hinside := wellNested_list fun p hp => (ps.isElement p hp).part
    refine ⟨isPart_space (by decide) (.bracketed rfl (by decide) hinside), ?_⟩
    exact solidEnd_of_last (getLast?_bracketed " " _ '(' ')') rfl

end

/-! ## 5. One constructor read off -/

theorem startsWith_eq_false (hc : c ∈ head) (h : c ∉ s) : startsWith s head = false := by
  refine Bool.eq_false_iff.mpr fun hs => ?_
  obtain ⟨r, rfl⟩ := startsWith_iff.mp hs
  exact h (mem_append_left r hc)

theorem startsWith_stripped {r : Text} (hc : c ∉ s) (hr : stripStart? head s = some r) :
    startsWith r [c] = false := by
  rw [eq_append_of_stripStart? hr] at hc
  exact startsWith_eq_false mem_cons_self fun hm => hc (mem_append_right head hm)

theorem splitMapType?_eq (hk : WellNested k) (hv : Solid v) (hne : v ≠ []) :
    splitMapType? ("map[" ++ (k ++ ("]" ++ v))) = some (k, v) := by
  have hsolid : Solid ("map[" ++ (k ++ ("]" ++ v))) := by
    refine ⟨solidStart_cons rfl _, ?_⟩
    rw [← append_assoc, ← append_assoc]
    exact SolidEnd.append hv.2 hne _
  unfold splitMapType?
  rw [trim_eq_self_of_solid hsolid]
  show (enclosed? ('[' :: (k ++ ']' :: v))).bind _ = _
  rw [enclosed?_eq rfl hk, Option.bind_some]
  dsimp only
  rw [not_isAllBlank hv hne, trim_eq_self_of_solid hv]
  rfl

theorem splitMapType?_square (s : Text) : splitMapType? ('[' :: s) = none := by
  unfold splitMapType?
  cases hr : stripStart? "map" (trim ('[' :: s)) with
  | none => rfl
  | some r =>
    have hhead := head?_trim_cons (c := '[') rfl s
    rw [eq_append_of_stripStart? hr] at hhead
    exact absurd (Option.some.inj hhead) (by decide)

theorem splitMapType?_of_not_mem (hsquare : '[' ∉ s) : splitMapType? s = none := by
  unfold splitMapType?
  cases hr : stripStart? "map" (trim s) with
  | none => rfl
  | some r =>
    rw [Option.bind_some]
    exact if_neg (Bool.eq_false_iff.mp (startsWith_stripped (fun hc => hsquare (mem_of_mem_trim hc)) hr))

namespace GoType

theorem cppAll_eq_map (ts : List GoType) : cppAll ts = ts.map cpp := by
  induction ts with
  | nil => rfl
  | cons t ts ih => rw [cppAll, ih, map_cons]

/-- The type that a shape stands for. -/
def Shape.type : Shape → GoType
  | .named n => .named n
  | .pointer t => .pointer (parse t)
  | .slice t => .slice (parse t)
  | .array n t => .array n (parse t)
  | .map k v => .map (parse k) (parse v)
  | .func ps rs => .func (ps.map parse) (rs.map parse)

theorem parse_eq (s : Text) : parse s = (shape s).type := by
  rw [parse]
  split <;> rename_i h <;> rw [h, Shape.type]
  rw [map_attach_eq_pmap, map_attach_eq_pmap, pmap_eq_map, pmap_eq_map]

theorem cppType_named (h : shape s = .named n) : cppType s = cppName n := by
  rw [cppType, parse_eq, h]
  rfl

theorem cppType_pointer (h : shape s = .pointer t) : cppType s = cppType t ++ "*" := by
  rw [cppType, parse_eq, h]
  rfl

theorem cppType_slice (h : shape s = .slice t) : cppType s = "std::vector<" ++ cppType t ++ ">" := by
  rw [cppType, parse_eq, h]
  rfl

theorem cppType_array (h : shape s = .array n t) : cppType s = "std::array<" ++ cppType t ++ ", " ++ n ++ ">" := by
  rw [cppType, parse_eq, h]
  rfl

theorem cppType_map (h : shape s = .map k v) :
    cppType s = "std::unordered_map<" ++ cppType k ++ ", " ++ cppType v ++ ">" := by
  rw [cppType, parse_eq, h]
  rfl

theorem cppType_func {ps rs : List Text} (h : shape s = .func ps rs) :
    cppType s = "std::function<" ++ cppResult rs ++ "(" ++ joinWith ", " (ps.map cppType) ++ ")>" := by
  have hall (ts : List Text) : cppAll (ts.map parse) = ts.map cppType := by
    rw [cppAll_eq_map, map_map]
    rfl
  rw [cppType, parse_eq, h]
  show "std::function<" ++ resultSpelling (cppAll (rs.map parse)) ++ "(" ++
    joinWith ", " (cppAll (ps.map parse)) ++ ")>" = _
  rw [hall, hall, cppResult]

variable {t : Text}

theorem shape_pointer (h : Solid ("*" ++ t)) : shape ("*" ++ t) = .pointer t := by
  unfold shape
  rw [trim_eq_self_of_solid h]
  rfl

theorem shape_slice (h : Solid ("[]" ++ t)) : shape ("[]" ++ t) = .slice t := by
  unfold shape
  rw [trim_eq_self_of_solid h]
  rfl

theorem shape_map (h : Solid ("map[" ++ (k ++ ("]" ++ t)))) (hk : WellNested k) (ht : Solid t) (hne : t ≠ []) :
    shape ("map[" ++ (k ++ ("]" ++ t))) = .map k t := by
  unfold shape
  rw [trim_eq_self_of_solid h]
  dsimp only
  rw [show stripStart? "*" ("map[" ++ (k ++ ("]" ++ t))) = none from rfl,
    show splitSliceType? ("map[" ++ (k ++ ("]" ++ t))) = none from rfl,
    splitMapType?_eq hk ht hne]

theorem shape_array (h : Solid ("[" ++ (n ++ ("]" ++ t)))) (hn : ∀ c ∈ n, isWordChar c = true) (hne : n ≠ []) :
    shape ("[" ++ (n ++ ("]" ++ t))) = .array n t := by
  obtain ⟨c, r, rfl⟩ := exists_cons_of_ne_nil hne
  have hbare : Bare (c :: r) := fun c hc => not_special_of_isWordChar (hn c hc)
  have hsolid : Solid (c :: r) := solid_of_forall fun c hc => not_isBlank_of_isWordChar (hn c hc)
  have harray : splitArrayType? ("[" ++ (c :: r ++ ("]" ++ t))) = some (c :: r, t) := by
    show (enclosed? ('[' :: (c :: r ++ ']' :: t))).map _ = _
    rw [enclosed?_eq rfl hbare.wellNested, Option.map_some]
    dsimp only
    rw [trim_eq_self_of_solid hsolid]
  have hslice : stripStart? "[]" ("[" ++ (c :: r ++ ("]" ++ t))) = none := by
    refine stripStart?_eq_none (Bool.eq_false_iff.mpr fun hs => ?_)
    obtain ⟨e, he⟩ := startsWith_iff.mp hs
    obtain rfl : c = ']' := (cons.inj (cons.inj he).2).1
    exact absurd (hn ']' mem_cons_self) (by decide)
  have hmap : splitMapType? ("[" ++ (c :: r ++ ("]" ++ t))) = none := splitMapType?_square _
  unfold shape splitSliceType?
  rw [trim_eq_self_of_solid h]
  dsimp only
  rw [show stripStart? "*" ("[" ++ (c :: r ++ ("]" ++ t))) = none from rfl, hslice,
    show stripStart? "..." ("[" ++ (c :: r ++ ("]" ++ t))) = none from rfl, hmap,
    show splitFuncType? ("[" ++ (c :: r ++ ("]" ++ t))) = none from rfl, harray]
  rfl

theorem shape_func (h : Solid ("func(" ++ (inside ++ (")" ++ rest)))) (hinside : WellNested inside) :
    shape ("func(" ++ (inside ++ (")" ++ rest))) = .func ((list inside).map (·.type)) (resultTypes rest) := by
  have hmap : splitMapType? ("func(" ++ (inside ++ (")" ++ rest))) = none := by
    unfold splitMapType?
    rw [trim_eq_self_of_solid h]
    rfl
  have hfunc : splitFuncType? ("func(" ++ (inside ++ (")" ++ rest))) = some (inside, rest) :=
    enclosed?_eq (o := '(') rfl hinside rest
  unfold shape
  rw [trim_eq_self_of_solid h]
  dsimp only
  rw [show stripStart? "*" ("func(" ++ (inside ++ (")" ++ rest))) = none from rfl,
    show splitSliceType? ("func(" ++ (inside ++ (")" ++ rest))) = none from rfl, hmap, hfunc]

theorem shape_plain (hs : ∀ c ∈ s, isWordChar c = true ∨ c = '.') (hdot : s.head? ≠ some '.') :
    shape s = .named s := by
  have hno {d : Char} (hd : isWordChar d = false) (hne : d ≠ '.') : d ∉ s := fun hmem => by
    rcases hs d hmem with h | h
    · exact ne_of_isWordChar h hd rfl
    · exact hne h
  have hsolid : Solid s := solid_of_forall fun c hc => by
    rcases hs c hc with h | rfl
    · exact not_isBlank_of_isWordChar h
    · decide
  have hdots : stripStart? "..." s = none := by
    refine stripStart?_eq_none (Bool.eq_false_iff.mpr fun h => hdot ?_)
    obtain ⟨r, rfl⟩ := startsWith_iff.mp h
    rfl
  have hfunc : splitFuncType? s = none := by
    unfold splitFuncType?
    cases hr : stripStart? "func" s with
    | none => rfl
    | some r =>
      rw [Option.bind_some]
      exact if_neg (Bool.eq_false_iff.mp (startsWith_stripped (hno rfl (by decide)) hr))
  have harray : splitArrayType? s = none := by
    unfold splitArrayType?
    rw [startsWith_eq_false (c := '[') (by decide) (hno rfl (by decide))]
    rfl
  unfold shape splitSliceType?
  rw [trim_eq_self_of_solid hsolid]
  dsimp only
  rw [stripStart?_eq_none (startsWith_eq_false (c := '*') (by decide) (hno rfl (by decide))),
    stripStart?_eq_none (startsWith_eq_false (c := '[') (by decide) (hno rfl (by decide))), hdots,
    splitMapType?_of_not_mem (hno rfl (by decide)), hfunc, harray]
  rfl

theorem shape_name (n : TypeName) : shape n.text = .named n.text := by
  refine shape_plain (fun c hc => n.mem_text hc) fun hdot => ?_
  obtain ⟨c, r, htext, hc⟩ := n.head_text
  rw [htext] at hdot
  obtain rfl : c = '.' := Option.some.inj hdot
  exact absurd hc (by decide)

end GoType

/-! ## 6. Parameters and results -/

namespace Parameter

theorem types_listFrom {parts : List Text} (h : ∀ p ∈ parts, Compact p) (pending : List Text) :
    (listFrom pending parts).map (·.type) = pending ++ parts := by
  induction parts generalizing pending with
  | nil => rw [listFrom, map_map, append_nil]; exact map_id pending
  | cons part parts ih =>
    obtain ⟨hpart, hparts⟩ := forall_mem_cons.mp h
    have hpend : listFrom pending (part :: parts) = listFrom (pending ++ [part]) parts := by
      rw [listFrom]
      split
      · rename_i hs
        rw [hpart.not_isIdentifier hs]
        rfl
      · rfl
    rw [hpend, ih hparts, append_assoc]
    rfl

theorem listFrom_names (names : List Ident) (pending parts : List Text) :
    listFrom pending (names.map Ident.text ++ parts) = listFrom (pending ++ names.map Ident.text) parts := by
  induction names generalizing pending with
  | nil => rw [map_nil, nil_append, append_nil]
  | cons i names ih =>
    have hsplit : splitOnce? isBlank i.text = none := by
      cases hs : splitOnce? isBlank i.text with
      | none => rfl
      | some cut =>
        obtain ⟨c, hc, he⟩ := eq_append_of_splitOnce? hs
        have hword := isWordChar_of_mem i.valid c (by rw [he]; simp)
        rw [not_isBlank_of_isWordChar hword] at hc
        cases hc
    rw [map_cons, cons_append, listFrom, hsplit]
    dsimp only
    rw [ih, append_assoc]
    rfl

theorem listFrom_typed (i : Ident) (ht : IsTypeText t) (pending parts : List Text) :
    listFrom pending ((i.text ++ (" " ++ t)) :: parts) =
      pending.map (fun name => ⟨name, t⟩) ++ ⟨i.text, t⟩ :: listFrom [] parts := by
  have hword : ∀ c ∈ i.text, (!isBlank c) = true := fun c hc => by
    rw [not_isBlank_of_isWordChar (isWordChar_of_mem i.valid c hc)]
    rfl
  have hsplit : splitOnce? isBlank (i.text ++ (" " ++ t)) = some (i.text, t) := by
    unfold splitOnce?
    rw [dropWhile_append_of_pos hword, takeWhile_append_of_pos hword]
    show some (i.text ++ [], t) = _
    rw [append_nil]
  rw [listFrom, hsplit]
  dsimp only
  rw [if_pos i.valid, ht.trim_eq]

end Parameter

theorem resultTypes_solid (ht : Solid t) (hne : t ≠ []) (hround : t.head? ≠ some '(')
    (hopen : endsWith t "\x7b" = false) : resultTypes (" " ++ t) = [t] := by
  have hparen : startsWith t "(" = false := startsWith_of_head hround
  unfold resultTypes
  rw [show trim (" " ++ t) = t from trim_space_of_solid ht, stripEnd_eq_self hopen, trim_eq_self_of_solid ht]
  dsimp only
  rw [if_neg (by simpa using hne), hparen]
  rfl

theorem resultTypes_single (ht : IsTypeText t) : resultTypes (" " ++ t) = [t] :=
  resultTypes_solid ht.solid ht.ne_nil ht.head (ht.part.wellNested.not_endsWith rfl)

theorem resultTypes_list (h : WellNested inside) :
    resultTypes (" (" ++ (inside ++ ")")) = (list inside).map (·.type) := by
  have hsolid : Solid ('(' :: (inside ++ [')'])) :=
    ⟨solidStart_cons rfl _, solidEnd_of_last (getLast?_bracketed [] inside '(' ')') rfl⟩
  have hopen : stripEnd "\x7b" ('(' :: (inside ++ [')'])) = '(' :: (inside ++ [')']) :=
    stripEnd_eq_self (endsWith_concat_of_ne ('(' :: inside) (by decide))
  unfold resultTypes
  rw [show trim (" (" ++ (inside ++ ")")) = '(' :: (inside ++ [')']) from trim_space_of_solid hsolid, hopen,
    trim_eq_self_of_solid hsolid]
  rw [if_neg (by simp), if_pos (show startsWith ('(' :: (inside ++ [')'])) "(" = true from rfl), enclosed?_eq rfl h]

/-! ## 7. Spellings -/

mutual

theorem TypeExpr.cppType_eq : ∀ t : TypeExpr, cppType t.go = t.cpp
  | .name n => by
    show cppType n.text = match GoType.primitives.lookup n.text with
      | some spelling => spelling
      | none => n.text
    rw [GoType.cppType_named (GoType.shape_name n), GoType.cppName]
    cases GoType.primitives.lookup n.text <;> rfl
  | .pointer t => by
    have hshape := GoType.shape_pointer (TypeExpr.pointer t).isTypeText.solid
    show cppType ("*" ++ t.go) = t.cpp ++ "*"
    rw [GoType.cppType_pointer hshape, t.cppType_eq]
  | .slice t => by
    have hshape := GoType.shape_slice (TypeExpr.slice t).isTypeText.solid
    show cppType ("[]" ++ t.go) = "std::vector<" ++ t.cpp ++ ">"
    rw [GoType.cppType_slice hshape, t.cppType_eq]
  | .array size t => by
    have hshape := GoType.shape_array (TypeExpr.array size t).isTypeText.solid size.isWordChar_of_mem size.ne_nil
    show cppType ("[" ++ (size.digits ++ ("]" ++ t.go))) = "std::array<" ++ t.cpp ++ ", " ++ size.digits ++ ">"
    rw [GoType.cppType_array hshape, t.cppType_eq]
  | .map k v => by
    have hshape := GoType.shape_map (TypeExpr.map k v).isTypeText.solid k.isTypeText.part.wellNested v.isTypeText.solid
      v.isTypeText.ne_nil
    show cppType ("map[" ++ (k.go ++ ("]" ++ v.go))) = "std::unordered_map<" ++ k.cpp ++ ", " ++ v.cpp ++ ">"
    rw [GoType.cppType_map hshape, k.cppType_eq, v.cppType_eq]
  | .func ps r => by
    have hinside := wellNested_list fun p hp => (ps.isElement p hp).part
    have hshape := GoType.shape_func (TypeExpr.func ps r).isTypeText.solid hinside
    show cppType ("func(" ++ (joinWith ", " ps.parts ++ (")" ++ r.go))) =
      "std::function<" ++ r.cpp ++ "(" ++ joinWith ", " ps.cpps ++ ")>"
    rw [GoType.cppType_func hshape, ps.cppType_eq, r.cppResult_eq]

theorem ParamExprs.cppType_eq : ∀ ps : ParamExprs,
    ((list (joinWith ", " ps.parts)).map (·.type)).map cppType = ps.cpps
  | .unnamed ts => by
    rw [list, splitTop_list (ParamExprs.unnamed ts).isElement, ParamExprs.parts,
      types_listFrom (fun p hp => (ts.isTypeText p hp).compact), nil_append]
    exact ts.cppType_eq
  | .named gs => by
    rw [list, splitTop_list (ParamExprs.named gs).isElement, ParamExprs.parts]
    exact gs.cppType_eq

theorem TypeExprs.cppType_eq : ∀ ts : TypeExprs, ts.parts.map cppType = ts.cpps
  | .nil => rfl
  | .cons t ts => by
    rw [TypeExprs.parts, map_cons, t.cppType_eq, ts.cppType_eq]
    rfl

theorem NamedExprs.cppType_eq : ∀ gs : NamedExprs,
    ((listFrom [] gs.parts).map (·.type)).map cppType = gs.cpps
  | .nil => rfl
  | .cons shared last t gs => by
    have hshared : ((shared.map Ident.text).map fun _ => cppType t.go) = replicate shared.length t.cpp := by
      rw [t.cppType_eq, map_map]
      exact map_const' ..
    rw [NamedExprs.parts, listFrom_names, nil_append,
      listFrom_typed last t.isTypeText, map_append, map_append, map_map, map_map,
      map_cons, map_cons, t.cppType_eq, gs.cppType_eq]
    show _ = replicate (shared.length + 1) t.cpp ++ gs.cpps
    rw [replicate_succ', append_assoc]
    exact congrArg (· ++ _) hshared

theorem ResultExpr.cppResult_eq : ∀ r : ResultExpr, cppResult (resultTypes r.go) = r.cpp
  | .none => rfl
  | .single t => by
    rw [ResultExpr.go, resultTypes_single t.isTypeText, cppResult, map_cons, map_nil, t.cppType_eq]
    rfl
  | .list ps => by
    rw [ResultExpr.go, resultTypes_list (wellNested_list fun p hp => (ps.isElement p hp).part), cppResult,
      ps.cppType_eq]
    show GoType.resultSpelling ps.cpps = match ps.cpps with
      | [] => "void"
      | [t] => t
      | ts => "std::tuple<" ++ joinWith ", " ts ++ ">"
    rcases ps.cpps with _ | ⟨t, _ | ⟨u, ts⟩⟩ <;> rfl

end

/-- **The spelling of a printed type.** Whatever is nested in what, the type is spelled by recursion
    over its tree. -/
theorem cppType_go (t : TypeExpr) : cppType t.go = t.cpp := t.cppType_eq

end Linewise
