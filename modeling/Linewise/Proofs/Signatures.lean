/-
  A written signature is read back, and its C++ header says what it says.
-/
import Linewise.Lower.Function
import Linewise.Proofs.TypeSpelling

namespace Linewise

open Text List Parameter Signature

variable {results : Text}

/-! ## 1. The head of a signature -/

theorem idxOf?_append_cons {c : Char} {a : Text} (h : c ∉ a) (b : Text) :
    (a ++ c :: b).idxOf? c = some a.length := by
  induction a with
  | nil => simp [idxOf?_cons]
  | cons d a ih =>
    have hd : (d == c) = false := beq_eq_false_iff_ne.mpr fun e => h (e ▸ mem_cons_self)
    rw [cons_append, idxOf?_cons, hd, ih fun hm => h (mem_cons_of_mem d hm)]
    rfl

namespace Signature

theorem parse_name (name : Ident) (rest : Text) :
    parse ("func " ++ (name.text ++ '(' :: rest)) =
      ⟨name.text, (paramsAndResults ('(' :: rest)).1, (paramsAndResults ('(' :: rest)).2⟩ := by
  have hround : '(' ∉ name.text := not_mem_of_isIdentifier name.valid rfl
  have hstart : trimStart (stripStart "func" ("func " ++ (name.text ++ '(' :: rest))) = name.text ++ '(' :: rest :=
    trimStart_eq_self_of_head (SolidStart.append name.isElement.solid.1 name.isElement.ne_nil _)
  unfold parse
  rw [hstart]
  dsimp only
  rw [idxOf?_append_cons hround]
  dsimp only
  rw [drop_left, take_left, name.isElement.trim_eq]

theorem paramsAndResults_body {params : Text} (hparams : WellNested params) (hresults : WellNested results)
    (tail : Text) :
    paramsAndResults ('(' :: (params ++ ')' :: (results ++ '{' :: tail))) =
      paramsAndResults ('(' :: (params ++ ')' :: results)) := by
  unfold paramsAndResults
  rw [enclosed?_eq rfl hparams, enclosed?_eq rfl hparams]
  dsimp only
  rw [hresults.topIndex?_append_cons rfl]
  cases hi : topIndex? '{' results with
  | none =>
    rw [Option.none_or]
    dsimp only
    rw [take_left]
  | some i =>
    rw [Option.some_or]
    dsimp only
    rw [take_append_of_le_length (Nat.le_of_lt (lt_length_of_topIndex? hi))]

/-- The text of a signature up to its body. -/
def headText (name : Ident) (params results : Text) : Text :=
  "func " ++ (name.text ++ '(' :: (params ++ ')' :: results))

theorem headText_eq (name : Ident) (params results : Text) :
    headText name params results = "func " ++ (name.text ++ '(' :: (params ++ ')' :: results)) := rfl

theorem headText_append (name : Ident) (params results tail : Text) :
    headText name params results ++ tail = "func " ++ (name.text ++ '(' :: (params ++ ')' :: (results ++ tail))) := by
  rw [headText_eq, append_assoc, append_assoc, cons_append, append_assoc, cons_append]

theorem parse_body (name : Ident) {params : Text} (hparams : WellNested params) (hresults : WellNested results)
    (tail : Text) : parse (headText name params results ++ '{' :: tail) = parse (headText name params results) := by
  rw [headText_append, headText_eq, parse_name, parse_name, paramsAndResults_body hparams hresults]

theorem parse_headText (name : Ident) {params : Text} (hparams : WellNested params)
    (hresults : topIndex? '{' results = none) :
    parse (headText name params results) = ⟨name.text, list params, resultTypes results⟩ := by
  rw [headText_eq, parse_name, paramsAndResults, enclosed?_eq rfl hparams]
  dsimp only
  rw [hresults]

end Signature

/-! ## 2. Written signatures -/

/-- The type of a parameter: a type, or any number of values of one. -/
inductive ParamType where
  | plain (t : TypeExpr)
  | variadic (t : TypeExpr)

namespace ParamType

/-- The type as it is written. -/
def go : ParamType → Text
  | plain t => t.go
  | variadic t => "..." ++ t.go

/-- The type in C++. -/
def cpp : ParamType → Text
  | plain t => t.cpp
  | variadic t => "std::vector<" ++ t.cpp ++ ">"

/-- The parameter holds a map. -/
def isMap : ParamType → Bool
  | plain (.map _ _) => true
  | _ => false

end ParamType

/-- Names that share a type: `shared`, and the name that stands before the type. -/
structure ParamGroup where
  shared : List Ident
  last : Ident
  type : ParamType

namespace ParamGroup

/-- All names of the group. -/
def names (g : ParamGroup) : List Ident := g.shared ++ [g.last]

/-- The parts of a list that the group takes. -/
def parts (g : ParamGroup) : List Text :=
  g.shared.map Ident.text ++ [g.last.text ++ (" " ++ g.type.go)]

/-- The parameters, each name with the type of the group. -/
def params (g : ParamGroup) : List Parameter := g.names.map fun i => ⟨i.text, g.type.go⟩

/-- The parameters in C++: type, then name. -/
def cpps (g : ParamGroup) : List Text := g.names.map fun i => g.type.cpp ++ " " ++ i.text

end ParamGroup

/-- The written types of the results in order, one for each of them. -/
def NamedExprs.types : NamedExprs → List Text
  | .nil => []
  | .cons shared _ t gs => replicate (shared.length + 1) t.go ++ gs.types

/-- The types of the parameters, one for each. -/
def ParamExprs.types : ParamExprs → List Text
  | .unnamed ts => ts.parts
  | .named gs => gs.types

/-- The types of the results, one for each. -/
def ResultExpr.types : ResultExpr → List Text
  | .none => []
  | .single t => [t.go]
  | .list ps => ps.types

/-- The C++ types of the results in order. -/
def ResultExpr.cpps : ResultExpr → List Text
  | .none => []
  | .single t => [t.cpp]
  | .list ps => ps.cpps

/-- A function's header as it is written. -/
structure SignatureExpr where
  name : Ident
  groups : List ParamGroup
  results : ResultExpr

namespace SignatureExpr

/-- The line that opens the body of the function. -/
def go (h : SignatureExpr) : Text :=
  "func " ++ (h.name.text ++ '(' :: (joinWith ", " (h.groups.flatMap ParamGroup.parts) ++ ')' ::
    (h.results.go ++ " \x7b")))

/-- The header in C++. The entry point returns a status. -/
def cpp (h : SignatureExpr) : Text :=
  "auto " ++ h.name.text ++ "(" ++ joinWith ", " (h.groups.flatMap ParamGroup.cpps) ++ ") -> " ++
    (if h.name.text = ("main" : Text) then ("int" : Text) else h.results.cpp)

/-- The signature that is written. -/
def signature (h : SignatureExpr) : Signature :=
  ⟨h.name.text, h.groups.flatMap ParamGroup.params, h.results.types⟩

/-- The declarations that a definition adds: none for the entry point. -/
def prototypes (h : SignatureExpr) : List Text :=
  if h.name.text = ("main" : Text) then [] else [h.cpp ++ ";"]

end SignatureExpr

/-! ## 3. Parameters -/

namespace ParamType

theorem isTypeText : ∀ t : ParamType, IsTypeText t.go
  | plain t => t.isTypeText
  | variadic t =>
    (isTypeHead_bare (a := "...") (by decide) (by decide) (by decide) (by decide)).isTypeText t.isTypeText
      (.inl (by decide))

theorem cppType_eq : ∀ t : ParamType, cppType t.go = t.cpp
  | plain t => t.cppType_eq
  | variadic t => by
    have hshape : GoType.shape ("..." ++ t.go) = .slice t.go := by
      have htrim : trim ("..." ++ t.go) = "..." ++ t.go := (variadic t).isTypeText.trim_eq
      unfold GoType.shape
      rw [htrim]
      rfl
    show cppType ("..." ++ t.go) = "std::vector<" ++ t.cpp ++ ">"
    rw [GoType.cppType_slice hshape, t.cppType_eq]

theorem isMapType_go (t : ParamType) : isMapType t.go = t.isMap := by
  have htrim : trimStart t.go = t.go := trimStart_eq_self_of_head t.isTypeText.solid.1
  unfold isMapType
  rw [htrim]
  match t with
  | variadic t => rfl
  | plain (.pointer t) => rfl
  | plain (.slice t) => rfl
  | plain (.array n t) => rfl
  | plain (.map k v) => exact startsWith_append "map[" _
  | plain (.func ps r) => rfl
  | plain (.name n) =>
    exact startsWith_eq_false (c := '[') (by decide) (n.not_mem_text rfl (by decide))

end ParamType

theorem ParamGroup.isElement (g : ParamGroup) : ∀ p ∈ g.parts, IsElement p := by
  intro p hp
  rcases mem_append.mp hp with hp | hp
  · obtain ⟨i, _, rfl⟩ := mem_map.mp hp
    exact i.isElement
  · obtain rfl := mem_singleton.mp hp
    exact isElement_named g.last g.type.isTypeText

theorem isElement_groups (gs : List ParamGroup) : ∀ p ∈ gs.flatMap ParamGroup.parts, IsElement p := by
  intro p hp
  obtain ⟨g, _, hp⟩ := mem_flatMap.mp hp
  exact g.isElement p hp

theorem Parameter.listFrom_group (g : ParamGroup) (parts : List Text) :
    listFrom [] (g.parts ++ parts) = g.params ++ listFrom [] parts := by
  rw [ParamGroup.parts, append_assoc, listFrom_names, nil_append, singleton_append,
    listFrom_typed g.last g.type.isTypeText, ParamGroup.params, ParamGroup.names]
  simp

/-- Every name has the type of its own group. -/
theorem Parameter.list_groups (gs : List ParamGroup) :
    list (joinWith ", " (gs.flatMap ParamGroup.parts)) = gs.flatMap ParamGroup.params := by
  rw [list, splitTop_list (isElement_groups gs)]
  induction gs with
  | nil => rfl
  | cons g gs ih => rw [flatMap_cons, listFrom_group, ih, flatMap_cons]

theorem ParamGroup.cpp_params (g : ParamGroup) : g.params.map Parameter.cpp = g.cpps := by
  rw [params, cpps, map_map]
  refine map_congr_left fun i _ => ?_
  show (if i.text.isEmpty then cppType g.type.go else cppType g.type.go ++ " " ++ i.text) = _
  rw [if_neg (by simpa using i.isElement.ne_nil), g.type.cppType_eq]

theorem Parameter.cppList_groups (gs : List ParamGroup) :
    cppList (gs.flatMap ParamGroup.params) = joinWith ", " (gs.flatMap ParamGroup.cpps) := by
  rw [cppList, map_flatMap]
  exact congrArg (joinWith ", " <| flatMap · gs) (funext ParamGroup.cpp_params)

/-! ## 4. Results -/

/-- The characters that written types are made of. -/
def isTypeChar (c : Char) : Bool := isWordChar c || (".*[](), " : Text).contains c

theorem isTypeChar_of_isIdentifier {x : Text} (h : isIdentifier x = true) : ∀ c ∈ x, isTypeChar c = true :=
  fun c hc => by rw [isTypeChar, isWordChar_of_mem h c hc, Bool.true_or]

mutual

theorem TypeExpr.isTypeChar_of_mem : ∀ t : TypeExpr, ∀ c ∈ t.go, isTypeChar c = true
  | .name n => fun c hc => by
    rcases TypeName.mem_text hc with hw | rfl
    · rw [isTypeChar, hw, Bool.true_or]
    · decide
  | .pointer t => forall_mem_append.mpr ⟨by decide, t.isTypeChar_of_mem⟩
  | .slice t => forall_mem_append.mpr ⟨by decide, t.isTypeChar_of_mem⟩
  | .array size t => by
    have hsize : ∀ c ∈ size.digits, isTypeChar c = true := fun c hc => by
      rw [isTypeChar, size.isWordChar_of_mem c hc, Bool.true_or]
    exact forall_mem_append.mpr ⟨by decide, forall_mem_append.mpr ⟨hsize,
      forall_mem_append.mpr ⟨by decide, t.isTypeChar_of_mem⟩⟩⟩
  | .map k v =>
    forall_mem_append.mpr ⟨by decide, forall_mem_append.mpr ⟨k.isTypeChar_of_mem,
      forall_mem_append.mpr ⟨by decide, v.isTypeChar_of_mem⟩⟩⟩
  | .func ps r =>
    forall_mem_append.mpr ⟨by decide, forall_mem_append.mpr ⟨ps.isTypeChar_of_mem,
      forall_mem_append.mpr ⟨by decide, r.isTypeChar_of_mem⟩⟩⟩

theorem ParamExprs.isTypeChar_of_mem : ∀ ps : ParamExprs, ∀ c ∈ joinWith ", " ps.parts, isTypeChar c = true
  | .unnamed ts => fun c hc => by
    rcases mem_joinWith hc with hc | ⟨p, hp, hc⟩
    · exact (show ∀ c ∈ (", " : Text), isTypeChar c = true by decide) c hc
    · exact ts.isTypeChar_of_mem p hp c hc
  | .named gs => fun c hc => by
    rcases mem_joinWith hc with hc | ⟨p, hp, hc⟩
    · exact (show ∀ c ∈ (", " : Text), isTypeChar c = true by decide) c hc
    · exact gs.isTypeChar_of_mem p hp c hc

theorem TypeExprs.isTypeChar_of_mem : ∀ ts : TypeExprs, ∀ p ∈ ts.parts, ∀ c ∈ p, isTypeChar c = true
  | .nil => nofun
  | .cons t ts => forall_mem_cons.mpr ⟨t.isTypeChar_of_mem, ts.isTypeChar_of_mem⟩

theorem NamedExprs.isTypeChar_of_mem : ∀ gs : NamedExprs, ∀ p ∈ gs.parts, ∀ c ∈ p, isTypeChar c = true
  | .nil => nofun
  | .cons shared last t gs => by
    refine forall_mem_append.mpr ⟨fun p hp => ?_, forall_mem_cons.mpr ⟨?_, gs.isTypeChar_of_mem⟩⟩
    · obtain ⟨i, _, rfl⟩ := mem_map.mp hp
      exact isTypeChar_of_isIdentifier i.valid
    · exact forall_mem_append.mpr ⟨isTypeChar_of_isIdentifier last.valid,
        forall_mem_append.mpr ⟨by decide, t.isTypeChar_of_mem⟩⟩

theorem ResultExpr.isTypeChar_of_mem : ∀ r : ResultExpr, ∀ c ∈ r.go, isTypeChar c = true
  | .none => nofun
  | .single t => forall_mem_append.mpr ⟨by decide, t.isTypeChar_of_mem⟩
  | .list ps => forall_mem_append.mpr ⟨by decide,
      forall_mem_append.mpr ⟨ps.isTypeChar_of_mem, by decide⟩⟩

end

theorem topIndex?_of_not_mem {needle : Char} {s : Text} (h : needle ∉ s) : topIndex? needle s = none := by
  cases hi : topIndex? needle s with
  | none => rfl
  | some i =>
    obtain ⟨a, b, rfl, _⟩ := eq_append_of_topIndexFrom? hi
    exact absurd (by simp) h

theorem resultTypes_space (s : Text) : resultTypes (s ++ " ") = resultTypes s := by
  have hblank : Blank " " := isAllBlank_iff.mp rfl
  unfold resultTypes
  rw [trim_append_blank hblank]

theorem NamedExprs.types_eq : ∀ gs : NamedExprs, (listFrom [] gs.parts).map (·.type) = gs.types
  | .nil => rfl
  | .cons shared last t gs => by
    have hshared : ((shared.map Ident.text).map fun _ => t.go) = replicate shared.length t.go := by
      rw [map_map]
      exact map_const' ..
    rw [NamedExprs.parts, listFrom_names, nil_append,
      listFrom_typed last t.isTypeText, map_append, map_map, map_cons, gs.types_eq,
      NamedExprs.types, replicate_succ', append_assoc]
    exact congrArg (· ++ _) hshared

theorem ParamExprs.types_eq (ps : ParamExprs) :
    (list (joinWith ", " ps.parts)).map (·.type) = ps.types := by
  rw [list, splitTop_list ps.isElement]
  cases ps with
  | unnamed ts =>
    exact types_listFrom (fun p hp => (ts.isTypeText p hp).compact) []
  | named gs => exact gs.types_eq

theorem ResultExpr.resultTypes_eq (r : ResultExpr) : resultTypes r.go = r.types := by
  cases r with
  | none => rfl
  | single t => exact resultTypes_single t.isTypeText
  | list ps =>
    rw [ResultExpr.go, resultTypes_list (wellNested_list fun p hp => (ps.isElement p hp).part)]
    exact ps.types_eq

theorem ResultExpr.map_cppType (r : ResultExpr) : r.types.map cppType = r.cpps := by
  cases r with
  | none => rfl
  | single t =>
    show [cppType t.go] = [t.cpp]
    rw [t.cppType_eq]
  | list ps =>
    show ps.types.map cppType = ps.cpps
    rw [← ps.types_eq, ps.cppType_eq]

/-! ## 5. Definitions -/

theorem SignatureExpr.go_eq (h : SignatureExpr) : h.go =
    headText h.name (joinWith ", " (h.groups.flatMap ParamGroup.parts)) (h.results.go ++ " ") ++ "\x7b" := by
  rw [headText_append, append_assoc]
  rfl

theorem SignatureExpr.parse_go (h : SignatureExpr) : parse h.go = h.signature := by
  have hparams : WellNested (joinWith ", " (h.groups.flatMap ParamGroup.parts)) :=
    wellNested_list fun p hp => (isElement_groups h.groups p hp).part
  have hresults : WellNested (h.results.go ++ " ") :=
    h.results.isResultText.part.wellNested.join (by decide) (.inr (by decide))
  have hbrace : '{' ∉ h.results.go ++ " " := by
    have hno : '{' ∉ h.results.go := fun hc => absurd (h.results.isTypeChar_of_mem _ hc) (by decide)
    simpa using hno
  rw [h.go_eq, show "\x7b" = '{' :: [] from rfl, parse_body h.name hparams hresults,
    parse_headText h.name hparams (topIndex?_of_not_mem hbrace), list_groups, resultTypes_space,
    h.results.resultTypes_eq]
  rfl

theorem SignatureExpr.isMain_signature (h : SignatureExpr) :
    h.signature.isMain = decide (h.name.text = ("main" : Text)) :=
  Bool.beq_eq_decide_eq h.name.text "main"

theorem SignatureExpr.cpp_signature (h : SignatureExpr) : h.signature.cpp = h.cpp := by
  have hresult : cppResult h.results.types = h.results.cpp := by
    rw [← h.results.resultTypes_eq, h.results.cppResult_eq]
  unfold Signature.cpp SignatureExpr.cpp
  rw [h.isMain_signature]
  show "auto " ++ h.name.text ++ "(" ++ cppList (h.groups.flatMap ParamGroup.params) ++ ") -> " ++
    (if decide (h.name.text = "main") = true then ("int" : Text) else cppResult h.results.types) = _
  rw [cppList_groups, hresult]
  simp only [decide_eq_true_eq]

theorem State.registerParams_knownMaps (s : State) (params : List Parameter) :
    ∃ known, s.registerParams params = { s with knownMaps := known } ∧
      ∀ x, x ∈ known ↔ x ∈ s.knownMaps ∨ ∃ p ∈ params, isMapType p.type = true ∧ trim p.name = x := by
  unfold State.registerParams
  induction params generalizing s with
  | nil => exact ⟨s.knownMaps, rfl, fun x => by simp⟩
  | cons p params ih =>
    by_cases hp : isMapType p.type = true
    · obtain ⟨first, hfirst, hmemFirst⟩ := s.registerMap_knownMaps p.name
      obtain ⟨known, hknown, hmem⟩ := ih (s.registerMap p.name)
      refine ⟨known, ?_, fun x => ?_⟩
      · rw [filter_cons_of_pos (p := fun p : Parameter => isMapType p.type) hp, foldl_cons, hknown, hfirst]
      · rw [hmem x, hfirst]
        simp [hmemFirst x, hp, or_assoc]
    · obtain ⟨known, hknown, hmem⟩ := ih s
      refine ⟨known, ?_, fun x => ?_⟩
      · rw [filter_cons_of_neg (p := fun p : Parameter => isMapType p.type) hp, hknown]
      · rw [hmem x]
        simp [hp]

/-- What a definition does to the state: its maps become known, it is declared, and it is under way. -/
def State.define (s : State) (sig : Signature) : State :=
  { s.registerParams sig.params with
    prototypes := s.prototypes ++ (if sig.isMain then [] else [sig.cpp ++ ";"])
    function := some ⟨sig.name, sig.results.map cppType, s.depthBefore⟩ }

theorem functionDefinition_eq (line : Text) (s : State) :
    (Lower.functionDefinition line).run s =
      .ok (if endsWith line "\x7b" then .line ((parse line).cpp ++ " \x7b")
          else .statement (parse line).cpp)
        (s.define (parse line)) := by
  obtain ⟨known, hknown, _⟩ := s.registerParams_knownMaps (parse line).params
  have hprotos : (s.registerParams (parse line).params).prototypes = s.prototypes := by rw [hknown]
  have hdepth : (s.registerParams (parse line).params).depthBefore = s.depthBefore := by rw [hknown]
  unfold Lower.functionDefinition State.define
  rw [← hprotos, ← hdepth]
  dsimp only
  cases (parse line).isMain with
  | true =>
    rw [if_pos rfl, append_nil]
    rfl
  | false => rfl

/-- **Function definitions.** A written signature is read back: name, parameters each with the type
    of its own group, and result types. Its line becomes the C++ header with the opening brace,
    which declares every function but the entry point; the parameters that hold maps, and no other
    names, become known maps; nothing else of the state changes but the function under way. -/
theorem functionDefinition_written (h : SignatureExpr) (s : State) :
    Signature.parse h.go = h.signature ∧
    ∃ known, (Lower.functionDefinition h.go).run s = .ok (.line (h.cpp ++ " \x7b"))
        { s with
          knownMaps := known
          prototypes := s.prototypes ++ h.prototypes
          function := some ⟨h.name.text, h.results.cpps, s.depthBefore⟩ } ∧
      ∀ x, x ∈ known ↔
        x ∈ s.knownMaps ∨ ∃ g ∈ h.groups, g.type.isMap = true ∧ ∃ i ∈ g.names, i.text = x := by
  refine ⟨h.parse_go, ?_⟩
  have hbrace : endsWith h.go "\x7b" = true := by
    rw [h.go_eq]
    exact endsWith_append _ _
  have hprotos : (if h.signature.isMain then [] else [h.cpp ++ ";"]) = h.prototypes := by
    rw [h.isMain_signature]
    simp only [SignatureExpr.prototypes, decide_eq_true_eq]
  have hcpps : h.signature.results.map cppType = h.results.cpps := h.results.map_cppType
  obtain ⟨known, hknown, hmem⟩ := s.registerParams_knownMaps h.signature.params
  refine ⟨known, ?_, fun x => ?_⟩
  · rw [functionDefinition_eq, h.parse_go, if_pos hbrace, State.define, hknown, h.cpp_signature, hprotos, hcpps]
    rfl
  · rw [hmem x]
    refine or_congr_right ?_
    constructor
    · intro ⟨p, hp, hmap, htrim⟩
      obtain ⟨g, hg, hp⟩ := mem_flatMap.mp hp
      obtain ⟨i, hi, rfl⟩ := mem_map.mp hp
      rw [i.isElement.trim_eq] at htrim
      rw [g.type.isMapType_go] at hmap
      exact ⟨g, hg, hmap, i, hi, htrim⟩
    · intro ⟨g, hg, hmap, i, hi, hx⟩
      refine ⟨⟨i.text, g.type.go⟩, mem_flatMap.mpr ⟨g, hg, mem_map.mpr ⟨i, hi, rfl⟩⟩, ?_, ?_⟩
      · rw [g.type.isMapType_go]
        exact hmap
      · rw [i.isElement.trim_eq]
        exact hx

end Linewise
