/-
  A struct becomes one class, put together in three places.

  The line that opens a struct opens the class; each field adds its members; the closing brace adds
  the method that writes an instance. The bases are known only then, so the line that opened the class
  is written again.
-/
import Linewise.Proofs.FusedTags

namespace Linewise

open Text List StatementKind State Run

variable {g₃ line margin name rest : Text} {f : StructField} {r : Run} {shown : List Text} {s : State}
  {c : Char} {body : List BodyLine} {d : StructDraft}

/-! ## 1. The text of a class -/

/-- The bases behind the name of a class. -/
def baseClause : List Text → Text
  | [] => []
  | base :: more => " : public " ++ (base ++ more.flatMap fun b => (", public " : Text) ++ b)

/-- The line that opens a class. -/
def classHead (name : Text) (bases : List Text) : Text :=
  "class " ++ (name ++ (baseClause bases ++ " \x7b public:"))

/-- The statements that write what is shown, a space between neighbours. -/
def writeStatements : List Text → List Text
  | [] => []
  | [shown] => ["        _format_output(ss, " ++ (shown ++ ");")]
  | shown :: next :: more =>
    ("        _format_output(ss, " ++ (shown ++ ");")) :: "        ss << \" \";" :: writeStatements (next :: more)

/-- What follows the members of a class: its method, and the closing brace. -/
def classEnd (shown : List Text) : List Text :=
  "    std::string _str() const \x7b" :: "        std::stringstream ss;" :: "        ss << \"\x7b\";" ::
    (writeStatements shown ++
      (["        ss << \"\x7d\";", "        return ss.str();", "    \x7d", "\x7d;"] : List Text))

theorem joinWith_bases (base : Text) (more : List Text) :
    joinWith ", " ((base :: more).map fun b => ("public " : Text) ++ b)
      = "public " ++ (base ++ more.flatMap fun b => (", public " : Text) ++ b) := by
  induction more generalizing base with
  | nil => rw [map_singleton, joinWith_singleton, flatMap_nil, append_nil]
  | cons next more ih =>
    rw [map_cons, map_cons, joinWith_cons_cons, ← map_cons, ih, flatMap_cons]
    simp

theorem classOpener_eq (name : Text) (bases : List Text) : classOpener name bases = classHead name bases := by
  cases bases with
  | nil =>
    show "class " ++ name ++ " \x7b public:" = _
    rw [append_assoc]
    rfl
  | cons base more =>
    show "class " ++ name ++ " : " ++ joinWith ", " ((base :: more).map fun b => "public " ++ b)
      ++ " \x7b public:" = _
    rw [joinWith_bases, append_assoc, append_assoc, append_assoc]
    rfl

theorem map_fieldStatements (shown : List Text) :
    (fieldStatements shown).map (fun s => ("        " : Text) ++ s) = writeStatements shown := by
  unfold fieldStatements
  fun_induction writeStatements shown with
  | case1 => rfl
  | case2 e => simp
  | case3 e next more ih =>
    rw [map_cons, map_cons, intersperse_cons_cons, map_cons, map_cons]
    rw [map_cons] at ih
    rw [ih]
    simp

theorem strMethod_append (shown : List Text) : strMethod shown ++ "\n\x7d;" = unlines (classEnd shown) := by
  have hlines : classEnd shown = (("    std::string _str() const \x7b" : Text) ::
      ((strBody shown).map (fun s => ("        " : Text) ++ s) ++ (["    \x7d"] : List Text)))
        ++ (["\x7d;"] : List Text) := by
    unfold classEnd strBody
    rw [map_cons, map_cons, map_append, map_fieldStatements, cons_append, cons_append,
      cons_append, cons_append, cons_append, append_assoc, append_assoc]
    rfl
  rw [hlines, unlines_append (by simp) (by simp), unlines_singleton]
  rfl

/-- A line of output: no newline, and something at its end that is no carriage return. -/
def IsLine (l : Text) : Prop := '\n' ∉ l ∧ ∃ c ∈ l.getLast?, c ≠ '\r'

instance (l : Text) : Decidable (IsLine l) :=
  decidable_of_iff ('\n' ∉ l ∧ l.getLast?.any (· != '\r') = true) (by
    unfold IsLine
    cases l.getLast? <;> simp)

theorem isLine_append {a b : Text} (ha : '\n' ∉ a) (hb : IsLine b) : IsLine (a ++ b) := by
  obtain ⟨hn, c, hc, hr⟩ := hb
  refine ⟨not_mem_append ha hn, c, ?_, hr⟩
  rw [Option.mem_def, getLast?_append_of_ne_nil]
  · exact hc
  · rintro rfl
    cases hc

theorem lines_of_isLine {l : Text} (h : IsLine l) : lines l = [l] := by
  have hself : lines (unlines [l]) = [l] := lines_unlines (cons_ne_nil _ _) fun m hm => by
    rw [mem_singleton.mp hm]
    exact h
  rwa [unlines_singleton] at hself

theorem isLine_classHead {bases : List Text} (hname : '\n' ∉ name) (hbases : ∀ b ∈ bases, '\n' ∉ b) :
    IsLine (classHead name bases) := by
  have hclause : '\n' ∉ baseClause bases := by
    cases bases with
    | nil => exact not_mem_nil
    | cons base more =>
      obtain ⟨hbase, hmore⟩ := forall_mem_cons.mp hbases
      refine not_mem_append (by decide) (not_mem_append hbase fun hc => ?_)
      obtain ⟨b, hb, hc⟩ := mem_flatMap.mp hc
      exact not_mem_append (show '\n' ∉ (", public " : Text) by decide) (hmore b hb) hc
  exact isLine_append (by decide) (isLine_append hname (isLine_append hclause (by decide)))

theorem isLine_writeStatements (h : ∀ e ∈ shown, '\n' ∉ e) : ∀ l ∈ writeStatements shown, IsLine l := by
  have hwrite {e : Text} (he : '\n' ∉ e) : IsLine ("        _format_output(ss, " ++ (e ++ ");")) :=
    isLine_append (by decide) (isLine_append he (by decide))
  fun_induction writeStatements shown with
  | case1 => nofun
  | case2 e => simpa using hwrite (h e (by simp))
  | case3 e next more ih =>
    rw [forall_mem_cons, forall_mem_cons]
    exact ⟨hwrite (h e (by simp)), by decide, ih (forall_mem_cons.mp h).2⟩

theorem isLine_classEnd (h : ∀ e ∈ shown, '\n' ∉ e) : ∀ l ∈ classEnd shown, IsLine l := by
  unfold classEnd
  rw [forall_mem_cons, forall_mem_cons, forall_mem_cons, forall_mem_append]
  exact ⟨by decide, by decide, by decide, isLine_writeStatements h, by decide⟩

theorem lines_strMethod (h : ∀ e ∈ shown, '\n' ∉ e) : lines (strMethod shown ++ "\n\x7d;") = classEnd shown := by
  rw [strMethod_append]
  exact lines_unlines (cons_ne_nil _ _) (isLine_classEnd h)

theorem length_writeStatements (shown : List Text) : (writeStatements shown).length = 2 * shown.length - 1 := by
  fun_induction writeStatements shown with
  | case1 => rfl
  | case2 => rfl
  | case3 e next more ih =>
    simp only [length_cons] at ih ⊢
    omega

theorem length_classEnd (shown : List Text) : (classEnd shown).length = 7 + (2 * shown.length - 1) := by
  unfold classEnd
  rw [length_cons, length_cons, length_cons, length_append, length_writeStatements]
  simp
  omega

/-! ## 2. Fields one after the other -/

namespace State

/-- The struct under way takes fields one after the other. -/
def takeFields (s : State) (fields : List StructField) : State := fields.foldl takeField s

/-- The state with another place in the source. -/
def place (s : State) (number depthBefore : Nat) : State := { s with lineNumber := number, depthBefore := depthBefore }

theorem SparesMaps.takeField {g : State → State} (h : SparesMaps g)
    (hstruct : ∀ s fields bases, (g s).withFields fields bases = g (s.withFields fields bases)) (s : State)
    (f : StructField) : (g s).takeField f = g (s.takeField f) := by
  unfold State.takeField
  rw [show f.maps.foldl State.registerMap (g s) = _ from h.registerMaps id f.maps s]
  exact hstruct _ _ _

theorem takeField_place (s : State) (number before : Nat) (f : StructField) :
    (s.place number before).takeField f = (s.takeField f).place number before :=
  SparesMaps.takeField (g := (·.place number before)) ⟨fun _ => rfl, fun _ _ => rfl⟩ (fun _ _ _ => rfl) s f

theorem takeFields_place (s : State) (number before : Nat) (fields : List StructField) :
    (s.place number before).takeFields fields = (s.takeFields fields).place number before :=
  foldl_hom (place · number before) fun s => s.takeField_place number before

theorem registerMaps_withFields (s : State) (fields bases names : List Text) :
    names.foldl registerMap (s.withFields fields bases) = (names.foldl registerMap s).withFields fields bases :=
  SparesMaps.registerMaps (g := (·.withFields fields bases)) ⟨fun _ => rfl, fun _ _ => rfl⟩ id names s

theorem withFields_withFields (s : State) (fields bases fields' bases' : List Text) :
    (s.withFields fields bases).withFields fields' bases' = s.withFields (fields ++ fields') (bases ++ bases') := by
  unfold withFields
  cases s.struct with
  | none => rfl
  | some d => simp only [Option.map_some, append_assoc]

theorem takeFields_eq (s : State) (fields : List StructField) :
    s.takeFields fields = ((fields.flatMap (·.maps)).foldl registerMap s).withFields (fields.flatMap (·.shown))
      (fields.flatMap (·.bases)) := by
  induction fields generalizing s with
  | nil =>
    show s = s.withFields [] []
    unfold withFields
    cases hd : s.struct with
    | none => rw [Option.map_none, ← hd]
    | some d => rw [Option.map_some, append_nil, append_nil, ← hd]
  | cons f fields ih =>
    show (s.takeField f).takeFields fields = _
    rw [ih, takeField, registerMaps_withFields, withFields_withFields, ← foldl_append]
    rfl

theorem mem_registerMaps_iff (names : List Text) (s : State) (x : Text) :
    x ∈ (names.foldl registerMap s).knownMaps ↔ x ∈ s.knownMaps ∨ ∃ n ∈ names, trim n = x := by
  induction names generalizing s with
  | nil => simp
  | cons n names ih =>
    obtain ⟨known, hknown, hmem⟩ := s.registerMap_knownMaps n
    rw [foldl_cons, ih, hknown, hmem]
    simp [or_assoc]

end State

theorem StructField.trim_of_mem_maps {x : Text} (hx : x ∈ f.maps) : trim x = x := by
  obtain ⟨body, tag⟩ := f
  cases body with
  | embedded name => cases hx
  | named earlier last gap type =>
    change x ∈ if isMapType type then (earlier ++ [last]).map trim else [] at hx
    split at hx
    · obtain ⟨n, _, rfl⟩ := mem_map.mp hx
      exact trim_trim n
    · cases hx

namespace State

/-- The maps that are known once the fields are taken. -/
def knownWith (s : State) (fields : List StructField) : List Text :=
  ((fields.flatMap (·.maps)).foldl registerMap s).knownMaps

theorem mem_knownWith_iff (s : State) (fields : List StructField) (x : Text) :
    x ∈ s.knownWith fields ↔ x ∈ s.knownMaps ∨ x ∈ fields.flatMap (·.maps) := by
  unfold knownWith
  rw [mem_registerMaps_iff]
  refine or_congr_right ⟨?_, fun hx => ?_⟩
  · rintro ⟨n, hn, rfl⟩
    obtain ⟨f, _, hf⟩ := mem_flatMap.mp hn
    rwa [StructField.trim_of_mem_maps hf]
  · obtain ⟨f, _, hf⟩ := mem_flatMap.mp hx
    exact ⟨x, hx, StructField.trim_of_mem_maps hf⟩

theorem knownWith_congr {u : State} (h : s.knownMaps = u.knownMaps) (fields : List StructField) :
    s.knownWith fields = u.knownWith fields := by
  unfold knownWith
  generalize fields.flatMap (·.maps) = names
  induction names generalizing s u with
  | nil => exact h
  | cons n names ih =>
    refine ih ?_
    unfold registerMap
    rw [h]
    split <;> simp only [h]

theorem takeFields_shape (s : State) (fields : List StructField) :
    s.takeFields fields = ({ s with knownMaps := s.knownWith fields } : State).withFields
      (fields.flatMap (·.shown)) (fields.flatMap (·.bases)) := by
  obtain ⟨known, hknown⟩ := s.foldl_registerMap_eq id (fields.flatMap (·.maps))
  have hmaps : (fields.flatMap (·.maps)).foldl registerMap s = { s with knownMaps := known } := hknown
  rw [takeFields_eq, knownWith, hmaps]

end State

/-! ## 3. The head of a struct -/

/-- The words in front of a body, with white space between them. -/
def structHead (g₁ name g₂ : Text) : Text := "type " ++ (g₁ ++ (name ++ (g₂ ++ "struct")))

section Head

variable {g₁ name g₂ : Text} (hid : isIdentifier name = true) (h₁ : Blank g₁) (h₂ : Blank g₂) (hne : g₂ ≠ [])

theorem solid_struct (hrest : SolidEnd rest) : Solid (("struct" : Text) ++ rest) := by
  refine ⟨solidStart_cons rfl _, ?_⟩
  cases rest with
  | nil => exact solidEnd_of_last rfl rfl
  | cons d rest => exact hrest.append (cons_ne_nil d rest) _

include hid h₁ h₂ hne

theorem Lower.typeDeclaration_struct (hrest : SolidEnd rest) :
    Lower.typeDeclaration (structHead g₁ name g₂ ++ rest)
      = Lower.structDeclaration name (trim rest) (structHead g₁ name g₂ ++ rest) := by
  have hsolid := solid_struct hrest
  obtain ⟨c, gap, rfl⟩ := exists_cons_of_ne_nil hne
  obtain ⟨hc, hgap⟩ := forall_mem_cons.mp h₂
  have hbody : trim (stripStart "type " (structHead g₁ name (c :: gap) ++ rest))
      = name ++ c :: (gap ++ ("struct" ++ rest)) := by
    have hstrip : stripStart "type " (structHead g₁ name (c :: gap) ++ rest)
        = g₁ ++ (name ++ c :: (gap ++ ("struct" ++ rest))) := by
      unfold structHead
      rw [append_assoc, stripStart_append]
      simp
    have hwhole : Solid (name ++ c :: (gap ++ ("struct" ++ rest))) :=
      solid_around (solid_of_isIdentifier hid) (by rintro rfl; cases hid) hsolid (by simp) (c :: gap)
    rw [hstrip, trim_blank_append h₁, trim_eq_self_of_solid hwhole]
  have hafter : trim (gap ++ ("struct" ++ rest)) = "struct" ++ rest := by
    rw [trim_blank_append hgap, trim_eq_self_of_solid hsolid]
  unfold Lower.typeDeclaration
  rw [hbody, splitOnce?_append (not_isBlank_of_isIdentifier hid) hc]
  simp only [hid, hafter, Bool.not_true, Bool.false_eq_true, if_false]
  rw [show stripStart? "struct" ("struct" ++ rest) = some rest from rfl]

omit hne in
theorem bare_structHead : Bare (structHead g₁ name g₂) :=
  Bare.append (by decide) ((bare_of_blank h₁).append ((bare_of_isIdentifier hid).append
    ((bare_of_blank h₂).append (by decide))))

omit hne in
theorem not_mem_structHead (hb : isBlank c = false) (hw : isWordChar c = false) :
    c ∉ structHead g₁ name g₂ := by
  have hgap {g : Text} (hg : Blank g) : c ∉ g := not_mem_of_blank hg hb
  have hkey {w : Text} (hkey : ∀ d ∈ w, isBlank d = true ∨ isWordChar d = true) : c ∉ w := fun hc => by
    rcases hkey c hc with h | h
    · rw [h] at hb
      cases hb
    · rw [h] at hw
      cases hw
  exact not_mem_append (hkey (by decide)) (not_mem_append (hgap h₁)
    (not_mem_append (not_mem_of_isIdentifier hid hw) (not_mem_append (hgap h₂) (hkey (by decide)))))

omit hne in
theorem bare_headGap (h₃ : Blank g₃) : Bare (structHead g₁ name g₂ ++ g₃) :=
  (bare_structHead hid h₁ h₂).append (bare_of_blank h₃)

omit hne in
theorem not_mem_headGap (h₃ : Blank g₃) (hb : isBlank c = false) (hw : isWordChar c = false) :
    c ∉ structHead g₁ name g₂ ++ g₃ :=
  not_mem_append (not_mem_structHead hid h₁ h₂ hb hw) (not_mem_of_blank h₃ hb)

omit hid h₁ h₂ hne in
theorem ofCode_structHead (hlast : endsWith (structHead g₁ name g₂ ++ rest) "(" = false) :
    ofCode (structHead g₁ name g₂ ++ rest) = .typeDeclaration := by
  refine ofCode_keyword (w := "type") hlast ?_ (by decide) rfl
  have hword := firstWord_append (w := "type")
    (r := (" " : Text) ++ (g₁ ++ (name ++ (g₂ ++ "struct"))) ++ rest) (by decide) fun c hc => by
      obtain rfl : ' ' = c := Option.some.inj hc
      decide
  exact hword

end Head

/-- A line that opens a struct of the name. -/
structure OpensStruct (name line : Text) : Prop where
  isName : isIdentifier name = true
  text : ∃ g₁ g₂ g₃, Blank g₁ ∧ (Blank g₂ ∧ g₂ ≠ []) ∧ Blank g₃ ∧
    trim line = structHead g₁ name g₂ ++ (g₃ ++ "\x7b")

/-! ## 4. Between two lines of a body -/

/-- Inside a struct that opens in the state, before its first field. -/
def State.openStruct (s : State) (name : Text) (opener : Nat) : State :=
  { s with
    depth := s.depth + 1
    blocks := ⟨.structBody, s.depth⟩ :: s.blocks
    hasAggregates := true
    struct := some ⟨name, [], [], some opener⟩ }

/-- Behind a struct: its maps are known, and that there was a struct. -/
def State.pastStruct (s : State) (fields : List StructField) : State :=
  { s with knownMaps := s.knownWith fields, hasAggregates := true, struct := none }

/-- **Inside a struct** that was opened in the run `r₀`, after some of its fields and their members. -/
structure InStruct (r₀ : Run) (margin name : Text) (fields : List StructField) (members : List Text) (r : Run) :
    Prop where
  pending : r.pending = none
  state : r.state = ((r₀.state.openStruct name r₀.output.length).takeFields fields).place r.state.lineNumber
    r.state.depthBefore
  output : r.output = r₀.output ++ (margin ++ classHead name []) :: members
  firstFunction : r.firstFunction = r₀.firstFunction

theorem Run.Between.openStruct_step (h : r.Between) (number : Nat) (hline : OpensStruct name line) :
    ∃ r', r.sourceLine number line = .ok r' ∧ InStruct r (indentation line) name [] [] r' := by
  obtain ⟨hid, g₁, g₂, g₃, h₁, ⟨h₂, hne⟩, h₃, htext⟩ := hline
  have hassoc : structHead g₁ name g₂ ++ (g₃ ++ "\x7b") = structHead g₁ name g₂ ++ g₃ ++ "\x7b" :=
    (append_assoc ..).symm
  have hplain : Plain (structHead g₁ name g₂ ++ (g₃ ++ "\x7b")) := by
    have hmem {c : Char} (hb : isBlank c = false) (hw : isWordChar c = false) (hc : c ≠ '{') :
        c ∉ structHead g₁ name g₂ ++ g₃ ++ "\x7b" :=
      not_mem_append (not_mem_headGap hid h₁ h₂ h₃ hb hw) (by simpa using hc)
    rw [hassoc]
    exact plain_of_not_mem (hmem rfl rfl (by decide)) (hmem rfl rfl (by decide)) (endsWith_concat_of_ne _ (by decide))
  have hcode : (structHead g₁ name g₂ ++ (g₃ ++ "\x7b") : Text) ≠ [] := cons_ne_nil _ _
  have hbrace : startsWith (structHead g₁ name g₂ ++ (g₃ ++ "\x7b")) "\x7d" = false := rfl
  have hkind : ofCode (structHead g₁ name g₂ ++ (g₃ ++ "\x7b")) = .typeDeclaration := by
    refine ofCode_structHead ?_
    rw [hassoc]
    exact endsWith_concat_of_ne _ (by decide)
  have hdepth : braceDepth r.state.depth (structHead g₁ name g₂ ++ (g₃ ++ "\x7b")) = r.state.depth + 1 := by
    rw [hassoc]
    exact (bare_headGap hid h₁ h₂ h₃).wellNested.braceDepth_open _
  have hlower (s : State) : (Lower.line .typeDeclaration (structHead g₁ name g₂ ++ (g₃ ++ "\x7b"))).run s
      = .ok (.line (classOpener name [])) ((s.enterStruct name).enterBlock .structBody s.depthBefore) := by
    have htrim : trim (g₃ ++ "\x7b") = "\x7b" := trim_blank_append h₃ _
    show (Lower.typeDeclaration (structHead g₁ name g₂ ++ (g₃ ++ "\x7b"))).run s = _
    rw [Lower.typeDeclaration_struct hid h₁ h₂ hne, htrim]
    · rfl
    · intro c hc
      rw [getLast?_append_of_ne_nil _ (by decide)] at hc
      exact Option.some.inj hc ▸ rfl
  have hlayout : layout (indentation line) false (Lowered.line (classOpener name [])).render none
      = [indentation line ++ classHead name []] := by
    show (lines (classOpener name [])).map (indentation line ++ ·) = _
    rw [classOpener_eq, lines_of_isLine (isLine_classHead (not_mem_of_isIdentifier hid rfl)
      fun _ hb => absurd hb not_mem_nil)]
    rfl
  -- from here on only these facts about the line count
  generalize structHead g₁ name g₂ ++ (g₃ ++ "\x7b") = code at htext hplain hcode hbrace hkind hdepth hlower
  have hclass : (r.stateAt number code).classify code = .typeDeclaration := by
    rw [h.classify_eq number hcode hplain hbrace, hkind]
  have hsource := sourceLine_kind number htext hplain hcode h.pending h.block?_ne hclass rfl
  rw [hlower] at hsource
  refine ⟨_, hsource, h.pending, ?_, congrArg (r.output ++ ·) hlayout, rfl⟩
  show noteOpener (((r.stateAt number code).enterStruct name).enterBlock .structBody r.state.depth)
    r.output.length = (r.state.openStruct name r.output.length).place number r.state.depth
  unfold stateAt countBraces enterBlock openStruct
  simp only [hdepth]
  rfl

/-- A line of a body: a field, or nothing. -/
structure BodyLine where
  line : Text
  field : Option StructField

namespace BodyLine

/-- A line of the field, or white space. -/
def Reads (b : BodyLine) : Prop :=
  match b.field with
  | some f => trim b.line = f.text ∧ f.Written
  | none => Blank b.line

/-- The members of the field; an empty line stays one. -/
def output (b : BodyLine) : List Text :=
  match b.field with
  | some f => f.members.map (indentation b.line ++ ·)
  | none => [[]]

/-- The same for what is read of the field. -/
def readOutput (b : BodyLine) : List Text :=
  match b.field with
  | some f => (f.readAs.flatMap (·.members)).map (indentation b.line ++ ·)
  | none => [[]]

end BodyLine

/-- The fields of a body, in order. -/
def fieldsOf (body : List BodyLine) : List StructField := body.flatMap (·.field.toList)

theorem mem_fieldsOf {b : BodyLine} (hb : b ∈ body) (hf : b.field = some f) : f ∈ fieldsOf body :=
  mem_flatMap.mpr ⟨b, hb, Option.mem_toList.mpr hf⟩

theorem flatMap_readOutput (h : ∀ f ∈ fieldsOf body, ¬ f.Fused) :
    body.flatMap (·.readOutput) = body.flatMap (·.output) := by
  refine flatMap_congr fun b hb => ?_
  unfold BodyLine.readOutput BodyLine.output
  split
  · rename_i f hf
    rw [StructField.readAs, if_neg (h f (mem_fieldsOf hb hf))]
    simp
  · rfl

theorem FieldBody.OneLine.isLine_member (hf : f.body.OneLine) : ∀ l ∈ f.members, IsLine l := by
  obtain ⟨body, tag⟩ := f
  cases body with
  | embedded type => exact fun l hl => absurd hl not_mem_nil
  | named earlier last gap type =>
    obtain ⟨hnames, htype⟩ := hf
    intro l hl
    obtain ⟨n, hn, rfl⟩ := mem_map.mp hl
    obtain ⟨m, hm, rfl⟩ := mem_map.mp hn
    have hname : '\n' ∉ trim m := not_mem_of_isIdentifier (hnames m hm) rfl
    refine isLine_append (not_mem_append (not_mem_append ?_ (by decide)) hname) (by decide)
    exact GoType.newline_not_mem_cppType htype

theorem FieldBody.OneLine.layout_lowered (hf : f.body.OneLine) (indent : Text) :
    layout indent false f.lowered.render none = f.members.map (indent ++ ·) := by
  have hlines := hf.isLine_member
  obtain ⟨body, tag⟩ := f
  cases body with
  | embedded type => rfl
  | named earlier last gap type =>
    show (lines (unlines _)).map (indent ++ ·) = _
    rw [lines_unlines (by simp [StructField.members, StructField.names]) hlines]

theorem StructField.Written.run_code (hf : f.Written) (hone : f.Fused → '\n' ∉ f.body.text)
    (hs : s.struct.isSome = true) :
    ∃ l, (Lower.structField f.code).run s = .ok l (s.takeFields f.readAs) ∧
      ∀ indent, layout indent false l.render none = (f.readAs.flatMap (·.members)).map (indent ++ ·) := by
  by_cases h : f.Fused
  · have hread := hf.body.shortened_readFrom h.1 (hone h)
    have hline := hf.stripTag_fused h
    unfold StructField.readAs
    rw [if_pos h]
    cases hshort : f.body.shortened with
    | none =>
      rw [hshort] at hread
      exact ⟨.dropped, Lower.structField_blank hline hread, fun _ => rfl⟩
    | some b =>
      rw [hshort] at hread
      obtain ⟨hne, hb, hlines⟩ := hread
      refine ⟨_, hb.structField_run hne hline .none hs, fun indent => ?_⟩
      rw [hlines.layout_lowered]
      simp
  · unfold StructField.readAs
    rw [if_neg h]
    have hvalid : f.Valid := ⟨hf, h⟩
    refine ⟨_, hvalid.structField_run (hf.stripTag_eq_body hvalid.startsTag) hs, fun indent => ?_⟩
    rw [hf.body.oneLine.layout_lowered]
    simp

namespace InStruct

variable {r₀ r : Run} {margin name : Text} {fields : List StructField} {members : List Text}
  (h : InStruct r₀ margin name fields members r)

include h

theorem shape : r.state = ({ r₀.state with
    lineNumber := r.state.lineNumber
    depthBefore := r.state.depthBefore
    depth := r₀.state.depth + 1
    blocks := ⟨.structBody, r₀.state.depth⟩ :: r₀.state.blocks
    hasAggregates := true
    knownMaps := r₀.state.knownWith fields
    struct := some ⟨name, fields.flatMap (·.shown), fields.flatMap (·.bases), some r₀.output.length⟩ } : State) := by
  have hknown : (r₀.state.openStruct name r₀.output.length).knownWith fields = r₀.state.knownWith fields :=
    knownWith_congr (s := r₀.state.openStruct name r₀.output.length) (u := r₀.state) rfl fields
  refine h.state.trans ?_
  rw [takeFields_shape, hknown]
  rfl

theorem blocks : r.state.blocks = ⟨.structBody, r₀.state.depth⟩ :: r₀.state.blocks := by
  rw [h.shape]

theorem block?_eq : r.state.block? = some .structBody := by
  unfold block?
  rw [h.blocks]
  rfl

theorem block?_ne : r.state.block? ≠ some .blockComment := by
  rw [h.block?_eq]
  decide

theorem depth_eq : r.state.depth = r₀.state.depth + 1 := by
  rw [h.shape]

theorem classify_eq {t : Text} (number : Nat) (hne : t ≠ []) (hcomment : startsWith t "//" = false) :
    (r.stateAt number t).classify t
      = if startsWith t "\x7d" && decide (braceDepth r.state.depth t ≤ r₀.state.depth) then .blockClose .structBody
        else .structField := by
  have hb : (r.stateAt number t).block? = some .structBody := h.block?_eq
  have hcloses : (r.stateAt number t).closesBlock t (r.stateAt number t).depth
      = (startsWith t "\x7d" && decide (braceDepth r.state.depth t ≤ r₀.state.depth)) := by
    unfold closesBlock
    rw [show (r.stateAt number t).blocks = _ from h.blocks]
    rfl
  unfold classify
  rw [if_neg (by simpa using hne), hb]
  simp only [hcomment, hcloses]
  rfl

omit h in
theorem noteOpener_eq (name : Text) (opener : Nat) (fields : List StructField) (number before index : Nat) :
    (((r₀.state.openStruct name opener).takeFields fields).place number before).noteOpener index
      = ((r₀.state.openStruct name opener).takeFields fields).place number before := by
  rw [takeFields_shape]
  rfl

theorem field_step (number : Nat) (hline : trim line = f.text) (hf : f.Written)
    (hone : f.Fused → '\n' ∉ f.body.text) :
    ∃ r', r.sourceLine number line = .ok r' ∧ InStruct r₀ margin name (fields ++ f.readAs)
      (members ++ (f.readAs.flatMap (·.members)).map (indentation line ++ ·)) r' := by
  obtain ⟨c, _, hhead, _, hslash, hbrace⟩ := hf.head?_text
  have hclass : (r.stateAt number f.code).classify f.code = .structField := by
    rw [h.classify_eq number hf.code_ne_nil (startsWith_of_head? hhead rfl hslash),
      show startsWith f.code "\x7d" = false from startsWith_of_head? hhead rfl hbrace, Bool.false_and,
      if_neg Bool.false_ne_true]
  have hstate : r.stateAt number f.code
      = ((r₀.state.openStruct name r₀.output.length).takeFields fields).place number r.state.depth := by
    unfold stateAt countBraces
    rw [show ({ r.state with lineNumber := number } : State).depth = r.state.depth from rfl,
      braceDepth_of_unclosed? hf.brackets_code, h.state]
    rfl
  have hsome : (((r₀.state.openStruct name r₀.output.length).takeFields fields).place number
      r.state.depth).struct.isSome = true := by
    rw [takeFields_shape]
    rfl
  obtain ⟨l, hlower, hlayout⟩ := hf.run_code hone hsome
  have hrun : (Lower.line .structField f.code).run (r.stateAt number f.code) = .ok l
      (((r₀.state.openStruct name r₀.output.length).takeFields (fields ++ f.readAs)).place number r.state.depth) := by
    rw [hstate]
    refine hlower.trans ?_
    rw [takeFields_place, takeFields, takeFields, takeFields, foldl_append]
  have hsource := sourceLine_code number (hf.lineParts?_eq hline) hf.code_ne_nil h.pending h.block?_ne hclass
    rfl
  rw [hrun] at hsource
  refine ⟨_, hsource, h.pending, noteOpener_eq .., ?_, h.firstFunction⟩
  show r.output ++ layout (indentation line) false l.render none = _
  rw [hlayout, h.output, append_assoc, cons_append]

theorem blank_step (number : Nat) (hline : Blank line) :
    ∃ r', r.sourceLine number line = .ok r' ∧ InStruct r₀ margin name fields (members ++ [[]]) r' := by
  have hsource := sourceLine_plain number (trim_eq_nil_iff.mpr hline) (by decide) h.pending h.block?_ne
  refine ⟨_, hsource, h.pending, ?_, ?_, h.firstFunction⟩
  · rw [h.state]
    rfl
  · show r.output ++ [[]] = _
    rw [h.output, append_assoc, cons_append]

theorem line_step {b : BodyLine} (number : Nat) (hb : b.Reads)
    (hone : ∀ f ∈ b.field, f.Fused → '\n' ∉ f.body.text) :
    ∃ r', r.sourceLine number b.line = .ok r' ∧
      InStruct r₀ margin name (fields ++ b.field.toList.flatMap (·.readAs)) (members ++ b.readOutput) r' := by
  obtain ⟨line, field⟩ := b
  cases field with
  | some f =>
    rw [Option.toList_some, flatMap_singleton]
    exact h.field_step number hb.1 hb.2 (hone f rfl)
  | none =>
    rw [Option.toList_none, flatMap_nil, append_nil]
    exact h.blank_step number hb

/-- The induction is on the lines: members pile up in the output. -/
theorem lines_run (hbody : ∀ b ∈ body, b.Reads) (hone : ∀ f ∈ fieldsOf body, f.Fused → '\n' ∉ f.body.text)
    (number : Nat) :
    ∃ r', r.sourceLines number (body.map (·.line)) = .ok r' ∧
      InStruct r₀ margin name (fields ++ (fieldsOf body).flatMap (·.readAs))
        (members ++ body.flatMap (·.readOutput)) r' := by
  induction body generalizing r fields members number with
  | nil =>
    refine ⟨r, rfl, ?_⟩
    rwa [fieldsOf, flatMap_nil, flatMap_nil, flatMap_nil, append_nil, append_nil]
  | cons b body ih =>
    obtain ⟨hb, hrest⟩ := forall_mem_cons.mp hbody
    rw [fieldsOf, flatMap_cons, forall_mem_append] at hone
    obtain ⟨r₁, hrun₁, h₁⟩ := h.line_step number hb fun f hf => hone.1 f (Option.mem_toList.mpr hf)
    obtain ⟨r₂, hrun₂, h₂⟩ := ih h₁ hrest hone.2 (number + 1)
    refine ⟨r₂, ?_, ?_⟩
    · rw [map_cons, sourceLines, hrun₁]
      exact hrun₂
    · rwa [fieldsOf, flatMap_cons, flatMap_cons, flatMap_append, ← append_assoc, ← append_assoc]

end InStruct

/-! ## 5. The end of a body -/

theorem reopenClass_eq (hmargin : Blank margin) (shown bases before after : List Text) :
    reopenClass (some ⟨name, shown, bases, some before.length⟩) (before ++ (margin ++ classHead name []) :: after)
      = before ++ (margin ++ classHead name bases) :: after := by
  have hindent : indentation (margin ++ classHead name []) = margin := by
    unfold indentation
    rw [takeWhile_append_of_pos hmargin]
    exact append_nil margin
  cases bases with
  | nil => rfl
  | cons base more =>
    show (before ++ (margin ++ classHead name []) :: after).modify before.length _ = _
    rw [modify_eq_take_cons_drop (by simp)]
    simp [hindent, classOpener_eq]

theorem FieldBody.OneLine.newline_not_mem_shown (hf : f.body.OneLine) : ∀ e ∈ f.shown, '\n' ∉ e := by
  obtain ⟨body, tag⟩ := f
  cases body with
  | embedded type =>
    intro e he
    rw [mem_singleton.mp he]
    exact not_mem_append (not_mem_append (by decide) hf) (by decide)
  | named earlier last gap type =>
    intro e he
    obtain ⟨n, hn, rfl⟩ := mem_map.mp he
    exact not_mem_of_isIdentifier (hf.1 n hn) rfl

theorem Lower.structEnd_run (hs : s.struct = some d) :
    (Lower.line (.blockClose .structBody) "\x7d").run s
      = .ok (.line (strMethod d.fields ++ "\n\x7d;")) { s.exitBlock with struct := none } := by
  cases s
  subst hs
  rfl

theorem Run.codeLine_structEnd (indent : Text)
    (hclass : (r.state.countBraces "\x7d").classify "\x7d" = .blockClose .structBody)
    (hd : r.state.struct = some d) :
    r.codeLine indent "\x7d" none false = .ok { r with
      state := { (r.state.countBraces "\x7d").exitBlock with struct := none }
      output := reopenClass (some d) r.output
        ++ layout indent false (some (strMethod d.fields ++ "\n\x7d;")) none } := by
  have hrun := Lower.structEnd_run (s := r.state.countBraces "\x7d") hd
  unfold codeLine
  simp only [hclass, hrun]
  rw [show (r.state.countBraces "\x7d").struct = some d from hd]
  rfl

theorem InStruct.close_step {r₀ : Run} {fields : List StructField} {members : List Text}
    (h : InStruct r₀ margin name fields members r) (hmargin : Blank margin) (hfields : ∀ f ∈ fields, f.body.OneLine)
    (number : Nat) (hline : trim line = "\x7d") :
    r.sourceLine number line = .ok { r₀ with
      pending := none
      output := r₀.output ++ (margin ++ classHead name (fields.flatMap (·.bases))) ::
        (members ++ (classEnd (fields.flatMap (·.shown))).map (indentation line ++ ·))
      state := (r₀.state.pastStruct fields).place number (r₀.state.depth + 1) } := by
  have hdepth : braceDepth r.state.depth "\x7d" = r₀.state.depth := by
    rw [h.depth_eq]
    rfl
  have hclass : (r.stateAt number "\x7d").classify "\x7d" = .blockClose .structBody := by
    rw [h.classify_eq number (by decide) rfl, hdepth, decide_eq_true (Nat.le_refl _)]
    rfl
  have hshown : ∀ e ∈ fields.flatMap (·.shown), '\n' ∉ e := fun e he => by
    obtain ⟨f, hf, he⟩ := mem_flatMap.mp he
    exact (hfields f hf).newline_not_mem_shown e he
  have hdraft : r.state.struct
      = some ⟨name, fields.flatMap (·.shown), fields.flatMap (·.bases), some r₀.output.length⟩ := by
    rw [h.shape]
  have hlayout : layout (indentation line) false (some (strMethod (fields.flatMap (·.shown)) ++ "\n\x7d;")) none
      = (classEnd (fields.flatMap (·.shown))).map (indentation line ++ ·) := by
    show (lines _).map (indentation line ++ ·) = _
    rw [lines_strMethod hshown]
  have hend : ({ (r.stateAt number "\x7d").exitBlock with struct := none } : State)
      = (r₀.state.pastStruct fields).place number (r₀.state.depth + 1) := by
    unfold stateAt countBraces
    rw [h.shape]
    rfl
  have hcode := codeLine_structEnd (r := { r with state := { r.state with lineNumber := number } })
    (indentation line) hclass hdraft
  rw [sourceLine_plain number hline (by decide) h.pending h.block?_ne, if_neg (by decide), hcode, hlayout, h.output,
    reopenClass_eq hmargin, h.pending, h.firstFunction, append_assoc, cons_append]
  exact congrArg (fun s => Except.ok (Run.mk s _ none r₀.firstFunction)) hend

/-! ## 6. The whole class -/

/-- The lines of a class: its first line and its method under their margins, the members between them. -/
def classLines (name opening closing : Text) (members : List Text) (fields : List StructField) : List Text :=
  (indentation opening ++ classHead name (fields.flatMap (·.bases))) ::
    (members ++ (classEnd (fields.flatMap (·.shown))).map (indentation closing ++ ·))

theorem StructField.Written.oneLine_readAs (hf : f.Written) (hone : f.Fused → '\n' ∉ f.body.text) :
    ∀ g ∈ f.readAs, g.body.OneLine := by
  unfold readAs
  split
  · rename_i h
    have hread := hf.body.shortened_readFrom h.1 (hone h)
    cases hshort : f.body.shortened with
    | none => exact fun g hg => absurd hg not_mem_nil
    | some b =>
      rw [hshort] at hread
      exact forall_mem_singleton.mpr hread.2.2
  · exact forall_mem_singleton.mpr hf.body.oneLine

section Struct

variable {opening closing : Text} (hbody : ∀ b ∈ body, b.Reads)

include hbody

theorem written_of_mem_fieldsOf (hf : f ∈ fieldsOf body) : f.Written := by
  obtain ⟨⟨line, field⟩, hb, hmem⟩ := mem_flatMap.mp hf
  obtain rfl : field = some f := Option.mem_toList.mp hmem
  exact (hbody _ hb).2

/-- A struct is lowered as what is read of its fields says. -/
theorem Run.Between.struct_run (hr : r.Between) (number : Nat) (hopening : OpensStruct name opening)
    (hone : ∀ f ∈ fieldsOf body, f.Fused → '\n' ∉ f.body.text) (hclosing : trim closing = "\x7d") :
    r.sourceLines number (opening :: (body.map (·.line) ++ [closing])) = .ok { r with
      output := r.output
        ++ classLines name opening closing (body.flatMap (·.readOutput)) ((fieldsOf body).flatMap (·.readAs))
      state := (r.state.pastStruct ((fieldsOf body).flatMap (·.readAs))).place (number + 1 + body.length)
        (r.state.depth + 1) } := by
  have hfields : ∀ f ∈ (fieldsOf body).flatMap (·.readAs), f.body.OneLine := fun g hg => by
    obtain ⟨f, hf, hg⟩ := mem_flatMap.mp hg
    exact (written_of_mem_fieldsOf hbody hf).oneLine_readAs (hone f hf) g hg
  obtain ⟨r₁, hrun₁, h₁⟩ := hr.openStruct_step number hopening
  obtain ⟨r₂, hrun₂, h₂⟩ := h₁.lines_run hbody hone (number + 1)
  have hrun₃ := h₂.close_step (blank_indentation opening) hfields (number + 1 + body.length) hclosing
  rw [sourceLines, hrun₁]
  show r₁.sourceLines (number + 1) (body.map (·.line) ++ [closing]) = _
  rw [sourceLines_append, hrun₂, Except.bind, length_map, sourceLines, hrun₃, hr.pending]
  rfl

theorem Run.Between.struct_run_apart (hr : r.Between) (number : Nat) (hopening : OpensStruct name opening)
    (hapart : ∀ f ∈ fieldsOf body, ¬ f.Fused) (hclosing : trim closing = "\x7d") :
    r.sourceLines number (opening :: (body.map (·.line) ++ [closing])) = .ok { r with
      output := r.output ++ classLines name opening closing (body.flatMap (·.output)) (fieldsOf body)
      state := (r.state.pastStruct (fieldsOf body)).place (number + 1 + body.length) (r.state.depth + 1) } := by
  have hrun := hr.struct_run hbody number hopening (fun f hf h => absurd h (hapart f hf)) hclosing
  rwa [flatMap_readAs hapart, flatMap_readOutput hapart] at hrun

end Struct

/-- A struct has become the class of its fields between the runs, and the maps among them are known. -/
structure Run.WritesClass (r : Run) (name opening closing : Text) (body : List BodyLine) (r' : Run) : Prop where
  output : r'.output = r.output ++ classLines name opening closing (body.flatMap (·.output)) (fieldsOf body)
  knownMaps : ∀ x, x ∈ r'.state.knownMaps ↔ x ∈ r.state.knownMaps ∨ x ∈ (fieldsOf body).flatMap (·.maps)

/-- **A struct becomes the class of what is read of its fields, complete and in order.** Its first
    line names the embedded types, then come the members of every field, then the method that writes
    each of them. What was written before stays, and the state remembers the maps and that there is
    a struct. A field is read as it stands exactly if no string follows right behind an `R`; if that
    holds of all, it is the class of the fields. Every type of the grammar may stand in a field. -/
theorem structBody_class_read {r : Run} (hr : r.Between) {name opening closing : Text} {body : List BodyLine}
    (number : Nat) (hopening : OpensStruct name opening) (hbody : ∀ b ∈ body, b.Reads)
    (hlines : ∀ b ∈ body, '\n' ∉ b.line) (hclosing : trim closing = "\x7d") :
    (∀ t : TypeExpr, IsFieldType t.go) ∧
    ∃ r', r.sourceLines number (opening :: (body.map (·.line) ++ [closing])) = .ok r' ∧
      r'.output = r.output
        ++ classLines name opening closing (body.flatMap (·.readOutput)) ((fieldsOf body).flatMap (·.readAs)) ∧
      (∀ x, x ∈ r'.state.knownMaps ↔
        x ∈ r.state.knownMaps ∨ x ∈ ((fieldsOf body).flatMap (·.readAs)).flatMap (·.maps)) ∧
      r' = { r with
        output := r'.output
        state := { r.state with
          knownMaps := r'.state.knownMaps
          hasAggregates := true
          struct := none
          lineNumber := number + 1 + body.length
          depthBefore := r.state.depth + 1 } } ∧
      (∀ f ∈ fieldsOf body, (f.readAs.map (·.body) = [f.body] ↔ ¬ f.Fused)) ∧
      ((∀ f ∈ fieldsOf body, ¬ f.Fused) → r.WritesClass name opening closing body r') := by
  have hone : ∀ f ∈ fieldsOf body, f.Fused → '\n' ∉ f.body.text := fun f hf _ hc => by
    obtain ⟨⟨line, field⟩, hb, hmem⟩ := mem_flatMap.mp hf
    obtain rfl : field = some f := Option.mem_toList.mp hmem
    refine hlines _ hb (mem_of_mem_trim ?_)
    rw [(hbody _ hb).1]
    exact mem_append_left _ hc
  have hknown := r.state.mem_knownWith_iff ((fieldsOf body).flatMap (·.readAs))
  refine ⟨TypeExpr.isFieldType, _, hr.struct_run hbody number hopening hone hclosing, rfl, hknown, rfl,
    fun f hf => (written_of_mem_fieldsOf hbody hf).readAs_iff, fun hapart => ⟨?_, fun x => ?_⟩⟩
  · rw [flatMap_readAs hapart, flatMap_readOutput hapart]
  · refine (hknown x).trans ?_
    rw [flatMap_readAs hapart]

/-- A body with embedded types, a group of names, a map, both sorts of tags, one right behind its
    type, and an empty line. -/
def recordBody : List BodyLine :=
  [⟨"\tA", some ⟨.embedded "A", .none⟩⟩,
    ⟨"\tx, y int \x60json:\"x\"\x60", some ⟨.named ["x"] " y" " " "int", .raw " " "json:\"x\""⟩⟩,
    ⟨[], none⟩,
    ⟨"\tcounts map[string]int\"c;d\"", some ⟨.named [] "counts" " " "map[string]int", .quoted [] "c;d"⟩⟩,
    ⟨"\tm.B", some ⟨.embedded "m.B", .none⟩⟩]

theorem recordBody_reads : ∀ b ∈ recordBody, b.Reads := by
  have hint : IsFieldType "int" := TypeExpr.isFieldType (.name ⟨⟨"int", rfl⟩, []⟩)
  have hmap : IsFieldType "map[string]int" :=
    TypeExpr.isFieldType (.map (.name ⟨⟨"string", rfl⟩, []⟩) (.name ⟨⟨"int", rfl⟩, []⟩))
  unfold recordBody
  rw [forall_mem_cons, forall_mem_cons, forall_mem_cons, forall_mem_cons, forall_mem_singleton]
  refine ⟨⟨rfl, ⟨⟨⟨"A", rfl⟩, []⟩, rfl⟩, trivial, rfl⟩,
    ⟨rfl, ⟨by decide, by decide, hint⟩, ⟨by decide, by decide, rfl⟩, rfl⟩, blank_nil,
    ⟨rfl, ⟨by decide, by decide, hmap⟩, ⟨by decide, rfl⟩, rfl⟩,
    ⟨rfl, ⟨⟨⟨"m", rfl⟩, [⟨"B", rfl⟩]⟩, rfl⟩, trivial, rfl⟩⟩

theorem structBody_class_read_record :
    OpensStruct "T" "type T struct \x7b" ∧ (∀ b ∈ recordBody, b.Reads) ∧ (∀ b ∈ recordBody, '\n' ∉ b.line) ∧
    (∀ f ∈ fieldsOf recordBody, ¬ f.Fused) ∧
    ∃ r', Run.sourceLines {} 1 (["type T struct \x7b", "\tA", "\tx, y int \x60json:\"x\"\x60", "",
        "\tcounts map[string]int\"c;d\"", "\tm.B", "\x7d"] : List Text) = .ok r' ∧
      (∀ x, x ∈ r'.state.knownMaps ↔ x = "counts") ∧
      r'.output = (["class T : public A, public m.B \x7b public:", "\tint x\x7b\x7d;", "\tint y\x7b\x7d;", "",
        "\tstd::unordered_map<std::string, int> counts\x7b\x7d;", "    std::string _str() const \x7b",
        "        std::stringstream ss;", "        ss << \"\x7b\";",
        "        _format_output(ss, static_cast<const A&>(*this));", "        ss << \" \";",
        "        _format_output(ss, x);", "        ss << \" \";", "        _format_output(ss, y);",
        "        ss << \" \";", "        _format_output(ss, counts);", "        ss << \" \";",
        "        _format_output(ss, static_cast<const m.B&>(*this));", "        ss << \"\x7d\";",
        "        return ss.str();", "    \x7d", "\x7d;"] : List Text) := by
  have hopening : OpensStruct "T" "type T struct \x7b" :=
    ⟨rfl, [], " ", " ", by decide, by decide, by decide, rfl⟩
  have hlines : ∀ b ∈ recordBody, '\n' ∉ b.line := by decide
  have hapart : ∀ f ∈ fieldsOf recordBody, ¬ f.Fused := by decide
  obtain ⟨_, r', hrun, _, _, _, _, hclass⟩ := structBody_class_read (r := {}) ⟨rfl, rfl⟩ 1 hopening recordBody_reads
    hlines (by decide : trim "\x7d" = "\x7d")
  obtain ⟨hout, hknown⟩ := hclass hapart
  refine ⟨hopening, recordBody_reads, hlines, hapart, r', hrun, fun x => ?_, ?_⟩
  · have hmaps : (fieldsOf recordBody).flatMap (·.maps) = (["counts"] : List Text) := rfl
    rw [hknown x, hmaps, mem_singleton]
    exact or_iff_right not_mem_nil
  · rw [hout]
    with_unfolding_all rfl

/-- A type that ends in an `R`, and names whose type is that letter, with strings right behind them. -/
def fusedBody : List BodyLine :=
  [⟨"\tx FooR\"json\"", some ⟨.named [] "x" " " "FooR", .quoted [] "json"⟩⟩,
    ⟨"\ty R\"k\"", some ⟨.named [] "y" " " "R", .quoted [] "k"⟩⟩]

/-- **Letters lost to a tag**: a member has a shorter type, and a name becomes a base. -/
theorem fusedBody_shortened :
    ∃ r', Run.sourceLines {} 1 (["type T struct \x7b", "\tx FooR\"json\"", "\ty R\"k\"", "\x7d"] : List Text) = .ok r' ∧
      r'.output = (["class T : public y \x7b public:", "\tFoo x\x7b\x7d;", "    std::string _str() const \x7b",
        "        std::stringstream ss;", "        ss << \"\x7b\";", "        _format_output(ss, x);",
        "        ss << \" \";", "        _format_output(ss, static_cast<const y&>(*this));",
        "        ss << \"\x7d\";", "        return ss.str();", "    \x7d", "\x7d;"] : List Text) ∧
      ¬ Run.WritesClass {} "T" "type T struct \x7b" "\x7d" fusedBody r' := by
  have hopening : OpensStruct "T" "type T struct \x7b" :=
    ⟨rfl, [], " ", " ", by decide, by decide, by decide, rfl⟩
  have hreads : ∀ b ∈ fusedBody, b.Reads := by
    unfold fusedBody
    rw [forall_mem_cons, forall_mem_singleton]
    exact ⟨⟨rfl, ⟨by decide, by decide, TypeExpr.isFieldType (.name ⟨⟨"FooR", rfl⟩, []⟩)⟩, ⟨by decide, rfl⟩, rfl⟩,
      ⟨rfl, ⟨by decide, by decide, TypeExpr.isFieldType (.name ⟨⟨"R", rfl⟩, []⟩)⟩, ⟨by decide, rfl⟩, rfl⟩⟩
  have hrun := Run.Between.struct_run (r := {}) hreads ⟨rfl, rfl⟩ 1 hopening (by decide)
    (by decide : trim "\x7d" = "\x7d")
  refine ⟨_, hrun, by with_unfolding_all rfl, fun h => ?_⟩
  have hlength := congrArg length h.output
  exact absurd hlength (by decide)

end Linewise
