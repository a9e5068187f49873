/-
  Map literals with an entry that is no pair.

  Only the outermost literal of a value reports the fault. An element that fails to build is left as
  it is written, and the literal around it is built:

      map[string]int{"a"}                      the fault
      []map[string]int{map[string]int{"a"}}    a vector, and in it the map as it is written
-/
import Linewise.Proofs.Bindings

namespace Linewise

open Text List Composite

variable {s t v key list part valueType : Text} {f : Fault} {c sep : Char} {i : Nat} {ps : List Text}

/-! ## 1. Entries without a colon -/

/-- The first entry of a list that is no pair. -/
def unpaired? (list : Text) : Option Text :=
  (splitTop ',' list).find? fun entry => !entry.isEmpty && (topIndex? ':' entry).isNone

theorem mapPair_eq_ok (valueType key v : Text) :
    ∃ t, mapPair valueType key v = .ok t ∧ element key <:+: t ∧ element v <:+: t := by
  have hinside (mid : Text) : element key <:+: braced (element key ++ mid ++ element v)
      ∧ element v <:+: braced (element key ++ mid ++ element v) :=
    ⟨⟨"\x7b", mid ++ element v ++ "\x7d", by simp [braced_eq]⟩,
      ⟨"\x7b" ++ element key ++ mid, "\x7d", by simp [braced_eq]⟩⟩
  unfold mapPair
  split
  · rename_i pointee _
    split
    · refine ⟨_, rfl, ?_⟩
      have := hinside (", new " ++ cppType pointee)
      rwa [← append_assoc] at this
    · exact ⟨_, rfl, hinside ", "⟩
  · exact ⟨_, rfl, hinside ", "⟩

theorem element_trim (e : Text) : element (trim e) = element e := by
  rw [element_eq, trim_trim, ← element_eq]

theorem mapEntry_eq_ok (valueType : Text) (hcolon : topIndex? ':' (key ++ ':' :: v) = some key.length) :
    ∃ t, mapEntry valueType (key ++ ':' :: v) = .ok t ∧ element key <:+: t ∧ element v <:+: t := by
  have hdrop : (key ++ ':' :: v).drop (key.length + 1) = v := by
    rw [drop_length_add_append]
    rfl
  unfold mapEntry
  rw [hcolon]
  dsimp only
  rw [take_left, hdrop, ← element_trim v]
  exact mapPair_eq_ok valueType key (trim v)

theorem eq_pair_of_topIndex? {entry : Text} (h : topIndex? ':' entry = some i) :
    ∃ key v, entry = key ++ ':' :: v ∧ key.length = i := by
  obtain ⟨key, v, he, hi, _⟩ := eq_append_of_topIndexFrom? h
  exact ⟨key, v, he, hi⟩

theorem mapEntries_error_iff :
    mapEntries list valueType = .error f ↔ ∃ entry, unpaired? list = some entry ∧ f = .missingSeparator entry := by
  rw [mapEntries_eq, unpaired?]
  induction splitTop ',' list with
  | nil => exact ⟨nofun, nofun⟩
  | cons entry rest ih =>
    cases hempty : entry.isEmpty with
    | true =>
      rw [filter_cons_of_neg (by simp [hempty]), find?_cons_of_neg (by simp [hempty])]
      exact ih
    | false =>
      rw [filter_cons_of_pos (by simp [hempty]), mapM_cons]
      cases hcolon : topIndex? ':' entry with
      | none =>
        have hentry : mapEntry valueType entry = .error (.missingSeparator entry) := by
          rw [mapEntry, hcolon]
        rw [hentry, find?_cons_of_pos (by simp [hempty, hcolon])]
        refine ⟨fun h => ⟨entry, rfl, (Except.error.inj h).symm⟩, ?_⟩
        rintro ⟨_, he, rfl⟩
        rw [← Option.some.inj he]
        rfl
      | some i =>
        obtain ⟨key, v, rfl, rfl⟩ := eq_pair_of_topIndex? hcolon
        obtain ⟨t, ht, _⟩ := mapEntry_eq_ok valueType hcolon
        rw [ht, find?_cons_of_neg (by simp [hcolon]), ← ih]
        cases mapM (mapEntry valueType) (rest.filter (!·.isEmpty)) with
        | error g => exact ⟨fun h => h, fun h => h⟩
        | ok ts => exact ⟨nofun, nofun⟩

/-! ## 2. Parts of a list -/

theorem onHead_append {a : List Text} (ha : a ≠ []) (b : List Text) : onHead c (a ++ b) = onHead c a ++ b := by
  cases a with
  | nil => exact absurd rfl ha
  | cons x xs => rfl

theorem onHead_onBack (c : Char) (v : Text) (hne : ps ≠ []) :
    onHead c (onBack v ps) = onBack v (onHead c ps) := by
  cases ps with
  | nil => exact absurd rfl hne
  | cons q qs => cases qs <;> rfl

theorem cutsFrom_concat (sep : Char) (s : Text) : ∀ (l : Lexer) (d : Int),
    cutsFrom sep l d (s ++ [sep]) = cutsFrom sep l d s ++ [[]]
      ∨ cutsFrom sep l d (s ++ [sep]) = onBack [sep] (cutsFrom sep l d s) := by
  induction s with
  | nil =>
    intro l d
    simp only [nil_append, cutsFrom]
    split
    · exact .inl rfl
    · exact .inr rfl
  | cons c r ih =>
    intro l d
    have hne := cutsFrom_ne_nil sep (l.step c) (d + l.nesting c) r
    rw [cons_append, cutsFrom, cutsFrom]
    rcases ih (l.step c) (d + l.nesting c) with h | h
    · left
      rw [h]
      split
      · rfl
      · exact onHead_append hne _
    · right
      rw [h]
      split
      · obtain ⟨q, qs, hq⟩ := exists_cons_of_ne_nil hne
        rw [hq]
        rfl
      · exact onHead_onBack c [sep] hne

theorem mem_onBack {q : Text} (h : q ∈ onBack v ps) : q ∈ ps ∨ ∃ p, q = p ++ v := by
  induction ps with
  | nil => exact .inr ⟨[], mem_singleton.mp h⟩
  | cons p ps ih =>
    cases ps with
    | nil => exact .inr ⟨p, mem_singleton.mp h⟩
    | cons p' ps =>
      rcases mem_cons.mp h with rfl | h
      · exact .inl mem_cons_self
      · exact (ih h).imp_left (mem_cons_of_mem p)

theorem getLast?_trim (h : s.getLast? = some c) (hc : isBlank c = false) : (trim s).getLast? = some c := by
  obtain ⟨r, rfl⟩ := getLast?_eq_some_iff.mp h
  obtain ⟨u, v, hs, _, hv⟩ := eq_append_trim (r ++ [c])
  rcases eq_nil_or_concat' v with rfl | ⟨w, d, rfl⟩
  · have hne : trim (r ++ [c]) ≠ [] :=
      ne_nil_of_mem (mem_trim_of_solid (mem_append_right r mem_cons_self) hc)
    rw [append_nil] at hs
    have hlast := congrArg getLast? hs
    rwa [getLast?_concat, getLast?_append_of_ne_nil _ hne, eq_comm] at hlast
  · -- the last character would be one of the white space
    have hlast := congrArg getLast? hs
    rw [getLast?_concat, ← append_assoc, ← append_assoc,
      getLast?_concat] at hlast
    have hblank := hv d (by simp)
    rw [Option.some.inj hlast, hblank] at hc
    cases hc

theorem mem_splitTop_of_concat (h : part ∈ splitTop ',' (s ++ ",")) (hne : part ≠ [])
    (hlast : part.getLast? ≠ some ',') : part ∈ splitTop ',' s := by
  unfold splitTop at h
  split at h
  · cases h
  obtain ⟨cut, hcut, rfl⟩ := mem_map.mp h
  have hmem : cut ∈ cutsFrom ',' Lexer.start 0 s := by
    rcases cutsFrom_concat ',' s Lexer.start 0 with he | he
    · rw [show s ++ "," = s ++ [','] from rfl, he] at hcut
      rcases mem_append.mp hcut with hcut | hcut
      · exact hcut
      · rw [mem_singleton.mp hcut] at hne
        exact absurd rfl hne
    · rw [show s ++ "," = s ++ [','] from rfl, he] at hcut
      rcases mem_onBack hcut with hcut | ⟨p, rfl⟩
      · exact hcut
      · exact absurd (getLast?_trim getLast?_concat rfl) hlast
  unfold splitTop
  split
  · -- the cuts of a blank text are blank
    rename_i hblank
    have hjoin := infix_joinWith [','] hmem
    rw [joinWith_cutsFrom] at hjoin
    exact absurd (trim_of_blank fun c hc => isAllBlank_iff.mp hblank c (hjoin.subset hc)) hne
  · exact mem_map_of_mem hmem

theorem mapEntries_trim (list valueType : Text) : mapEntries (trim list) valueType = mapEntries list valueType := by
  rw [mapEntries_eq, splitTop_trim rfl rfl, ← mapEntries_eq]

theorem elements_trim (list : Text) : elements (trim list) = elements list := by
  have hcomma : splitTrailingComma (trim list) = splitTrailingComma list := by
    rw [splitTrailingComma, trim_trim]
    rfl
  rw [elements_eq, hcomma, ← elements_eq]

theorem infix_elements (h : part ∈ splitTop ',' list) (hne : part ≠ []) (hlast : part.getLast? ≠ some ',') :
    element part <:+: elements list := by
  have hmem : part ∈ splitTop ',' (splitTrailingComma list).1 := by
    rw [← splitTop_trim rfl rfl] at h
    unfold splitTrailingComma
    split
    · rename_i body hbody
      rw [eq_append_of_stripEnd? hbody] at h
      exact mem_splitTop_of_concat h hne hlast
    · exact h
  rw [elements_eq]
  exact (infix_joinWith ", " (mem_map_of_mem hmem)).trans (prefix_append _ _).isInfix

theorem infix_mapEntries {entries : List Text} (h : mapEntries list valueType = .ok entries)
    (hmem : part ∈ splitTop ',' list) (hne : part ≠ []) :
    ∃ t, mapEntry valueType part = .ok t ∧ t <:+: joinWith ", " entries := by
  rw [mapEntries_eq] at h
  obtain ⟨t, ht, hentry⟩ := (exists_of_mapM h).2 _ (mem_filter.mpr ⟨hmem, by simpa using hne⟩)
  exact ⟨t, hentry, infix_joinWith ", " ht⟩

/-! ## 3. Literals as they are written -/

/-- The text starts as a type does, or it is empty. -/
def startsType (s : Text) : Bool := s.head?.all fun c => !isBlank c && c != '{' && c != '&'

/-- A composite literal as it is written, or a list in braces without a type. -/
structure WrittenLiteral where
  type : Text
  list : Text
  typePart : IsPart ':' type
  starts : startsType type = true
  wellNested : WellNested list

namespace WrittenLiteral

variable {l m : WrittenLiteral} {e x : Text}

/-- The literal as it is written. -/
def text (l : WrittenLiteral) : Text := l.type ++ braced l.list

/-- The first brace of the literal is not one of its type. -/
def isPlain (l : WrittenLiteral) : Bool := (topIndex? '{' l.type).isNone

/-- A literal of a map type. -/
def isMap (l : WrittenLiteral) : Bool := (splitMapType? l.type).isSome

/-- The expression is the literal, or its address. -/
def Written (l : WrittenLiteral) (e : Text) : Prop := trim e = l.text ∨ trim e = "&" ++ l.text

theorem head?_type (l : WrittenLiteral) (h : l.type.head? = some c) : isBlank c = false ∧ c ≠ '{' ∧ c ≠ '&' := by
  have hstarts := l.starts
  rw [startsType, h] at hstarts
  simpa [and_assoc] using hstarts

theorem isPart (l : WrittenLiteral) : IsPart ':' l.text :=
  l.typePart.join (.bracketed rfl (by decide) l.wellNested) (joins_braced _ _)

theorem isPart_address (l : WrittenLiteral) : IsPart ':' ("&" ++ l.text) :=
  (isPart_bare (by decide) (by decide)).join l.isPart (.inl (by decide))

theorem getLast?_text (l : WrittenLiteral) : l.text.getLast? = some '}' := getLast?_append_braced _ _

theorem head?_text (l : WrittenLiteral) : l.text.head? ≠ some '&' := by
  unfold text
  cases ht : l.type with
  | nil => exact nofun
  | cons c r =>
    intro h
    exact (l.head?_type (by rw [ht]; rfl)).2.2 (Option.some.inj h)

theorem Written.isPart (h : l.Written e) : IsPart ':' (trim e) := by
  rcases h with h | h
  · exact h ▸ l.isPart
  · exact h ▸ l.isPart_address

theorem Written.getLast? (h : l.Written e) : (trim e).getLast? = some '}' := by
  rcases h with h | h
  · rw [h, l.getLast?_text]
  · rw [h]
    exact mem_getLast?_append_of_mem_getLast? l.getLast?_text

theorem Written.isInfix (h : l.Written e) : l.text <:+: e := by
  refine IsInfix.trans ?_ (infix_trim e)
  rcases h with h | h
  · exact h ▸ infix_rfl
  · exact h ▸ (suffix_append _ _).isInfix

theorem infix_text (l : WrittenLiteral) : l.list <:+: l.text :=
  ⟨l.type ++ "\x7b", "\x7d", by simp [text, braced_eq]⟩

end WrittenLiteral

/-! ## 4. What a literal builds -/

theorem splitMapType?_trim (t : Text) : splitMapType? (trim t) = splitMapType? t := by
  rw [splitMapType?, trim_trim]
  rfl

theorem splitMapType?_eq_none (htrim : trim t = t) (h : startsWith t "map[" = false) : splitMapType? t = none := by
  unfold splitMapType?
  rw [htrim]
  cases hr : stripStart? "map" t with
  | none => rfl
  | some r =>
    have hr := eq_append_of_stripStart? hr
    rw [Option.bind_some, if_neg]
    intro hopen
    obtain ⟨r', rfl⟩ := startsWith_iff.mp hopen
    have hstarts : startsWith t "map[" = true := startsWith_iff.mpr ⟨r', hr⟩
    rw [hstarts] at h
    cases h

theorem isTypeName_eq_false (hc : c ∈ t) (hword : isWordChar c = false) (hdot : c ≠ '.') :
    isTypeName t = false := by
  refine Bool.eq_false_iff.mpr fun h => ?_
  obtain ⟨piece, hpiece, hmem⟩ := exists_mem_pieces (p := (· == '.')) |>.mpr ⟨hc, by simpa using hdot⟩
  exact not_mem_of_isIdentifier (all_eq_true.mp h piece hpiece) hword hmem

theorem constructLiteral_eq_none (htrim : trim t = t) (hmap : startsWith t "map[" = false)
    (hsquare : startsWith t "[" = false) (hname : isTypeName t = false) (list : Text) :
    constructLiteral t list = .ok none := by
  have hdots : stripStart? "[...]" t = none := by
    refine stripStart?_eq_none (Bool.eq_false_iff.mpr fun h => ?_)
    obtain ⟨r, rfl⟩ := startsWith_iff.mp h
    cases hsquare
  unfold constructLiteral
  rw [splitMapType?_eq_none htrim hmap, hdots, hsquare, hname]
  rfl

theorem Composite.type_eq {lit : Composite} (h : split? s = some lit) :
    ∃ i, topIndex? '{' (trim s) = some i ∧ lit.type = trim ((trim s).take i) := by
  simp only [split?] at h
  obtain ⟨i, hi, h⟩ := Option.bind_eq_some_iff.mp h
  refine ⟨i, hi, ?_⟩
  split at h
  · cases h
  · split at h
    · split at h
      · cases h
        rfl
      · cases h
    · cases h
      rfl

theorem construct_eq_none {e : Text} (h : WellNested e) (htrim : trim e = e) (hlast : e.getLast? = some '}')
    (htype : ∀ lit, split? e = some lit → constructLiteral lit.type lit.elements = .ok none) :
    construct e = .ok none := by
  rw [construct_of_callArguments? htrim (callArguments?_of_getLast? h hlast)]
  cases hlit : (split? e).filter (·.closed) with
  | none => rfl
  | some lit => exact htype lit (Option.filter_eq_some_iff.mp hlit).1

theorem construct_braces (hs : WellNested s) : construct (braced s) = .ok none := by
  have htrim : trim (braced s) = braced s := trim_eq_self_of_solid (solid_append_braced (a := []) (fun _ h => by cases h) s)
  have hsplit : split? (braced s) = none := by
    unfold split?
    rw [htrim]
    dsimp only
    rw [show topIndex? '{' (braced s) = some 0 from rfl]
    rfl
  exact construct_of_split? htrim (callArguments?_braced (t := []) (hs.bracketed rfl)) hsplit

theorem construct_address (hs : WellNested ("&" ++ s)) (hlast : ("&" ++ s).getLast? = some '}') :
    construct ("&" ++ s) = .ok none := by
  have htrim : trim ("&" ++ s) = "&" ++ s := by
    exact trim_eq_self_of_solid ⟨solidStart_cons rfl s, solidEnd_of_last hlast rfl⟩
  refine construct_eq_none hs htrim hlast fun lit hlit => ?_
  have hhead : lit.type.head? = some '&' := by
    rw [head?_type hlit, htrim]
    rfl
  obtain ⟨i, _, htype⟩ := type_eq hlit
  refine constructLiteral_eq_none (by rw [htype, trim_trim]) ?_ ?_ ?_ _
  · exact startsWith_of_head? hhead rfl (by decide)
  · exact startsWith_of_head? hhead rfl (by decide)
  · exact isTypeName_eq_false (mem_of_head? hhead) rfl (by decide)

namespace WrittenLiteral

variable {l m : WrittenLiteral} {e x : Text}

theorem construct_eq (l : WrittenLiteral) :
    construct l.text = if l.isPlain then constructLiteral (trim l.type) (trim l.list) else .ok none := by
  have hhead : SolidStart l.type := fun _ hc => (l.head?_type hc).1
  unfold isPlain text
  cases hbrace : topIndex? '{' l.type with
  | some i =>
    exact construct_of_topIndex? l.typePart.wellNested hhead (by rw [hbrace]; exact nofun) l.wellNested
  | none =>
    by_cases hne : l.type = []
    · rw [hne]
      have hnone : constructLiteral [] (trim l.list) = .ok none :=
        constructLiteral_eq_none rfl rfl rfl rfl _
      exact (construct_braces l.wellNested).trans hnone.symm
    · exact construct_braced ⟨l.typePart.wellNested, hbrace⟩ hhead hne l.wellNested

/-- It fails on a plain map literal with an unpaired entry. -/
theorem construct_error_iff (l : WrittenLiteral) :
    construct l.text = .error f ↔
      l.isPlain = true ∧ l.isMap = true ∧ ∃ entry, unpaired? l.list = some entry ∧ f = .missingSeparator entry := by
  rw [l.construct_eq, isMap]
  cases l.isPlain with
  | false => exact ⟨nofun, nofun⟩
  | true =>
    rw [if_pos rfl, constructLiteral, splitMapType?_trim]
    cases splitMapType? l.type with
    | none =>
      dsimp only
      refine ⟨fun h => ?_, nofun⟩
      split at h
      · cases h
      · split at h <;> cases h
    | some kv =>
      dsimp only
      rw [mapEntries_trim, ← mapEntries_error_iff]
      cases mapEntries l.list kv.2 with
      | error g =>
        refine ⟨fun h => ⟨rfl, rfl, ?_⟩, fun h => ?_⟩
        · rw [Except.error.inj h]
        · rw [Except.error.inj h.2.2]
          rfl
      | ok entries => exact ⟨fun h => (by cases h), fun h => (by cases h.2.2)⟩

theorem init_of_construct {c : Construction} (h : construct l.text = .ok (some c)) :
    (l.isMap = true ∧ ∃ valueType entries, mapEntries l.list valueType = .ok entries
        ∧ c.init = braced (joinWith ", " entries))
      ∨ (l.isMap = false ∧ c.init = braced (elements l.list)) := by
  rw [l.construct_eq] at h
  unfold isMap
  split at h
  · rw [constructLiteral, splitMapType?_trim, elements_trim] at h
    cases hmap : splitMapType? l.type with
    | none =>
      rw [hmap] at h
      dsimp only at h
      refine .inr ⟨rfl, ?_⟩
      split at h
      · cases h
        rfl
      · split at h
        · cases h
          rfl
        · cases h
    | some kv =>
      rw [hmap] at h
      dsimp only at h
      rw [mapEntries_trim] at h
      refine .inl ⟨rfl, kv.2, ?_⟩
      obtain ⟨entries, hentries, h⟩ := exists_ok_of_bind h
      cases h
      exact ⟨entries, hentries, rfl⟩
  · cases h

end WrittenLiteral

/-! ## 5. One layer -/

/-- The text stands in the literal and in all that is made of it. -/
structure Carries (x : Text) (l : WrittenLiteral) : Prop where
  text : x <:+: l.text
  built : ∀ c, construct l.text = .ok (some c) → x <:+: c.init
  braces : l.type = [] → x <:+: elements l.list

namespace WrittenLiteral

variable {l m : WrittenLiteral} {e x : Text}

theorem Written.infix_element (h : l.Written e) (hx : Carries x l) : x <:+: element e := by
  rw [element_eq]
  rcases h with h | h
  · rw [h]
    by_cases hne : l.type = []
    · have htext : l.text = braced l.list := by
        rw [text, hne]
        rfl
      rw [htext, ElementShape.of_braces (htext ▸ l.isPart), ElementShape.lower]
      exact (hx.braces hne).trans ⟨"\x7b", "\x7d", rfl⟩
    · have hbrace : l.text.head? ≠ some '{' := by
        obtain ⟨c, r, ht⟩ := exists_cons_of_ne_nil hne
        rw [text, ht]
        intro hc
        exact (l.head?_type (by rw [ht]; rfl)).2.1 (Option.some.inj hc)
      rw [ElementShape.of_plain (splitKey?_eq_none l.isPart) hbrace l.head?_text, ElementShape.lower]
      split
      · rename_i c hc
        exact (hx.built c hc).trans (suffix_append _ _).isInfix
      · exact hx.text
  · rw [h, ElementShape.of_address l.isPart_address, ElementShape.lower]
    split
    · rename_i c hc
      exact (hx.built c hc).trans ((suffix_append _ _).isInfix.trans (suffix_append _ _).isInfix)
    · exact hx.text.trans (suffix_append _ _).isInfix

theorem Written.value_eq (h : l.Written e) :
    ∃ before : Text, value e =
      (construct l.text).map fun built => (built.map (before ++ ·.temporary)).getD (trim e) := by
  unfold value
  rcases h with h | h
  · refine ⟨[], ?_⟩
    have hstrip : stripStart? "&" l.text = none := stripStart?_eq_none (startsWith_of_head l.head?_text)
    rw [h, hstrip]
    cases construct l.text <;> rfl
  · refine ⟨"new ", ?_⟩
    have hnone : construct ("&" ++ l.text) = .ok none :=
      construct_address l.isPart_address.wellNested (mem_getLast?_append_of_mem_getLast? l.getLast?_text)
    rw [h, show stripStart? "&" ("&" ++ l.text) = some l.text from rfl]
    dsimp only
    cases construct l.text with
    | error f => rfl
    | ok built =>
      cases built with
      | none =>
        rw [hnone]
        rfl
      | some c => rfl

theorem Written.value_error_iff (h : l.Written e) : value e = .error f ↔ construct l.text = .error f := by
  obtain ⟨before, hvalue⟩ := h.value_eq
  rw [hvalue]
  cases construct l.text with
  | error g =>
    refine ⟨fun h => ?_, fun h => ?_⟩
    · rw [← Except.error.inj h]
    · rw [Except.error.inj h]
      rfl
  | ok built => exact ⟨nofun, nofun⟩

theorem Written.infix_value (h : l.Written e) (hx : Carries x l) (ht : value e = .ok t) : x <:+: t := by
  obtain ⟨before, hvalue⟩ := h.value_eq
  rw [hvalue] at ht
  obtain ⟨built, hc, ht⟩ := exists_ok_of_bind ht
  cases built with
  | none =>
    cases ht
    rcases h with h | h
    · exact h ▸ hx.text
    · exact h ▸ hx.text.trans (suffix_append _ _).isInfix
  | some c =>
    cases ht
    exact (hx.built c hc).trans ((suffix_append _ _).isInfix.trans (suffix_append _ _).isInfix)

end WrittenLiteral

/-- A key of an element that is not read as part of a type. -/
def isElementKey (key : Text) : Bool :=
  isIdentifier (trim key) ||
    !(startsWith key "\x7b" || startsWith key "[" || startsWith key "&" || startsWith key "map[")

theorem wellNested_key (h : WellNested (key ++ ':' :: v))
    (hcolon : topIndex? ':' (key ++ ':' :: v) = some key.length) : WellNested key := by
  obtain ⟨a, b, hab, hlength, hcode, hlevel⟩ := eq_append_of_topIndexFrom? hcolon
  obtain ⟨rfl, _⟩ := append_inj hab hlength.symm
  exact (h.cut hcode rfl (by decide) (by omega)).1

theorem take_of_topIndex? (hkey : topIndex? '{' key = none)
    (hi : topIndex? '{' (key ++ ':' :: v) = some i) : ∃ w, (key ++ ':' :: v).take i = key ++ ':' :: w := by
  have hlength : key.length ≤ i := by
    unfold topIndex? at hkey hi
    rw [topIndexFrom?_append, hkey, Option.none_or] at hi
    obtain ⟨k, _, rfl⟩ := Option.map_eq_some_iff.mp hi
    exact Nat.le_add_left _ _
  obtain ⟨a, b, hab, rfl, _⟩ := eq_append_of_topIndexFrom? hi
  rw [hab, take_left]
  rcases append_eq_append_iff.mp hab with ⟨r, rfl, hr⟩ | ⟨r, rfl, hr⟩
  · cases r with
    | nil => cases hr
    | cons c w =>
      cases hr
      exact ⟨w, rfl⟩
  · cases r with
    | nil => cases hr
    | cons c w =>
      rw [length_append, length_cons] at hlength
      omega

section

variable (h : WellNested (key ++ ':' :: v)) (hsolid : Solid (key ++ ':' :: v))
  (hcolon : topIndex? ':' (key ++ ':' :: v) = some key.length) (hlast : (key ++ ':' :: v).getLast? = some '}')

include h hsolid hcolon hlast

theorem construct_keyed (hsquare : startsWith key "[" = false) (hmap : startsWith key "map[" = false) :
    construct (key ++ ':' :: v) = .ok none := by
  have htrim := trim_eq_self_of_solid hsolid
  refine construct_eq_none h htrim hlast fun lit hlit => ?_
  obtain ⟨i, hi, htype⟩ := type_eq hlit
  rw [htrim] at hi htype
  cases hkey : topIndex? '{' key with
  | some j =>
    rw [split?_append_eq_none (wellNested_key h hcolon) (cons_ne_nil _ _) htrim hkey] at hlit
    cases hlit
  | none =>
    obtain ⟨w, htake⟩ := take_of_topIndex? hkey hi
    have hhead : SolidStart (key ++ ':' :: w) := by
      cases key with
      | nil => exact hsolid.1
      | cons d r => exact hsolid.1
    have hw : lit.type = key ++ ':' :: trimEnd w := by
      rw [htype, htake, trim, trimStart_eq_self_of_head hhead, trimEnd_append_cons rfl]
    refine constructLiteral_eq_none (by rw [htype, trim_trim]) ?_ ?_ ?_ _
    · rw [hw]
      exact (startsWith_append_cons (by decide) _ _).trans hmap
    · rw [hw]
      exact (startsWith_append_cons (by decide) _ _).trans hsquare
    · rw [hw]
      exact isTypeName_eq_false (c := ':') (by simp) rfl (by decide)

theorem infix_element_keyed {x : Text} (hkey : isElementKey key = true) (hx : x <:+: v) (hv : x <:+: element v) :
    x <:+: element (key ++ ':' :: v) := by
  have hdrop : (key ++ ':' :: v).drop (key.length + 1) = v := by
    rw [drop_length_add_append]
    rfl
  rw [element_eq, trim_eq_self_of_solid hsolid]
  by_cases hname : isIdentifier (trim key) = true
  · have hsplit : splitKey? (key ++ ':' :: v) = some (trim key, v) := by
      rw [splitKey?, hcolon, Option.bind_some]
      dsimp only
      rw [take_left, if_pos hname, hdrop]
    rw [ElementShape.of, hsplit]
    exact hv.trans (suffix_append _ _).isInfix
  · have hsplit : splitKey? (key ++ ':' :: v) = none := by
      rw [splitKey?, hcolon, Option.bind_some]
      dsimp only
      rw [take_left, if_neg hname]
    have hstarts : startsWith key "\x7b" = false ∧ startsWith key "[" = false ∧ startsWith key "&" = false
        ∧ startsWith key "map[" = false := by
      simpa [isElementKey, hname, and_assoc] using hkey
    obtain ⟨hbrace, hsquare, haddress, hmap⟩ := hstarts
    have hhead {c : Char} (hc : ':' ≠ c) (hs : startsWith key [c] = false) :
        (key ++ ':' :: v).head? ≠ some c := fun he => by
      obtain ⟨r, hr⟩ := head?_eq_some_iff.mp he
      have hstarts : startsWith (key ++ ':' :: v) [c] = false := by
        rw [startsWith_append_cons (by simpa using hc), hs]
      rw [hr, show c :: r = [c] ++ r from rfl, startsWith_append] at hstarts
      cases hstarts
    rw [ElementShape.of_plain hsplit (hhead (by decide) hbrace) (hhead (by decide) haddress), ElementShape.lower,
      construct_keyed h hsolid hcolon hlast hsquare hmap]
    exact hx.trans ⟨key ++ ":", [], by simp⟩

end

/-! ## 6. Every layer -/

/-- The literal stands in the expression: it is the literal or its address, or a literal around it,
    at any depth. -/
inductive Inside (m : WrittenLiteral) : Text → Prop
  | here {e : Text} (h : m.Written e) : Inside m e
  | element {e part : Text} {l : WrittenLiteral} (h : l.Written e) (hmem : part ∈ splitTop ',' l.list)
      (hin : Inside m part) : Inside m e
  | keyed {e key v : Text} {l : WrittenLiteral} (h : l.Written e) (hmem : key ++ ':' :: v ∈ splitTop ',' l.list)
      (hcolon : topIndex? ':' (key ++ ':' :: v) = some key.length)
      (hkey : l.isMap = true ∨ isElementKey key = true) (hin : Inside m v) : Inside m e
  | key {e key v : Text} {l : WrittenLiteral} (h : l.Written e) (hmem : key ++ ':' :: v ∈ splitTop ',' l.list)
      (hcolon : topIndex? ':' (key ++ ':' :: v) = some key.length) (hmap : l.isMap = true)
      (hin : Inside m key) : Inside m e

theorem solid_of_mem_splitTop (h : part ∈ splitTop sep s) : Solid part := by
  rw [← trim_of_mem_splitTop h]
  exact solid_trim part

theorem WrittenLiteral.Written.getLast?_pair {l : WrittenLiteral} (h : l.Written v)
    (hsolid : Solid (key ++ ':' :: v)) : (key ++ ':' :: v).getLast? = some '}' := by
  have hne : v ≠ [] := by
    rintro rfl
    cases h.getLast?
  have hc := getLast?_eq_some_getLast hne
  have hpair : (key ++ ':' :: v).getLast? = some (v.getLast hne) := by
    rw [append_cons]
    exact mem_getLast?_append_of_mem_getLast? hc
  rw [hpair, ← getLast?_trim hc (hsolid.2 _ hpair), h.getLast?]

theorem Carries.of_init {x : Text} {l : WrittenLiteral} (htext : x <:+: l.list)
    (hmap : ∀ valueType entries, l.isMap = true → mapEntries l.list valueType = .ok entries →
      x <:+: joinWith ", " entries)
    (helements : l.isMap = false → x <:+: elements l.list) : Carries x l where
  text := htext.trans l.infix_text
  built c hc := by
    have hbraced (s : Text) : s <:+: braced s := ⟨"\x7b", "\x7d", rfl⟩
    rcases WrittenLiteral.init_of_construct hc with ⟨hm, valueType, entries, hentries, hinit⟩ | ⟨hm, hinit⟩
    · exact hinit ▸ (hmap valueType entries hm hentries).trans (hbraced _)
    · exact hinit ▸ (helements hm).trans (hbraced _)
  braces hne := helements (by rw [WrittenLiteral.isMap, hne]; rfl)

/-- **All literals around a map literal with an entry that is no pair keep its text.** The induction is
    on the layers; each either fails itself and is kept as text by the next one, or builds something
    that holds the lowered elements. -/
theorem Inside.carries {m : WrittenLiteral} (hmap : m.isMap = true) (hentry : unpaired? m.list ≠ none) {e : Text}
    (h : Inside m e) : ∃ l : WrittenLiteral, l.Written e ∧ Carries m.text l := by
  induction h with
  | here h =>
    refine ⟨m, h, infix_rfl, fun c hc => ?_, fun hne => ?_⟩
    · -- neither a plain type nor one with a brace of its own builds the map
      obtain ⟨entry, hentry⟩ := Option.ne_none_iff_exists'.mp hentry
      rcases WrittenLiteral.init_of_construct hc with ⟨_, valueType, entries, hentries, _⟩ | ⟨hm, _⟩
      · rw [mapEntries_error_iff.mpr ⟨entry, hentry, rfl⟩] at hentries
        cases hentries
      · rw [hm] at hmap
        cases hmap
    · rw [WrittenLiteral.isMap, hne] at hmap
      cases hmap
  | @element _ part l h hmem _ ih =>
    obtain ⟨l', hl', hx⟩ := ih
    have hpart := hl'.isPart
    have hlast := hl'.getLast?
    rw [trim_of_mem_splitTop hmem] at hpart hlast
    have hne : part ≠ [] := ne_nil_of_mem (mem_of_getLast? hlast)
    refine ⟨l, h, .of_init (hx.text.trans (hl'.isInfix.trans (infix_of_mem_splitTop hmem))) ?_ fun _ => ?_⟩
    · -- in a map, the literal itself is an entry that is no pair
      intro valueType entries _ hentries
      obtain ⟨t, ht, _⟩ := infix_mapEntries hentries hmem hne
      rw [mapEntry, hpart.whole] at ht
      cases ht
    · exact (hl'.infix_element hx).trans (infix_elements hmem hne (by rw [hlast]; decide))
  | @keyed _ key v l h hmem hcolon hkey _ ih =>
    obtain ⟨l', hl', hx⟩ := ih
    have hsolid := solid_of_mem_splitTop hmem
    have hlast := hl'.getLast?_pair hsolid
    have hne : key ++ ':' :: v ≠ [] := ne_nil_of_mem (mem_of_getLast? hlast)
    have hv : m.text <:+: v := hx.text.trans hl'.isInfix
    refine ⟨l, h, .of_init ?_ ?_ fun hm => ?_⟩
    · exact hv.trans (IsInfix.trans ⟨key ++ ":", [], by simp⟩ (infix_of_mem_splitTop hmem))
    · intro valueType entries _ hentries
      obtain ⟨t, ht, hin⟩ := infix_mapEntries hentries hmem hne
      obtain ⟨t', ht', _, hvalue⟩ := mapEntry_eq_ok valueType hcolon
      obtain rfl : t' = t := Except.ok.inj (ht'.symm.trans ht)
      exact (hl'.infix_element hx).trans (hvalue.trans hin)
    · have hkey : isElementKey key = true := hkey.resolve_left (by rw [hm]; decide)
      have hnested := wellNested_of_mem_splitTop l.wellNested rfl (by decide) hmem
      exact (infix_element_keyed hnested hsolid hcolon hlast hkey hv (hl'.infix_element hx)).trans
        (infix_elements hmem hne (by rw [hlast]; decide))
  | @key _ key v l h hmem hcolon hm _ ih =>
    obtain ⟨l', hl', hx⟩ := ih
    refine ⟨l, h, .of_init ?_ ?_ fun hm' => ?_⟩
    · refine hx.text.trans (hl'.isInfix.trans ?_)
      exact (prefix_append _ _).isInfix.trans (infix_of_mem_splitTop hmem)
    · intro valueType entries _ hentries
      obtain ⟨t, ht, hin⟩ := infix_mapEntries hentries hmem (by simp)
      obtain ⟨t', ht', hkey, _⟩ := mapEntry_eq_ok valueType hcolon
      obtain rfl : t' = t := Except.ok.inj (ht'.symm.trans ht)
      exact (hl'.infix_element hx).trans (hkey.trans hin)
    · rw [hm'] at hm
      cases hm

/-- **When a missing colon is reported.** A map literal with an entry that is no pair, at any depth of an
    expression: the fault is reported if the expression itself, or what is behind its address sign, is
    such a literal and its type has no brace of its own. In every other case there is a value, and the
    literal stands in it as it is written. -/
theorem unpaired_reported_iff {m : WrittenLiteral} {e : Text} (hmap : m.isMap = true)
    (hentry : unpaired? m.list ≠ none) (h : Inside m e) :
    (∀ f, value e = .error f ↔ ∃ o : WrittenLiteral, o.Written e ∧ o.isPlain = true ∧ o.isMap = true ∧
        ∃ entry, unpaired? o.list = some entry ∧ f = .missingSeparator entry) ∧
      ∀ t, value e = .ok t → m.text <:+: t := by
  obtain ⟨l, hl, hx⟩ := h.carries hmap hentry
  refine ⟨fun f => ⟨fun hf => ?_, ?_⟩, fun t ht => hl.infix_value hx ht⟩
  · exact ⟨l, hl, l.construct_error_iff.mp (hl.value_error_iff.mp hf)⟩
  · rintro ⟨o, ho, hfault⟩
    exact ho.value_error_iff.mpr (o.construct_error_iff.mpr hfault)

/-- The second entry is no pair. -/
def unpairedMap : WrittenLiteral := ⟨"map[string]int", "\"b\": 1, \"a\"", by decide, rfl, by decide⟩

/-- A slice with the map in it. -/
def mapSlice : WrittenLiteral :=
  ⟨"[]map[string]int", "map[string]int\x7b\"b\": 1, \"a\"\x7d,", by decide, rfl, by decide⟩

/-- A structure with that slice in it. -/
def mapGrid : WrittenLiteral :=
  ⟨"Grid", "Rows: []map[string]int\x7bmap[string]int\x7b\"b\": 1, \"a\"\x7d,\x7d", by decide, rfl, by decide⟩

theorem inside_mapGrid : Inside unpairedMap ("&" ++ mapGrid.text) := by
  have hmap : Inside unpairedMap unpairedMap.text := .here (.inl rfl)
  have hslice : Inside unpairedMap (" " ++ mapSlice.text) :=
    .element (l := mapSlice) (.inl rfl) (by decide +kernel) hmap
  have hkey : isElementKey "Rows" = true := rfl
  exact .keyed (l := mapGrid) (.inr rfl) (by decide +kernel) (by decide +kernel) (.inr hkey) hslice

theorem unpaired_reported_iff_grid :
    unpairedMap.isMap = true ∧ unpaired? unpairedMap.list ≠ none ∧ Inside unpairedMap ("&" ++ mapGrid.text) ∧
      (∀ f, value ("&" ++ mapGrid.text) = .error f ↔ ∃ o : WrittenLiteral, o.Written ("&" ++ mapGrid.text) ∧
        o.isPlain = true ∧ o.isMap = true ∧
          ∃ entry, unpaired? o.list = some entry ∧ f = .missingSeparator entry) ∧
      ∀ t, value ("&" ++ mapGrid.text) = .ok t → unpairedMap.text <:+: t := by
  have hmap : unpairedMap.isMap = true := rfl
  have hentry : unpaired? unpairedMap.list ≠ none := by decide +kernel
  exact ⟨hmap, hentry, inside_mapGrid, unpaired_reported_iff hmap hentry inside_mapGrid⟩

/-- The same literal is a fault by itself and a text in a slice. -/
theorem nestedUnpaired_unreported :
    value "map[string]int\x7b\"a\"\x7d" = .error (.missingSeparator "\"a\"") ∧
      value "[]map[string]int\x7bmap[string]int\x7b\"a\"\x7d\x7d" =
        .ok "std::vector<std::unordered_map<std::string, int>>\x7bmap[string]int\x7b\"a\"\x7d\x7d" := by
  exact ⟨by with_unfolding_all rfl, by with_unfolding_all rfl⟩

end Linewise
