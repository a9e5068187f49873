/-
  A field of a struct as it is written, and what is read of it.

  A tag is cut off at its first quote, so that nothing in it is ever read. A string right behind an
  `R` looks like a raw literal, and the letter is cut off with it.
-/
import Linewise.Proofs.ConstGroups
import Linewise.Proofs.SpanningLiterals

namespace Linewise

open Text List Lexer Raw

variable {a line content : Text}

/-! ## 1. Sealed text -/

/-- The readers see nothing of the text but white space and the letter of raw literals. -/
def Masked (l : Lexer) (s : Text) : Prop := ∀ c ∈ l.maskFrom s, isBlank c = true ∨ c = 'R'

namespace Masked

variable {l : Lexer} {s : Text} (h : Masked l s)

include h

theorem not_mem {c : Char} (hb : isBlank c = false) (hR : c ≠ 'R') : c ∉ l.maskFrom s := fun hc => by
  rcases h c hc with hblank | rfl
  · rw [hb] at hblank
    cases hblank
  · exact hR rfl

theorem unclosed?_eq (p : List Char) : l.unclosed? p s = some p := by
  induction s generalizing l with
  | nil => rfl
  | cons c s ih =>
    unfold Masked at h
    rw [maskFrom, forall_mem_cons] at h
    have hstep : l.bracketStep c p = some p := by
      cases hc : l.isCode c with
      | false => exact bracketStep_of_not_isCode (Bool.eq_false_iff.mp hc) p
      | true =>
        rw [if_pos hc] at h
        refine bracketStep_eq_self ?_ p
        rcases h.1 with hblank | rfl
        · exact (not_special_of_isBlank hblank).1
        · decide
    rw [unclosed?, hstep, Option.bind_some, ih h.2]

end Masked

/-- Text that is masked, and ends outside literals. -/
structure Sealed (s : Text) : Prop where
  masked : Masked start s
  literals : (start.run s).mode = .code

theorem Sealed.isPart {s : Text} (h : Sealed s) {sep : Char} (hb : isBlank sep = false) (hR : sep ≠ 'R') :
    IsPart sep s :=
  ⟨⟨h.masked.unclosed?_eq [], h.literals⟩, topIndexFrom?_of_masked (h.masked.not_mem hb hR) 0⟩

/-- Both passes see the same characters of a string. -/
theorem Lexer.fills_quoted {s : Text} :
    ∀ {l : Lexer} {m : Raw.Mode},
      (l.mode = .quoted '"' ∧ m = .quoted '"' ∨ l.mode = .escaped '"' ∧ m = .escaped '"') →
      l.fills true s = true →
      l.maskFrom s = List.replicate s.length ' ' ∧ (l.run s).mode = .code ∧
        Raw.convertFrom m s = ⟨s, false⟩ ∧ Raw.after m s = .code := by
  induction s with
  | nil => exact fun _ h => nomatch h
  | cons c s ih =>
    intro l m hmode h
    have hcode : l.isCode c = false := by
      rcases hmode with hm | hm <;> rw [Lexer.isCode, hm.1] <;> rfl
    have hconvert : (m.step c).1 = [c] := by
      rcases hmode with hm | hm <;> rw [hm.2] <;> rfl
    rw [Lexer.maskFrom, hcode, if_neg Bool.false_ne_true, length_cons, replicate_succ]
    rw [Lexer.fills] at h
    show _ ∧ ((l.step c).run s).mode = .code ∧
      Raw.Converted.mk ((m.step c).1 ++ (Raw.convertFrom (m.step c).2 s).line)
        (Raw.convertFrom (m.step c).2 s).opened = ⟨c :: s, false⟩ ∧ Raw.after (m.step c).2 s = .code
    rw [hconvert]
    -- the two machines go on together, or the quote closes for both
    have hnext : ((l.step c).mode = .quoted '"' ∧ (m.step c).2 = .quoted '"' ∨
          (l.step c).mode = .escaped '"' ∧ (m.step c).2 = .escaped '"') ∨
        (l.step c).mode = .code ∧ (m.step c).2 = .code := by
      rcases hmode with ⟨hl, rfl⟩ | ⟨hl, rfl⟩
      · rw [Lexer.step, hl]
        by_cases hesc : c = '\\'
        · subst hesc
          exact .inl (.inr ⟨rfl, rfl⟩)
        · by_cases hquote : c = '"'
          · subst hquote
            exact .inr ⟨rfl, rfl⟩
          · simp [Mode.next, Mode.step, hesc, hquote]
      · rw [step, hl]
        exact .inl (.inl ⟨rfl, rfl⟩)
    rcases hnext with hopen | ⟨hl, hm⟩
    · have hin : (l.step c).inLiteral = true := by
        rcases hopen with ⟨hl, _⟩ | ⟨hl, _⟩ <;> rw [inLiteral, hl] <;> rfl
      rw [if_pos hin] at h
      obtain ⟨hmask, hrun, hconv, hafter⟩ := ih hopen h
      exact ⟨by rw [hmask], hrun, by rw [hconv]; rfl, hafter⟩
    · have hout : (l.step c).inLiteral = false := by rw [inLiteral, hl]; rfl
      rw [hout, if_neg Bool.false_ne_true, if_pos rfl, List.isEmpty_iff] at h
      subst h
      rw [hm]
      exact ⟨rfl, hl, rfl, rfl⟩

theorem Lexer.maskFrom_rawQuoted {s : Text} :
    ∀ {l : Lexer}, (l.mode = .quoted '"' ∨ l = ⟨.escaped '"', '\\'⟩) → l.fills true s = true →
      (⟨.raw, l.last⟩ : Lexer).maskFrom s = List.replicate s.length ' ' := by
  induction s with
  | nil => exact fun _ h => nomatch h
  | cons c s ih =>
    intro l hmode h
    rw [Lexer.fills] at h
    rw [maskFrom, show (⟨.raw, l.last⟩ : Lexer).isCode c = false from rfl, if_neg Bool.false_ne_true, length_cons,
      replicate_succ]
    -- the raw literal goes on unless the string ends here
    have hnext : (l.step c).inLiteral = false ∨
        ((l.step c).mode = .quoted '"' ∨ l.step c = ⟨.escaped '"', '\\'⟩) ∧
          (⟨.raw, l.last⟩ : Lexer).step c = ⟨.raw, (l.step c).last⟩ := by
      rcases hmode with hl | rfl
      · unfold inLiteral step
        rw [hl]
        by_cases hesc : c = '\\'
        · subst hesc
          exact .inr ⟨.inr rfl, rfl⟩
        · by_cases hquote : c = '"'
          · subst hquote
            exact .inl rfl
          · exact .inr ⟨.inl (by simp [Mode.next, hesc, hquote]), by simp [Mode.next, hquote]⟩
      · exact .inr ⟨.inl rfl, by simp [step, Mode.next]⟩
    rcases hnext with hout | ⟨hopen, hraw⟩
    · rw [hout, if_neg Bool.false_ne_true, if_pos rfl, List.isEmpty_iff] at h
      rw [h]
      rfl
    · have hin : (l.step c).inLiteral = true := by
        rcases hopen with hl | hl <;> rw [inLiteral, hl] <;> rfl
      rw [if_pos hin] at h
      rw [hraw, ih hopen h]

/-! ## 2. Fields as they are written -/

/-- What the type of a field never holds: quotes, a semicolon, or the start of a comment. -/
def fieldMarks : Text := "\"'\x60/;"

/-- What may stand as the type of a field. -/
structure IsFieldType (t : Text) : Prop where
  element : IsElement t
  unmarked : ∀ c ∈ fieldMarks, c ∉ t
  oneLine : '\n' ∉ t

theorem TypeExpr.isFieldType (t : TypeExpr) : IsFieldType t.go where
  element := t.isTypeText.toIsElement
  unmarked c hc hmem :=
    absurd (t.isTypeChar_of_mem c hmem)
      ((show ∀ c ∈ fieldMarks, ¬ isTypeChar c = true by decide) c hc)
  oneLine hmem := absurd (t.isTypeChar_of_mem _ hmem) (by decide)

/-- What follows a field, with the white space in front of it. -/
inductive FieldTag where
  | none
  | quoted (gap content : Text)
  | raw (gap content : Text)

namespace FieldTag

/-- The tag as it is written. -/
def text : FieldTag → Text
  | none => []
  | quoted gap content => gap ++ ('"' :: (content ++ ['"']))
  | raw gap content => gap ++ ('\x60' :: (content ++ ['\x60']))

/-- The tag once its backquotes are converted. -/
def code : FieldTag → Text
  | none => []
  | quoted gap content => gap ++ ('"' :: (content ++ ['"']))
  | raw gap content => gap ++ literal content

/-- A string in double quotes is one literal. A raw string holds no backquote and no end of a raw
    literal. -/
def Valid : FieldTag → Prop
  | none => True
  | quoted gap content => Blank gap ∧ isStringLiteral ('"' :: (content ++ ['"'])) = true
  | raw gap content => Blank gap ∧ '\x60' ∉ content ∧ includes content ")\"" = false

end FieldTag

/-- Names with white space around them and their type, or the name of an embedded type. -/
inductive FieldBody where
  | named (earlier : List Text) (last gap type : Text)
  | embedded (type : Text)

namespace FieldBody

/-- The body as it is written. -/
def text : FieldBody → Text
  | named earlier last gap type => joinWith [','] (earlier ++ [last ++ (gap ++ type)])
  | embedded type => type

/-- The names are identifiers, and stand apart from their type. -/
def Valid : FieldBody → Prop
  | named earlier last gap type =>
    (∀ n ∈ earlier ++ [last], isIdentifier (trim n) = true) ∧ (Blank gap ∧ gap ≠ []) ∧ IsFieldType type
  | embedded type => ∃ n : TypeName, n.text = type

/-- The text is read as the body. -/
def ReadFrom (s : Text) : FieldBody → Prop
  | named earlier last _ type =>
    splitNamesAndType s = ((earlier ++ [last]).map trim, some type) ∧
      ∀ n ∈ earlier ++ [last], isIdentifier (trim n) = true
  | embedded type => type = s ∧ (splitNamesAndType s).2 = none ∧ startsWith s "*" = false

end FieldBody

/-- A field of a struct. -/
structure StructField where
  body : FieldBody
  tag : FieldTag

namespace StructField

/-- The field as it is written. -/
def text (f : StructField) : Text := f.body.text ++ f.tag.text

/-- The field once its backquotes are converted. -/
def code (f : StructField) : Text := f.body.text ++ f.tag.code

/-- A field on a line of its own. -/
structure Written (f : StructField) : Prop where
  body : f.body.Valid
  tag : f.tag.Valid
  solid : trim f.text = f.text

/-- A string follows right behind an `R`. -/
def Fused (f : StructField) : Prop := f.body.text.getLast? = some 'R' ∧ f.tag.text.head? = some '"'

instance (f : StructField) : Decidable f.Fused := inferInstanceAs (Decidable (_ ∧ _))

/-- A field whose tag stands apart from an `R`. -/
structure Valid (f : StructField) : Prop extends Written f where
  apart : ¬ f.Fused

/-- The names of the field, without the white space around them. -/
def names (f : StructField) : List Text :=
  match f.body with
  | .named earlier last _ _ => (earlier ++ [last]).map trim
  | .embedded _ => []

/-- A member of the class for every name. -/
def members (f : StructField) : List Text :=
  match f.body with
  | .named _ _ _ type => f.names.map fun n => cppType type ++ " " ++ n ++ "\x7b\x7d;"
  | .embedded _ => []

/-- The type it embeds. -/
def bases (f : StructField) : List Text :=
  match f.body with
  | .named _ _ _ _ => []
  | .embedded type => [type]

/-- What the method of the class writes. -/
def shown (f : StructField) : List Text :=
  match f.body with
  | .named _ _ _ _ => f.names
  | .embedded type => ["static_cast<const " ++ type ++ "&>(*this)"]

/-- The names that hold maps. -/
def maps (f : StructField) : List Text :=
  match f.body with
  | .named _ _ _ type => if isMapType type then f.names else []
  | .embedded _ => []

end StructField

/-! ## 3. Tags -/

namespace Raw

theorem convert_append (ha : ∀ c ∈ a, isQuote c = false) (b : Text) :
    convert (a ++ b) = ⟨a ++ (convert b).line, (convert b).opened⟩ := by
  have hno : '\x60' ∉ a := fun h => absurd (ha _ h) (by decide)
  unfold convert
  rw [convertFrom_append, after_of_unquoted ha, convertFrom_of_not_mem hno (by decide)]

theorem after_append (m : Mode) (a b : Text) : after m (a ++ b) = after (after m a) b := foldl_append ..

theorem after_raw (h : '\x60' ∉ content) : after .raw content = .raw := by
  induction content with
  | nil => rfl
  | cons c r ih =>
    rw [mem_cons, not_or] at h
    have hstep : (Mode.step c .raw).2 = .raw := by
      rw [Mode.step, beq_eq_false_iff_ne.mpr (Ne.symm h.1)]
      rfl
    show after (Mode.step c .raw).2 r = .raw
    rw [hstep, ih h.2]

end Raw

theorem unquoted_of_blank {s : Text} (h : Blank s) : ∀ c ∈ s, isQuote c = false :=
  fun c hc => (bare_of_blank h c hc).2

namespace FieldTag

variable {t : FieldTag} (ht : t.Valid)

theorem fills_of_isStringLiteral (h : isStringLiteral ('"' :: (content ++ ['"'])) = true) :
    (start.step '"').fills true (content ++ ['"']) = true := by
  have hsolid : Solid ('"' :: (content ++ ['"'])) :=
    ⟨solidStart_cons rfl _, solidEnd_of_last (getLast?_bracketed [] content '"' '"') rfl⟩
  unfold isStringLiteral at h
  rw [trim_eq_self_of_solid hsolid, Bool.and_eq_true] at h
  exact h.2

include ht

theorem Valid.sealed : Sealed t.code := by
  cases t with
  | none => exact ⟨nofun, rfl⟩
  | quoted gap content =>
    obtain ⟨hgap, hliteral⟩ := ht
    have hanew : (start.run gap).Anew ['"'] := (fresh_start.run_blank hgap).anew
    obtain ⟨hmask, hmode, _⟩ := Lexer.fills_quoted (m := .quoted '"') (.inl ⟨rfl, rfl⟩)
      (fills_of_isStringLiteral hliteral)
    refine ⟨fun c hc => ?_, ?_⟩
    · rw [code, maskFrom_append, (bare_of_blank hgap).maskFrom_eq rfl, maskFrom,
        hanew.isCode_eq, hanew.step_eq, hmask] at hc
      rcases mem_append.mp hc with hc | hc
      · exact .inl (hgap c hc)
      · rcases mem_cons.mp hc with rfl | hc
        · exact .inl rfl
        · rw [eq_of_mem_replicate hc]
          exact .inl rfl
    · rw [code, run_append, run_cons, hanew.step_eq]
      exact hmode
  | raw gap content =>
    obtain ⟨hgap, _, hclosing⟩ := ht
    have hmode : (start.run gap).mode = .code := (bare_of_blank hgap).run_mode rfl
    obtain ⟨hmask, hpast⟩ := pass_literal hmode hclosing
    refine ⟨fun c hc => ?_, ?_⟩
    · rw [code, maskFrom_append, (bare_of_blank hgap).maskFrom_eq rfl, hmask] at hc
      rcases mem_append.mp hc with hc | hc
      · exact .inl (hgap c hc)
      · rcases mem_cons.mp hc with rfl | hc
        · exact .inr rfl
        · rw [eq_of_mem_replicate hc]
          exact .inl rfl
    · rw [code, run_append]
      exact hpast.mode

theorem Valid.convert : convert t.text = ⟨t.code, false⟩ ∧ after .code t.text = .code := by
  cases t with
  | none => exact ⟨rfl, rfl⟩
  | quoted gap content =>
    obtain ⟨hgap, hliteral⟩ := ht
    obtain ⟨_, _, hconvert, hafter⟩ := Lexer.fills_quoted (m := .quoted '"') (.inl ⟨rfl, rfl⟩)
      (fills_of_isStringLiteral hliteral)
    have hopen : Raw.convert ('"' :: (content ++ ['"'])) = ⟨'"' :: (content ++ ['"']), false⟩ := by
      show Raw.Converted.mk (['"'] ++ (convertFrom (.quoted '"') (content ++ ['"'])).line)
        (convertFrom (.quoted '"') (content ++ ['"'])).opened = _
      rw [hconvert]
      rfl
    refine ⟨?_, ?_⟩
    · rw [text, convert_append (unquoted_of_blank hgap), hopen]
      rfl
    · rw [text, after_append, after_of_unquoted (unquoted_of_blank hgap)]
      exact hafter
  | raw gap content =>
    obtain ⟨hgap, hback, _⟩ := ht
    refine ⟨?_, ?_⟩
    · rw [text, convert_append (unquoted_of_blank hgap), convert_content hback]
      rfl
    · rw [text, after_append, after_of_unquoted (unquoted_of_blank hgap)]
      show after .raw (content ++ ['\x60']) = .code
      rw [after_append, after_raw hback]
      rfl

end FieldTag

/-! ## 4. Tags cut off -/

section Cut

variable {b gap : Text} (hquote : '"' ∉ b) (hback : '\x60' ∉ b) (hgap : Blank gap)

theorem stripTag_atQuote {rest : Text} (hquote : '"' ∉ a) (hback : '\x60' ∉ a) :
    stripTag (a ++ '"' :: rest) = trim (a.take (if endsWith a "R" then a.length - 1 else a.length)) := by
  have hcut : (if endsWith a "R" then a.length - 1 else a.length) ≤ a.length := by
    split
    · exact Nat.sub_le _ _
    · exact Nat.le_refl _
  unfold stripTag
  rw [idxOf?_append_cons hquote]
  simp only [take_left]
  generalize hn : (if endsWith a "R" then a.length - 1 else a.length) = n at hcut ⊢
  cases hidx : (a ++ '"' :: rest).idxOf? '\x60' with
  | none => rw [take_append_of_le_length hcut]
  | some i =>
    have hi : a.length ≤ i := by
      refine Nat.le_of_not_lt fun hlt => hback ?_
      obtain ⟨hi, heq, _⟩ := findIdx?_eq_some_iff_getElem.mp hidx
      rw [getElem_append_left hlt, beq_iff_eq] at heq
      exact heq ▸ getElem_mem hlt
    simp only [Nat.min_eq_right (Nat.le_trans hcut hi)]
    rw [take_append_of_le_length hcut]

include hquote hback

theorem stripTag_bare : stripTag b = trim b := by
  unfold stripTag
  rw [idxOf?_eq_none_iff.mpr hquote, idxOf?_eq_none_iff.mpr hback]
  simp only [take_length]

include hgap

theorem stripTag_quoted (hapart : gap = [] → b.getLast? ≠ some 'R') (rest : Text) :
    stripTag (b ++ (gap ++ '"' :: rest)) = trim b := by
  have hlast : endsWith (b ++ gap) "R" = false := by
    refine endsWith_of_getLast? fun h => ?_
    by_cases hne : gap = []
    · rw [hne, append_nil] at h
      exact hapart hne h
    · rw [getLast?_append_of_ne_nil _ hne] at h
      exact absurd (hgap 'R' (mem_of_getLast? h)) (by decide)
  rw [← append_assoc, stripTag_atQuote, hlast, if_neg Bool.false_ne_true, take_length]
  · exact trim_append_blank hgap b
  · exact not_mem_append hquote (not_mem_of_blank hgap rfl)
  · exact not_mem_append hback (not_mem_of_blank hgap rfl)

theorem stripTag_raw (rest : Text) : stripTag (b ++ (gap ++ 'R' :: '"' :: rest)) = trim b := by
  have hsplit : b ++ (gap ++ 'R' :: '"' :: rest) = b ++ gap ++ ['R'] ++ '"' :: rest := by simp
  have hR : endsWith (b ++ gap ++ ['R']) "R" = true := endsWith_append (b ++ gap) "R"
  rw [hsplit, stripTag_atQuote, if_pos hR, length_append, length_singleton, Nat.add_sub_cancel,
    take_left]
  · exact trim_append_blank hgap b
  · exact not_mem_append (not_mem_append hquote (not_mem_of_blank hgap rfl)) (by decide)
  · exact not_mem_append (not_mem_append hback (not_mem_of_blank hgap rfl)) (by decide)

end Cut

/-! ## 5. Fields read back -/

namespace FieldBody.Valid

variable {earlier : List Text} {last gap type : Text} (hb : (FieldBody.named earlier last gap type).Valid)

include hb

theorem apart : ∀ c ∈ (gap ++ type).head?, isBlank c = true := by
  obtain ⟨_, ⟨hgap, hne⟩, _⟩ := hb
  intro c hc
  rw [head?_append_of_ne_nil _ hne] at hc
  exact hgap c (mem_of_head? hc)

theorem isPart_type : IsPart ',' (gap ++ type) := by
  obtain ⟨_, ⟨hgap, hne⟩, htype⟩ := hb
  refine (isPart_bare (bare_of_blank hgap) fun h => absurd (hgap _ h) (by decide)).join htype.element.part (.inl ?_)
  exact fun hlast => absurd (hgap _ (mem_of_getLast? hlast)) (by decide)

theorem trim_type : trim (gap ++ type) = type := by
  obtain ⟨_, ⟨hgap, _⟩, htype⟩ := hb
  rw [trim_blank_append hgap, htype.element.trim_eq]

end FieldBody.Valid

theorem splitNamesAndType_solid {s : Text} (h : ∀ c ∈ s, isBlank c = false) : (splitNamesAndType s).2 = none := by
  have hlast : (splitTop ',' s).getLast?.bind (splitOnce? isBlank) = none := by
    refine Option.bind_eq_none_iff.mpr fun p hp => splitOnce?_eq_none fun c hc => ?_
    exact h c ((infix_of_mem_splitTop (mem_of_getLast? hp)).subset hc)
  unfold splitNamesAndType
  dsimp only
  rw [hlast]

namespace FieldBody

variable {b : FieldBody} (hb : b.Valid)

include hb

theorem Valid.wellNested : WellNested b.text := by
  cases b with
  | embedded type =>
    obtain ⟨name, rfl⟩ := hb
    exact name.bare_text.wellNested
  | named earlier last gap type =>
    exact wellNested_joinWith (by decide) (by decide)
      (isPart_of_mem_names hb.1 hb.apart rfl rfl hb.isPart_type)

theorem Valid.unmarked : ∀ c ∈ fieldMarks, c ∉ b.text := by
  have hmarks : ∀ c ∈ fieldMarks, isBlank c = false ∧ isWordChar c = false ∧ c ≠ '.' ∧ c ≠ ',' := by decide
  intro c hc hmem
  obtain ⟨hblank, hword, hdot, hcomma⟩ := hmarks c hc
  cases b with
  | embedded type =>
    obtain ⟨name, rfl⟩ := hb
    exact name.not_mem_text hword hdot hmem
  | named earlier last gap type =>
    obtain ⟨hid, ⟨hgap, _⟩, htype⟩ := hb
    have hname {n : Text} (hn : n ∈ earlier ++ [last]) : c ∉ n := fun hmem => by
      rcases char_of_name (hid n hn) hmem with h | h
      · rw [hblank] at h
        cases h
      · rw [hword] at h
        cases h
    rcases mem_joinWith hmem with hmem | ⟨p, hp, hmem⟩
    · exact hcomma (mem_singleton.mp hmem)
    · rcases mem_append.mp hp with hp | hp
      · exact hname (mem_append_left _ hp) hmem
      · rw [mem_singleton.mp hp] at hmem
        rcases mem_append.mp hmem with hmem | hmem
        · exact hname (by simp) hmem
        · rcases mem_append.mp hmem with hmem | hmem
          · rw [hgap c hmem] at hblank
            cases hblank
          · exact htype.unmarked c hc hmem

theorem Valid.ne_nil : b.text ≠ [] := by
  cases b with
  | embedded type =>
    obtain ⟨name, rfl⟩ := hb
    exact name.isTypeText.ne_nil
  | named earlier last gap type =>
    obtain ⟨front, hfront⟩ := exists_joinWith_concat [','] earlier
    rw [text, hfront]
    have hne : type ≠ [] := hb.2.2.element.ne_nil
    simp [hne]

theorem Valid.solid_end : SolidEnd b.text := by
  cases b with
  | embedded type =>
    obtain ⟨name, rfl⟩ := hb
    exact name.isTypeText.solid.2
  | named earlier last gap type =>
    obtain ⟨_, _, htype⟩ := hb
    obtain ⟨front, hfront⟩ := exists_joinWith_concat [','] earlier
    rw [text, hfront, ← append_assoc, ← append_assoc]
    exact SolidEnd.append htype.element.solid.2 htype.element.ne_nil _

theorem Valid.readFrom : b.ReadFrom b.text := by
  cases b with
  | embedded type =>
    obtain ⟨name, rfl⟩ := hb
    exact ⟨rfl, splitNamesAndType_solid name.not_blank_text,
      startsWith_eq_false (c := '*') (by decide) (name.not_mem_text rfl (by decide))⟩
  | named earlier last gap type =>
    have hne : ¬ Blank (gap ++ type) := fun hblank => by
      have := trim_eq_nil_iff.mpr hblank
      rw [hb.trim_type] at this
      exact hb.2.2.element.ne_nil this
    have hread := splitNamesAndType_typed hb.1 hb.apart hb.isPart_type hne
    rw [hb.trim_type] at hread
    exact ⟨hread, hb.1⟩

end FieldBody

namespace FieldTag

theorem code_cases (t : FieldTag) : t.text = [] ∧ t.code = [] ∨ ∃ front, t.code = front ++ ['"'] := by
  cases t with
  | none => exact .inl ⟨rfl, rfl⟩
  | quoted gap content => exact .inr ⟨gap ++ ('"' :: content), by simp [code]⟩
  | raw gap content =>
    obtain ⟨front, hfront⟩ := literal_concat content
    exact .inr ⟨gap ++ front, by rw [code, hfront, append_assoc]⟩

end FieldTag

/-- Text that starts like a tag of the body, apart from an `R`. -/
inductive StartsTag (b : Text) : Text → Prop where
  | nil : StartsTag b []
  | quoted {gap : Text} (hgap : Blank gap) (hapart : gap = [] → b.getLast? ≠ some 'R') (rest : Text) :
    StartsTag b (gap ++ '"' :: rest)
  | raw {gap : Text} (hgap : Blank gap) (rest : Text) : StartsTag b (gap ++ 'R' :: '"' :: rest)

theorem StructField.Fused.tag_eq {f : StructField} (h : f.Fused) (ht : f.tag.Valid) :
    ∃ content, f.tag = .quoted [] content ∧ isStringLiteral ('"' :: (content ++ ['"'])) = true := by
  obtain ⟨body, tag⟩ := f
  have hgap {gap s : Text} {c : Char} (hc : c ≠ '"') (hblank : Blank gap) : (gap ++ c :: s).head? ≠ some '"' := by
    cases gap with
    | nil => exact fun he => hc (Option.some.inj he)
    | cons d gap => exact fun he => absurd (hblank '"' (Option.some.inj he ▸ mem_cons_self)) (by decide)
  cases tag with
  | none => cases h.2
  | raw gap content => exact absurd h.2 (hgap (by decide) ht.1)
  | quoted gap content =>
    cases gap with
    | nil => exact ⟨content, rfl, ht.2⟩
    | cons d gap =>
      obtain rfl := Option.some.inj h.2
      exact absurd (ht.1 '"' mem_cons_self) (by decide)

theorem StructField.joins_of_not_fused {f : StructField} (h : ¬ f.Fused) : Joins f.body.text f.tag.code := by
  by_cases hR : f.body.text.getLast? = some 'R'
  · refine .inr fun hquote => h ⟨hR, ?_⟩
    obtain ⟨body, tag⟩ := f
    cases tag with
    | none => exact hquote
    | quoted gap content => exact hquote
    | raw gap content =>
      cases gap with
      | nil => cases hquote
      | cons c gap => exact hquote
  · exact .inl hR

namespace StructField.Written

variable {f : StructField} (hf : f.Written)

include hf

theorem masked_tag : Masked (start.run f.body.text) f.tag.code := by
  by_cases hfused : f.Fused
  · obtain ⟨content, htag, hliteral⟩ := hfused.tag_eq hf.tag
    have hmode := hf.body.wellNested.literals
    have hlast : (start.run f.body.text).last = 'R' := by
      rw [run_last, hfused.1]
      rfl
    have hrun : start.run f.body.text = ⟨.code, 'R'⟩ := by rw [← hmode, ← hlast]
    have hraw := Lexer.maskFrom_rawQuoted (.inl rfl) (FieldTag.fills_of_isStringLiteral hliteral)
    intro c hc
    rw [htag, hrun] at hc
    change c ∈ ' ' :: (⟨.raw, '"'⟩ : Lexer).maskFrom (content ++ ['"']) at hc
    rw [show (⟨.raw, '"'⟩ : Lexer).maskFrom (content ++ ['"']) = _ from hraw] at hc
    rcases mem_cons.mp hc with rfl | hc
    · exact .inl rfl
    · exact .inl (by rw [eq_of_mem_replicate hc]; rfl)
  · unfold Masked
    rw [(hf.body.wellNested.anew (joins_of_not_fused hfused)).maskFrom_eq]
    exact hf.tag.sealed.masked

theorem brackets_code : start.unclosed? [] f.code = some [] := by
  rw [code, unclosed?_append, hf.body.wellNested.brackets, Option.bind_some, hf.masked_tag.unclosed?_eq]

theorem convert_text : convert f.text = ⟨f.code, false⟩ ∧ after .code f.text = .code := by
  have hbody : ∀ c ∈ f.body.text, isQuote c = false := by
    intro c hc
    refine Bool.eq_false_iff.mpr fun hq => ?_
    rw [isQuote, Bool.or_eq_true, Bool.or_eq_true, beq_iff_eq, beq_iff_eq, beq_iff_eq] at hq
    rcases hq with (rfl | rfl) | rfl <;> exact hf.body.unmarked _ (by decide) hc
  obtain ⟨hconvert, hafter⟩ := hf.tag.convert
  refine ⟨?_, ?_⟩
  · rw [text, convert_append hbody, hconvert]
    rfl
  · rw [text, after_append, after_of_unquoted hbody]
    exact hafter

theorem commentIndex?_code : start.commentIndex? f.code = none :=
  commentIndex?_eq_none (hf.body.unmarked _ (by decide))
    (Lexer.commentIndex?_of_masked (hf.masked_tag.not_mem rfl (by decide)))

theorem head?_text :
    ∃ c, f.text.head? = some c ∧ f.code.head? = some c ∧ isBlank c = false ∧ c ≠ '/' ∧ c ≠ '}' := by
  obtain ⟨c, r, hc⟩ := exists_cons_of_ne_nil hf.body.ne_nil
  have hhead : f.text.head? = some c := by rw [text, hc]; rfl
  refine ⟨c, hhead, by rw [code, hc]; rfl, ?_, ?_, ?_⟩
  · have := solid_trim f.text
    rw [hf.solid] at this
    exact this.1 c hhead
  · rintro rfl
    exact hf.body.unmarked '/' (by decide) (by rw [hc]; exact mem_cons_self)
  · rintro rfl
    have hclose : startsWith f.body.text "\x7d" = false := hf.body.wellNested.not_startsWith rfl
    rw [hc] at hclose
    cases hclose

theorem getLast?_code {c : Char} (h : f.code.getLast? = some c) : isBlank c = false ∧ c ≠ ';' := by
  rcases f.tag.code_cases with ⟨_, hcode⟩ | ⟨front, hfront⟩
  · rw [code, hcode, append_nil] at h
    refine ⟨hf.body.solid_end c h, ?_⟩
    rintro rfl
    exact hf.body.unmarked ';' (by decide) (mem_of_getLast? h)
  · rw [code, hfront, ← append_assoc, getLast?_concat] at h
    obtain rfl := Option.some.inj h
    decide

theorem solid_code : Solid f.code := by
  obtain ⟨c, _, hcode, hblank, _⟩ := hf.head?_text
  refine ⟨fun d hd => ?_, fun d hd => (hf.getLast?_code hd).1⟩
  obtain rfl := Option.some.inj (hcode.symm.trans hd)
  exact hblank

theorem code_ne_nil : f.code ≠ [] := append_ne_nil_of_left_ne_nil hf.body.ne_nil _

theorem lineParts?_eq (hline : trim line = f.text) : lineParts? line = some (f.code, none) := by
  obtain ⟨c, hhead, _, _, hslash, _⟩ := hf.head?_text
  exact lineParts?_of_code hline (startsWith_of_head? hhead rfl hslash) (startsWith_of_head? hhead rfl hslash)
    hf.convert_text.1 hf.commentIndex?_code (trim_eq_self_of_solid hf.solid_code)
    (endsWith_of_getLast? fun h => (hf.getLast?_code h).2 rfl)

theorem solid_body : trim f.body.text = f.body.text := by
  obtain ⟨c, r, hc⟩ := exists_cons_of_ne_nil hf.body.ne_nil
  obtain ⟨d, hd, _, hblank, _⟩ := hf.head?_text
  refine trim_eq_self_of_solid ⟨fun e he => ?_, hf.body.solid_end⟩
  have : f.text.head? = some e := by
    rw [text, hc]
    rwa [hc] at he
  obtain rfl := Option.some.inj (hd.symm.trans this)
  exact hblank

/-- What stands in front of the tag is left. -/
theorem stripTag_eq_body {tail : Text} (h : StartsTag f.body.text tail) : stripTag (f.body.text ++ tail) = f.body.text := by
  have hquote := hf.body.unmarked '"' (by decide)
  have hback := hf.body.unmarked '\x60' (by decide)
  cases h with
  | nil => rw [append_nil, stripTag_bare hquote hback, hf.solid_body]
  | quoted hgap hapart rest => rw [stripTag_quoted hquote hback hgap hapart, hf.solid_body]
  | raw hgap rest => rw [stripTag_raw hquote hback hgap, hf.solid_body]

theorem stripTag_fused (h : f.Fused) : stripTag f.code = trim f.body.text.dropLast := by
  obtain ⟨content, htag, _⟩ := h.tag_eq hf.tag
  have hR : endsWith f.body.text "R" = true := by
    obtain ⟨r, hr⟩ := getLast?_eq_some_iff.mp h.1
    rw [hr]
    exact endsWith_append r "R"
  rw [code, htag]
  refine (stripTag_atQuote (hf.body.unmarked '"' (by decide)) (hf.body.unmarked '\x60' (by decide))).trans ?_
  rw [if_pos hR, dropLast_eq_take]

end StructField.Written

namespace StructField.Valid

variable {f : StructField} (hf : f.Valid)

include hf

theorem isPart_code : IsPart ';' f.code := by
  have hbody : IsPart ';' f.body.text :=
    ⟨hf.body.wellNested, topIndex?_of_not_mem (hf.body.unmarked _ (by decide))⟩
  exact hbody.join (hf.tag.sealed.isPart rfl (by decide)) (joins_of_not_fused hf.apart)

theorem startsTag : StartsTag f.body.text f.tag.code := by
  have hapart := hf.apart
  have htag := hf.tag
  obtain ⟨body, tag⟩ := f
  cases tag with
  | none => exact .nil
  | raw gap content => exact .raw htag.1 _
  | quoted gap content =>
    refine .quoted htag.1 (fun hgap hR => hapart ⟨hR, ?_⟩) _
    rw [hgap]
    rfl

end StructField.Valid

/-! ## 6. Fields in a struct -/

namespace State

/-- The struct under way takes more fields and bases. -/
def withFields (s : State) (fields bases : List Text) : State :=
  { s with struct := s.struct.map fun d => { d with fields := d.fields ++ fields, bases := d.bases ++ bases } }

/-- The struct under way takes a field: its maps, its names, and its base. -/
def takeField (s : State) (f : StructField) : State :=
  (f.maps.foldl registerMap s).withFields f.shown f.bases

theorem struct_registerMaps (names : List Text) (s : State) : (names.foldl registerMap s).struct = s.struct := by
  obtain ⟨known, hknown⟩ := s.foldl_registerMap_eq id names
  rw [show names.foldl registerMap s = _ from hknown]

end State

/-- What a field is lowered to. -/
def StructField.lowered (f : StructField) : Lowered :=
  match f.body with
  | .named _ _ _ _ => .line (unlines f.members)
  | .embedded _ => .dropped

namespace Lower

theorem extendStruct_run {s : State} (hs : s.struct.isSome = true) (fields bases : List Text) (line : Text) :
    (extendStruct fields bases line).run s = .ok () (s.withFields fields bases) := by
  obtain ⟨d, hd⟩ := Option.isSome_iff_exists.mp hs
  unfold extendStruct State.withFields
  rw [EStateM.run_bind, EStateM.run_get]
  simp only [hd]
  rfl

variable {line field : Text} (hline : stripTag line = field) {s : State}

include hline

theorem structField_blank (hne : field = []) : (structField line).run s = .ok .dropped s := by
  unfold structField
  extract_lets text
  have htext : text.isEmpty = true := isEmpty_iff.mpr (hline.trans hne)
  rw [if_pos htext]
  rfl

theorem structField_embedded (hne : field ≠ []) (hread : (splitNamesAndType field).2 = none)
    (hs : s.struct.isSome = true) :
    (structField line).run s = .ok .dropped (if startsWith field "*" then
      s.notice ("embedded pointer " ++ quoted field ++ " is not supported, dropped")
    else s.withFields ["static_cast<const " ++ field ++ "&>(*this)"] [field]) := by
  unfold structField
  extract_lets text rest
  have htext : text = field := hline
  clear_value text
  subst htext
  rw [if_neg (by simpa using hne)]
  split
  · by_cases hstar : startsWith text "*" = true
    · rw [if_pos hstar, if_pos hstar]
      rfl
    · rw [if_neg hstar, if_neg hstar]
      exact bind_ok (extendStruct_run hs _ _ _)
  · rename_i hsplit
    rw [hsplit] at hread
    cases hread

theorem structField_named {names : List Text} {type : Text} (hne : field ≠ [])
    (hread : splitNamesAndType field = (names, some type)) (hs : s.struct.isSome = true) :
    (structField line).run s = if areNames names then
        .ok (.line (unlines (names.map (zeroValue (cppType type)))))
          (((if isMapType type then names else []).foldl State.registerMap s).withFields names [])
      else .error (.fault (.unrecognized .field line)) s := by
  unfold structField
  extract_lets text rest
  have htext : text = field := hline
  clear_value text
  subst htext
  rw [if_neg (by simpa using hne)]
  split
  · rename_i hsplit
    cases hread.symm.trans hsplit
  · rename_i hsplit
    cases hread.symm.trans hsplit
    extract_lets after before
    have hafter {s₁ : State} (hs₁ : s₁.struct.isSome = true) : (after ()).run s₁ =
        .ok (.line (unlines (names.map (zeroValue (cppType type))))) (s₁.withFields names []) :=
      bind_ok (extendStruct_run hs₁ _ _ _)
    cases hnames : areNames names with
    | false => rfl
    | true =>
      rw [if_pos rfl]
      by_cases hmap : isMapType type = true
      · have hbefore : before () = (modify (fun s => names.foldl State.registerMap s) >>= after) := if_pos hmap
        rw [hbefore, if_pos hmap]
        exact hafter (by rw [State.struct_registerMaps]; exact hs)
      · have hbefore : before () = after () := if_neg hmap
        rw [hbefore, if_neg hmap]
        exact hafter hs

end Lower

theorem FieldBody.ReadFrom.structField_run {b : FieldBody} {s : Text} (hb : b.ReadFrom s) (hne : s ≠ [])
    (hline : stripTag line = s) (tag : FieldTag) {u : State} (hu : u.struct.isSome = true) :
    (Lower.structField line).run u = .ok (StructField.lowered ⟨b, tag⟩) (u.takeField ⟨b, tag⟩) := by
  cases b with
  | embedded type =>
    obtain ⟨rfl, hread, hstar⟩ := hb
    rw [Lower.structField_embedded hline hne hread hu]
    exact congrArg (EStateM.Result.ok Lowered.dropped) (if_neg (Bool.eq_false_iff.mp hstar))
  | named earlier last gap type =>
    obtain ⟨hread, hid⟩ := hb
    have hnames : areNames ((earlier ++ [last]).map trim) = true := by
      refine areNames_iff.mpr ⟨by simp, fun n hn => ?_⟩
      obtain ⟨m, hm, rfl⟩ := mem_map.mp hn
      exact hid m hm
    rw [Lower.structField_named hline hne hread hu, if_pos hnames]
    rfl

theorem StructField.Valid.structField_run {f : StructField} (hf : f.Valid) (hline : stripTag line = f.body.text)
    {s : State} (hs : s.struct.isSome = true) : (Lower.structField line).run s = .ok f.lowered (s.takeField f) :=
  hf.body.readFrom.structField_run hf.body.ne_nil hline f.tag hs

end Linewise
