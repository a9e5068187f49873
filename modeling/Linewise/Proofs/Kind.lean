/-
  Kinds of lines by shape: by the first word, by a definition, and what is left.
-/
import Linewise.Statement
import Linewise.Proofs.Word

namespace Linewise

open Text List

variable {r w x line : Text} {kind : StatementKind}

namespace StatementKind

/-! ## 1. First words -/

/-- A character that ends the first word of a line. -/
def isBreak (c : Char) : Bool := isBlank c || c == '(' || c == '{'

theorem firstWord_append (hw : ∀ c ∈ w, isBreak c = false) (hr : ∀ c, r.head? = some c → isBreak c = true) :
    firstWord (w ++ r) = w := by
  have hw' : ∀ c ∈ w, (!isBreak c) = true := fun c hc => by rw [hw c hc]; rfl
  show (w ++ r).takeWhile (fun c => !isBreak c) = w
  rw [takeWhile_append_of_pos hw']
  cases r with
  | nil => simp
  | cons c r =>
    rw [takeWhile_cons_of_neg (by simp [hr c rfl]), append_nil]

/-- The first words with a rule of their own. -/
def ruled : List Text := ["func", "var", "break", "continue"]

theorem ofFirstWord?_eq_lookup (h : firstWord line ∉ ruled) :
    ofFirstWord? line = keywords.lookup (firstWord line) := by
  have hne : ∀ w ∈ ruled, (firstWord line == w) = false := fun w hw => by
    rw [beq_eq_false_iff_ne]
    exact fun e => h (e ▸ hw)
  unfold ofFirstWord?
  simp only [hne "func" (by decide), hne "var" (by decide), hne "break" (by decide),
    hne "continue" (by decide), Bool.or_self, Bool.false_eq_true, if_false]

theorem groupOpener?_eq_none (h : endsWith line "(" = false) : Block.groupOpener? line = none := by
  unfold Block.groupOpener? stripEnd?
  rw [h]
  rfl

theorem ofCode_keyword (hlast : endsWith line "(" = false) (hw : firstWord line = w) (hr : w ∉ ruled)
    (hk : keywords.lookup w = some kind) : ofCode line = kind := by
  unfold ofCode
  rw [groupOpener?_eq_none hlast, ofFirstWord?_eq_lookup (by rw [hw]; exact hr), hw, hk]
  rfl

/-! ## 2. Definitions -/

/-- The words that name nothing. -/
def reserved : List Text :=
  ["break", "default", "func", "interface", "select", "case", "defer", "go", "map", "struct", "chan",
   "else", "goto", "package", "switch", "const", "fallthrough", "if", "range", "type", "continue",
   "for", "import", "return", "var"]

/-- A name: an identifier that is neither blank nor reserved. -/
@[mk_iff] structure IsName (x : Text) : Prop where
  identifier : isIdentifier x = true
  notBlank : x ≠ "_"
  notReserved : x ∉ reserved

instance (x : Text) : Decidable (IsName x) := decidable_of_iff _ (isName_iff ..).symm

theorem not_isBreak_of_isWordChar {c : Char} (h : isWordChar c = true) : isBreak c = false := by
  unfold isBreak
  rw [not_isBlank_of_isWordChar h]
  simp [ne_of_isWordChar h (d := '(') rfl, ne_of_isWordChar h (d := '{') rfl]

theorem keywords_reserved : ∀ p ∈ keywords, p.1 ∈ reserved ∨ isIdentifier p.1 = false := by
  decide

theorem ofFirstWord?_eq_none (hid : isIdentifier x = true) (hres : x ∉ reserved) (hw : firstWord line = x) :
    ofFirstWord? line = none := by
  have hr : firstWord line ∉ ruled := by
    rw [hw]
    intro hm
    refine hres ?_
    have : ∀ w ∈ ruled, w ∈ reserved := by decide
    exact this x hm
  rw [ofFirstWord?_eq_lookup hr, hw, lookup_eq_none_iff]
  intro p hp
  rw [bne_iff_ne]
  rintro rfl
  rcases keywords_reserved p hp with h | h
  · exact hres h
  · rw [hid] at h
    cases h

theorem not_isPrintCall (hid : isIdentifier x = true) : isPrintCall (x ++ ' ' :: r) = false := by
  refine Bool.eq_false_iff.mpr fun h => ?_
  obtain ⟨w, hw, hs⟩ := any_eq_true.mp h
  have hspec : ' ' ∉ w ∧ ∃ c ∈ w, isWordChar c = false := by
    have : ∀ w ∈ [("fmt.Print" : Text), "fmt.Fprint", "print(", "println("],
        ' ' ∉ w ∧ ∃ c ∈ w, isWordChar c = false := by decide
    exact this w hw
  obtain ⟨hspace, c, hc, hcw⟩ := hspec
  rw [startsWith_append_cons hspace] at hs
  obtain ⟨t, rfl⟩ := startsWith_iff.mp hs
  have := isWordChar_of_mem hid c (mem_append.mpr (.inl hc))
  rw [this] at hcw
  cases hcw

/-- The line speaks of channels. -/
def mentionsChannel (line : Text) : Bool :=
  includes (mask line) "<-" || containsWord (mask line) "chan"

theorem ofCode_define {v : Text} (hid : isIdentifier x = true) (hres : x ∉ reserved)
    (hv : endsWith (x ++ (" := " ++ v)) "(" = false) : ofCode (x ++ (" := " ++ v))
      = if mentionsChannel (x ++ (" := " ++ v)) then .unsupported "channel operations"
        else if opensMapLiteral (trim v) then .mapLiteralOpen else .assignment := by
  have hword : firstWord (x ++ (" := " ++ v)) = x := by
    refine firstWord_append (fun c hc => ?_) fun c hc => ?_
    · exact not_isBreak_of_isWordChar (isWordChar_of_mem hid c hc)
    · have : c = ' ' := by simpa using hc.symm
      rw [this]
      decide
  have helse : startsWith (x ++ (" := " ++ v)) "\x7d else if " = false := not_startsWith_identifier hid rfl _
  have hprint : isPrintCall (x ++ (" := " ++ v)) = false := not_isPrintCall hid
  have hbind := Binding.split?_define (bare_of_isIdentifier hid)
    (not_mem_of_isIdentifier hid (d := '=') rfl) v
  unfold ofCode
  rw [groupOpener?_eq_none hv, ofFirstWord?_eq_none hid hres hword]
  show ofSigns _ = _
  unfold ofSigns
  rw [helse, hprint, hbind]
  rfl

/-! ## 3. What shape can give -/

/-- The kinds a line can have by its shape that are no comment and open neither a group nor a map
    literal. -/
def isSelfContained : StatementKind → Bool
  | blank | comment | verbatim | importEntry | blockClose _ | closureEnd | structField
  | interfaceMember | mapLiteralEntry | compositeLiteralEntry => false
  | blockOpen _ | mapLiteralOpen => false
  | _ => true

/-- The value bound on the line is a map literal that is not closed. -/
def BindsOpenMap (line : Text) : Prop :=
  ∃ b, Binding.split? line = some b ∧ opensMapLiteral b.rhs = true

theorem ofVar_cases (line : Text) :
    (ofVar line = .mapLiteralOpen ∧ BindsOpenMap line) ∨ (ofVar line).isSelfContained = true := by
  unfold ofVar
  cases hb : Binding.split? line with
  | none => exact .inr rfl
  | some b =>
    simp only [Option.any_some]
    split
    · rename_i ho
      exact .inl ⟨rfl, b, hb, ho⟩
    · exact .inr rfl

theorem ofSigns_cases (line : Text) :
    (ofSigns line = .mapLiteralOpen ∧ BindsOpenMap line) ∨ (ofSigns line).isSelfContained = true := by
  unfold ofSigns
  split
  · exact .inr rfl
  · split
    · exact .inr rfl
    · split
      · exact .inr rfl
      · cases hb : Binding.split? line with
        | none => exact .inr rfl
        | some b =>
          simp only
          split
          · rename_i ho
            exact .inl ⟨rfl, b, hb, ho⟩
          · exact .inr rfl

theorem mem_keywords_of_lookup (h : keywords.lookup w = some kind) : (w, kind) ∈ keywords := by
  obtain ⟨l, r, hl, _⟩ := lookup_eq_some_iff.mp h
  rw [hl]
  simp

theorem ofFirstWord?_cases (h : ofFirstWord? line = some kind) :
    (kind = .mapLiteralOpen ∧ BindsOpenMap line) ∨ kind.isSelfContained = true := by
  unfold ofFirstWord? at h
  dsimp only at h
  split at h
  · cases h
    split <;> exact .inr rfl
  · split at h
    · cases h
      exact ofVar_cases line
    · split at h
      · split at h
        · cases h
          exact .inr rfl
        · cases h
      · have : ∀ p ∈ keywords, p.2.isSelfContained = true := by decide
        exact .inr (this _ (mem_keywords_of_lookup h))

/-- It opens a group or a map literal, or stands for itself. -/
theorem ofCode_cases (line : Text) :
    (∃ block, Block.groupOpener? line = some block ∧ ofCode line = .blockOpen block)
      ∨ (ofCode line = .mapLiteralOpen ∧ BindsOpenMap line)
      ∨ (ofCode line).isSelfContained = true := by
  unfold ofCode
  cases hg : Block.groupOpener? line with
  | some block => exact .inl ⟨block, rfl, rfl⟩
  | none =>
    refine .inr ?_
    cases hf : ofFirstWord? line with
    | none => exact ofSigns_cases line
    | some kind => exact ofFirstWord?_cases hf

theorem isSelfContained_ofCode (h : WellNested line) : (ofCode line).isSelfContained = true := by
  rcases ofCode_cases line with ⟨block, hg, _⟩ | ⟨_, b, hb, ho⟩ | hk
  · rw [groupOpener?_eq_none (h.not_endsWith rfl)] at hg
    cases hg
  · unfold opensMapLiteral at ho
    cases hl : Composite.split? b.rhs with
    | none =>
      rw [hl] at ho
      cases ho
    | some lit =>
      rw [hl, Option.any_some, (h.binding_rhs hb).composite_closed hl] at ho
      cases ho
  · exact hk

end StatementKind

/-- What is open decides, or else the shape. -/
theorem State.classify_cases (s : State) (t : Text) :
    (t = [] ∧ s.classify t = .blank) ∨ s.classify t = .comment ∨
    (s.block? = none ∧ (s.classify t = .closureEnd ∨ s.classify t = .ofCode t)) ∨
    ∃ b, s.block? = some b ∧ (s.classify t = .blockClose b ∨ s.classify t = .inside b) := by
  unfold classify
  by_cases hblank : t.isEmpty = true
  · exact .inl ⟨isEmpty_iff.mp hblank, if_pos hblank⟩
  · rw [if_neg hblank]
    cases hb : s.block? with
    | none =>
      simp only
      by_cases hcomment : startsWith t "//" = true
      · exact .inr (.inl (if_pos hcomment))
      · rw [if_neg hcomment]
        by_cases hclosure : s.closesClosure t s.depth = true
        · exact .inr (.inr (.inl ⟨trivial, .inl (if_pos hclosure)⟩))
        · exact .inr (.inr (.inl ⟨trivial, .inr (if_neg hclosure)⟩))
    | some b =>
      simp only
      by_cases hv : b.isVerbatim = true
      · rw [if_pos hv]
        refine .inr (.inr (.inr ⟨b, rfl, .inr ?_⟩))
        cases b with
        | rawString | blockComment => rfl
        | _ => cases hv
      · rw [if_neg hv]
        by_cases hcomment : startsWith t "//" = true
        · exact .inr (.inl (if_pos hcomment))
        · rw [if_neg hcomment]
          by_cases hclose : s.closesBlock t s.depth = true
          · exact .inr (.inr (.inr ⟨b, rfl, .inl (if_pos hclose)⟩))
          · exact .inr (.inr (.inr ⟨b, rfl, .inr (if_neg hclose)⟩))

end Linewise
