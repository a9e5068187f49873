/-
  A definition whose literal goes over several lines.

  The first line is trimmed before the literal in it is seen, the others are copied, and the last one
  closes it. No reader looks into the logical line they make: a raw literal is a run of blanks behind
  an `R`. So it comes out as the value of the definition, on one line that every later line leaves
  alone.
-/
import Linewise.Proofs.KeptComments
import Linewise.Proofs.RawInProgram

namespace Linewise

open Text Segment List Lexer StatementKind Lower Raw

variable {a b s last name first indent content : Text} {c : Char} {r : Run} {ls middle : List Text}
  {l : Lexer}

/-! ## 1. A raw literal to the readers -/

theorem Lexer.commentIndex?_of_masked (h : '/' ∉ l.maskFrom s) : l.commentIndex? s = none := by
  induction s generalizing l with
  | nil => rfl
  | cons c s ih =>
    rw [maskFrom, mem_cons, not_or] at h
    have hcode : ¬ (l.isCode c && c == '/' && s.head? == some '/') = true := by
      intro hc
      rw [Bool.and_eq_true, Bool.and_eq_true] at hc
      rw [if_pos hc.1.1] at h
      exact h.1 (beq_iff_eq.mp hc.1.2).symm
    rw [commentIndex?, if_neg hcode, ih h.2]
    rfl

theorem topIndexFrom?_of_masked {needle : Char} (h : needle ∉ l.maskFrom s) (d : Int) :
    topIndexFrom? needle l d s = none := by
  induction s generalizing l d with
  | nil => rfl
  | cons c s ih =>
    rw [maskFrom, mem_cons, not_or] at h
    have hcode : ¬ (l.isCode c && c == needle && d == 0) = true := by
      intro hc
      rw [Bool.and_eq_true, Bool.and_eq_true] at hc
      rw [if_pos hc.1.1] at h
      exact h.1 (beq_iff_eq.mp hc.1.2).symm
    rw [topIndexFrom?, if_neg hcode, ih h.2]
    rfl

theorem Bare.maskFrom_eq (h : Bare s) (hl : l.mode = .code) : l.maskFrom s = s := by
  induction s generalizing l with
  | nil => rfl
  | cons c s ih =>
    have hc := isCode_of_mode hl h.head.2
    rw [maskFrom, if_pos hc, ih h.tail (step_mode_of_isCode hc)]

/-- A machine in code passes a raw literal. -/
theorem Lexer.pass_literal (hl : l.mode = .code) (hc : includes content ")\"" = false) :
    l.maskFrom (literal content) = 'R' :: replicate (content.length + 4) ' ' ∧
      (l.run (literal content)).Fresh := by
  have hR : l.isCode 'R' = true := isCode_of_mode hl rfl
  -- one more character behind the literal, so that the machine has to stand somewhere
  have hskips : (l.step 'R').Skips ('"' :: '(' :: (content ++ ((")\"" : Text) ++ [' ']))) (content.length + 4) := by
    rw [step_eq_of_isCode hR]
    refine .cons rfl (.cons rfl ?_)
    have hraw := @skips_raw (content ++ ((")\"" : Text) ++ [' '])) '(' fun h => absurd h (by decide)
    rwa [lengthThrough_closing hc] at hraw
  have hlen : ('"' :: '(' :: (content ++ ")\"") : Text).length = content.length + 4 := by
    rw [length_cons, length_cons, length_append]
    rfl
  have hsplit : '"' :: '(' :: (content ++ ((")\"" : Text) ++ [' '])) = '"' :: '(' :: (content ++ ")\"") ++ [' '] := by
    rw [← append_assoc]
    rfl
  obtain ⟨hmasked, hbehind⟩ := hskips
  rw [hsplit, ← hlen, take_left] at hmasked hbehind
  rw [drop_left] at hbehind
  rw [hlen] at hmasked
  refine ⟨?_, hbehind.resolve_right (cons_ne_nil _ _)⟩
  show (if l.isCode 'R' then 'R' else ' ') :: (l.step 'R').maskFrom ('"' :: '(' :: (content ++ ")\"")) = _
  rw [hmasked, if_pos hR]

theorem mask_literal (ha : Bare a) (hc : includes content ")\"" = false) :
    mask (a ++ literal content) = a ++ 'R' :: replicate (content.length + 4) ' ' := by
  unfold mask
  rw [maskFrom_append, ha.maskFrom_eq rfl, (pass_literal (ha.run_mode rfl) hc).1]

namespace Raw

theorem literal_concat (content : Text) : ∃ t, literal content = t ++ ['"'] :=
  ⟨"R\"(" ++ (content ++ ")"), by unfold literal; rw [append_assoc, append_assoc]; rfl⟩

theorem trim_literal (content : Text) : trim (literal content) = literal content := by
  obtain ⟨t, ht⟩ := literal_concat content
  refine trim_eq_self_of_solid ⟨fun c hc => ?_, fun c hc => ?_⟩
  · exact Option.some.inj hc ▸ rfl
  · rw [ht, getLast?_concat] at hc
    exact Option.some.inj hc ▸ rfl

theorem topIndex?_literal (hc : includes content ")\"" = false) : topIndex? '{' (literal content) = none := by
  refine topIndexFrom?_of_masked (fun hm => ?_) 0
  have hmask := mask_literal (fun _ h => absurd h not_mem_nil) hc
  rw [show start.maskFrom (literal content) = _ from hmask] at hm
  rcases mem_cons.mp hm with hm | hm
  · exact absurd hm (by decide)
  · exact absurd (eq_of_mem_replicate hm) (by decide)

theorem split?_literal (hc : includes content ")\"" = false) : Composite.split? (literal content) = none := by
  unfold Composite.split?
  rw [trim_literal]
  dsimp only
  rw [topIndex?_literal hc]
  rfl

theorem construct_literal (hc : includes content ")\"" = false) : construct (literal content) = .ok none :=
  construct_of_split? (trim_literal content) rfl (split?_literal hc)

end Raw

/-! ## 2. The definition -/

theorem terminate_concat (hb : isBlank c = false) (hmark : ("\x7b\x7d,:;([" : Text).contains c = false)
    (hop : ("+-*/%|&^=" : Text).contains c = false) (t : Text) : terminate (t ++ [c]) = t ++ [c] ++ ";" := by
  have hbrace : (c == '}') = false := by
    refine beq_eq_false_iff_ne.mpr ?_
    rintro rfl
    cases hmark
  have hoperator : endsInOperator (t ++ [c]) = false := by
    unfold endsInOperator
    rw [getLast?_concat, Option.any_some, hop, Bool.and_false]
  unfold terminate
  rw [trimEnd_append_of_solid hb]
  dsimp only
  rw [getLast?_concat]
  dsimp only
  rw [hbrace, hmark, hoperator]
  rfl

/-- What stands in front of the value in a definition of one name. -/
def definitionHead (name : Text) : Text :=
  if isDiscard name then "static_cast<void>(" else "auto " ++ (name ++ " = ")

/-- What stands behind it. -/
def definitionTail (name : Text) : Text := if isDiscard name then ");" else ";"

theorem defineOne_eq (name value : Text) :
    defineOne name value = definitionHead name ++ (value ++ definitionTail name) := by
  unfold defineOne definitionHead definitionTail
  split
  · rw [append_assoc]
  · rw [append_assoc, append_assoc, append_assoc, append_assoc, append_assoc]

/-- What is left of the definition behind its name. -/
def maskedRest (n : Nat) : Text := " \x3a= R" ++ replicate n ' '

theorem not_mem_maskedRest (h : c ∉ (" \x3a= R" : Text)) (n : Nat) : c ∉ maskedRest n :=
  not_mem_append h fun hm => h (eq_of_mem_replicate hm ▸ mem_cons_self)

section

variable {name content : Text} (hid : isIdentifier name = true) (hc : includes content ")\"" = false)

include hid hc

theorem mask_definition :
    mask (name ++ (" := " ++ literal content)) = name ++ maskedRest (content.length + 4) := by
  have hbare : Bare (name ++ " := ") := (bare_of_isIdentifier hid).append (by decide)
  rw [← append_assoc, mask_literal hbare hc, append_assoc]
  rfl

omit hid hc in
theorem eq_of_stands {word x t : Text} (hw : ∀ d ∈ word, isWordChar d = true) (hhead : word.head? = some c)
    (hx : ∀ d ∈ x, isWordChar d = true) (hc : c ∉ t) (ht : ∀ d, t.head? = some d → isWordChar d = false)
    (h : Stands word (x ++ t)) : x = word := by
  obtain ⟨r, rfl⟩ := head?_eq_some_iff.mp hhead
  obtain ⟨a, b, he, halone⟩ := h
  rcases append_eq_append_iff.mp he with ⟨m, _, rfl⟩ | ⟨m, rfl, hm⟩
  · exact absurd (mem_append_right m mem_cons_self) hc
  · rcases eq_nil_or_concat' a with rfl | ⟨a, d, rfl⟩
    · rw [nil_append] at hx ⊢
      rcases append_eq_append_iff.mp hm with ⟨m', rfl, rfl⟩ | ⟨m', hm', rfl⟩
      · -- a longer word would go on behind it
        cases m' with
        | nil => rw [append_nil]
        | cons d m' =>
          have hd := hx d (mem_append_right _ mem_cons_self)
          unfold standsAlone at halone
          rw [Bool.and_eq_true, getLast?_eq_some_getLast (cons_ne_nil c r), Option.any_some,
            hw _ (getLast_mem _)] at halone
          rw [cons_append, head?_cons, Option.all_some, hd] at halone
          exact absurd halone.2 (by decide)
      · cases m' with
        | nil => rw [hm', append_nil]
        | cons d m' =>
          have hd := hw d (hm' ▸ mem_append_right m mem_cons_self)
          rw [ht d rfl] at hd
          cases hd
    · have hd : isPathChar d = true := by
        unfold isPathChar
        rw [hx d (by simp)]
        rfl
      rw [getLast?_concat, standsAlone_of_path hd] at halone
      cases halone

theorem mentionsChannel_definition (hres : name ∉ reserved) :
    mentionsChannel (name ++ (" := " ++ literal content)) = false := by
  unfold mentionsChannel
  rw [mask_definition hid hc, Bool.or_eq_false_iff]
  constructor
  · refine Bool.eq_false_iff.mpr fun h => ?_
    obtain ⟨u, v, he, _⟩ := exists_first (by decide) h
    have hm : '<' ∈ name ++ maskedRest (content.length + 4) := he ▸ mem_append_right u mem_cons_self
    exact (mem_append.mp hm).elim (not_mem_of_isIdentifier hid rfl) (not_mem_maskedRest (by decide) _)
  · refine Bool.eq_false_iff.mpr fun h => hres ?_
    have hstands := (containsWord_iff (by decide) _).mp h
    rw [eq_of_stands (by decide) rfl (isWordChar_of_mem hid) (not_mem_maskedRest (by decide) _)
      (fun d hd => Option.some.inj hd ▸ rfl) hstands]
    decide

theorem ofCode_definition (hres : name ∉ reserved) :
    ofCode (name ++ (" := " ++ literal content)) = .assignment := by
  have hend : endsWith (name ++ (" := " ++ literal content)) "(" = false := by
    obtain ⟨t, ht⟩ := literal_concat content
    rw [ht, ← append_assoc, ← append_assoc]
    exact endsWith_concat_of_ne _ (by decide)
  have hmap : opensMapLiteral (trim (literal content)) = false := by
    unfold opensMapLiteral
    rw [trim_literal, split?_literal hc]
    rfl
  rw [ofCode_define hid hres hend, mentionsChannel_definition hid hc hres, hmap]
  rfl

omit hc in
theorem assignment_definition :
    Lower.assignment (name ++ (" := " ++ literal content)) = assignOne name (literal content) .define := by
  have hsolid := trim_eq_self_of_solid (solid_of_isIdentifier hid)
  have hsplit := Binding.split?_define (bare_of_isIdentifier hid)
    (not_mem_of_isIdentifier hid rfl) (literal content)
  rw [hsolid, trim_literal] at hsplit
  have hone : (splitTop ',' name).length ≤ 1 := by
    unfold splitTop
    split
    · exact Nat.zero_le 1
    · rw [length_map, (bare_of_isIdentifier hid).length_cutsFrom rfl,
        count_eq_zero_of_not_mem (not_mem_of_isIdentifier hid rfl)]
  unfold Lower.assignment
  rw [hsplit]
  dsimp only
  rw [if_neg (by exact Bool.false_ne_true), if_pos hone]

theorem assignment_rawLiteral (s : State) :
    ∃ lowered s', (Lower.assignment (name ++ (" := " ++ literal content))).run s = .ok lowered s' ∧
      lowered.render = some (defineOne name (literal content)) := by
  have hconstruct := construct_literal hc
  rw [assignment_definition hid]
  unfold defineOne
  cases hname : isDiscard name with
  | true =>
    have hvalue : value (literal content) = .ok (literal content) :=
      value_eq (trim_literal content) (fun h => absurd (Option.some.inj h) (by decide)) hconstruct
    refine ⟨.statement ("static_cast<void>(" ++ literal content ++ ")"), s, ?_, ?_⟩
    · unfold assignOne
      rw [hname, hvalue]
      rfl
    · show some (terminate ("static_cast<void>(" ++ literal content ++ [')'])) = _
      rw [terminate_concat rfl rfl rfl, append_assoc _ [')']]
      rfl
  | false =>
    refine ⟨.statement (bindText .define name (literal content)),
      if s.isKnownMap (literal content) then s.registerMap name else s, ?_, ?_⟩
    · unfold assignOne
      rw [hname, show callArguments? "append" (literal content) = none from rfl, split?_literal hc,
        show stripStart? "&" (literal content) = none from rfl, hconstruct]
      show (if s.isKnownMap (literal content) then _ else _ : Lower Lowered).run s = _
      cases hknown : s.isKnownMap (literal content) with
      | true => rfl
      | false => rfl
    · obtain ⟨t, ht⟩ := literal_concat content
      show some (terminate ("auto " ++ name ++ " = " ++ literal content)) = _
      rw [ht, ← append_assoc, terminate_concat rfl rfl rfl]
      rfl

end

/-! ## 3. The lines of the literal -/

/-- The source lines of a definition whose literal goes over several lines. -/
def spanningDefinition (indent name first : Text) (middle : List Text) (last : Text) : List Text :=
  (indent ++ (name ++ (" := \x60" ++ first))) :: (middle ++ [last ++ "\x60"])

/-- The lines of the literal as one text. -/
def spanningContent (first : Text) (middle : List Text) (last : Text) : Text := unlines (first :: (middle ++ [last]))

theorem spanningContent_inj {first' : Text} :
    spanningContent first middle last = spanningContent first' middle last ↔ first = first' := by
  unfold spanningContent
  rw [unlines_cons, unlines_cons]
  exact append_left_inj _

/-- A line of a literal: it does not close it, here or in C++, and no carriage return is in it. -/
@[mk_iff] structure RawLine (line : Text) : Prop where
  backquote : '\x60' ∉ line
  closing : includes line ")\"" = false
  noReturn : '\r' ∉ line

instance (line : Text) : Decidable (RawLine line) := decidable_of_iff _ (rawLine_iff ..).symm

theorem linesBelow_append (ls ms : List Text) : linesBelow (ls ++ ms) = linesBelow ls ++ linesBelow ms := by
  induction ls with
  | nil => rfl
  | cons l ls ih =>
    rw [cons_append, linesBelow, linesBelow, unlines_cons, unlines_cons, ih, cons_append, append_assoc]

section

variable {pattern : Text} (hne : pattern ≠ [])

include hne

theorem includes_append (u v : Text) : includes (u ++ (pattern ++ v)) pattern = true := by
  refine Bool.eq_false_iff.not_left.mp fun h => ?_
  obtain ⟨c, p, rfl⟩ := exists_cons_of_ne_nil hne
  have hstart : startsWith (c :: (p ++ v)) (c :: p) = false := startsWith_of_not_includes (includes_behind u h)
  exact Bool.eq_false_iff.mp hstart (startsWith_append (c :: p) v)

theorem includes_front (h : includes (a ++ b) pattern = false) : includes a pattern = false := by
  refine Bool.eq_false_iff.mpr fun ha => Bool.eq_false_iff.mp h ?_
  obtain ⟨u, v, rfl, _⟩ := exists_first hne ha
  rw [append_assoc, append_assoc]
  exact includes_append hne u (v ++ b)

theorem includes_newline (hn : '\n' ∉ pattern) (ha : includes a pattern = false) (hb : includes b pattern = false) :
    includes (a ++ '\n' :: b) pattern = false := by
  refine Bool.eq_false_iff.mpr fun h => ?_
  obtain ⟨u, v, he, _⟩ := exists_first hne h
  rcases append_eq_append_iff.mp he with ⟨m, _, hm⟩ | ⟨m, rfl, hm⟩
  · cases m with
    | nil =>
      obtain ⟨c, p, rfl⟩ := exists_cons_of_ne_nil hne
      exact hn ((cons.inj hm).1 ▸ mem_cons_self)
    | cons d m =>
      have hb' : b = m ++ (pattern ++ v) := (cons.inj hm).2
      rw [hb', includes_append hne] at hb
      cases hb
  · obtain ⟨t, rfl⟩ := prefix_of_append_cons hn ⟨v, hm⟩
    rw [includes_append hne] at ha
    cases ha

end

theorem RawLine.unlines {l : Text} (h : ∀ m ∈ l :: ls, RawLine m) : RawLine (unlines (l :: ls)) := by
  induction ls generalizing l with
  | nil =>
    rw [unlines_singleton]
    exact h l mem_cons_self
  | cons m ls ih =>
    have hbelow := ih (forall_mem_cons.mp h).2
    have hl := h l mem_cons_self
    have hmem {c : Char} (hc : c ≠ '\n') (hfront : c ∉ l) (hback : c ∉ Text.unlines (m :: ls)) :
        c ∉ l ++ '\n' :: Text.unlines (m :: ls) :=
      not_mem_append hfront (not_mem_cons_of_ne_of_not_mem hc hback)
    rw [unlines_cons_cons]
    exact ⟨hmem (by decide) hl.backquote hbelow.backquote,
      includes_newline (by decide) (by decide) hl.closing hbelow.closing, hmem (by decide) hl.noReturn hbelow.noReturn⟩

theorem RawLine.trimEnd {l : Text} (h : RawLine l) : RawLine (trimEnd l) := by
  obtain ⟨v, hv⟩ := trimEnd_prefix l
  rw [← hv] at h
  exact ⟨fun hm => h.backquote (mem_append_left v hm), includes_front (by decide) h.closing,
    fun hm => h.noReturn (mem_append_left v hm)⟩

theorem RawLine.spanning (h : ∀ l ∈ first :: (middle ++ [last]), RawLine l) :
    RawLine (spanningContent (Text.trimEnd first) middle last) := by
  refine RawLine.unlines fun l hl => ?_
  rcases mem_cons.mp hl with rfl | hl
  · exact (h first mem_cons_self).trimEnd
  · exact h l (mem_cons_of_mem first hl)

theorem plain_definition (hid : isIdentifier name = true) (h : RawLine content) :
    Plain (name ++ (" := " ++ literal content)) ∧
      trim (name ++ (" := " ++ literal content)) = name ++ (" := " ++ literal content) ∧
      startsWith (name ++ (" := " ++ literal content)) "\x7d" = false := by
  obtain ⟨c, x, rfl, hword⟩ := exists_cons_of_isIdentifier hid
  have hhead (d : Char) (hd : isWordChar d = false) (p : Text) (hp : p.head? = some d) :
      startsWith (c :: x ++ (" := " ++ literal content)) p = false :=
    startsWith_of_head? rfl hp (ne_of_isWordChar hword hd)
  obtain ⟨t, ht⟩ := literal_concat content
  refine ⟨⟨?_, hhead '/' rfl _ rfl, ?_, ?_⟩, ?_, hhead '}' rfl _ rfl⟩
  · refine commentIndex?_of_masked ?_
    rw [show start.maskFrom _ = _ from mask_definition hid h.closing]
    exact not_mem_append (not_mem_of_isIdentifier hid rfl) (not_mem_maskedRest (by decide) _)
  · have hliteral : '\x60' ∉ literal content :=
      not_mem_append (by decide) (not_mem_append h.backquote (by decide))
    exact not_mem_append (not_mem_of_isIdentifier hid rfl) (not_mem_append (by decide) hliteral)
  · rw [ht, ← append_assoc, ← append_assoc]
    exact endsWith_concat_of_ne _ (by decide)
  · rw [ht, ← append_assoc, ← append_assoc]
    exact trim_concat_of_solid (fun d hd => Option.some.inj hd ▸ not_isBlank_of_isWordChar hword)
      (cons_ne_nil _ _) rfl

theorem close?_of_not_mem (h : '\x60' ∉ s) : close? s = none := by
  unfold close?
  rw [idxOf?_eq_none_iff.mpr h]
  rfl

theorem Raw.after_of_unquoted (h : ∀ c ∈ s, isQuote c = false) : after .code s = .code := by
  induction s with
  | nil => rfl
  | cons c s ih =>
    have hquote := h c mem_cons_self
    unfold isQuote at hquote
    rw [Bool.or_eq_false_iff, Bool.or_eq_false_iff] at hquote
    have hstep : (Mode.step c .code).2 = .code := by
      unfold Mode.step
      rw [hquote.1.1, hquote.1.2, hquote.2]
      rfl
    show after (Mode.step c .code).2 s = .code
    rw [hstep, ih (forall_mem_cons.mp h).2]

theorem Bare.after_eq (h : Bare s) : after .code s = .code :=
  after_of_unquoted fun c hc => (h c hc).2

theorem convert_first (hid : isIdentifier name = true) (h : '\x60' ∉ first) :
    convert (name ++ (" := \x60" ++ first)) = ⟨name ++ (" := R\"(" ++ first), true⟩ := by
  have hfront : convertFrom .code (name ++ " := ") = ⟨name ++ " := ", false⟩ := by
    refine convertFrom_of_not_mem (fun hm => ?_) (by decide)
    exact (mem_append.mp hm).elim (not_mem_of_isIdentifier hid rfl) (by decide)
  have hafter : after .code (name ++ " := ") = .code :=
    ((bare_of_isIdentifier hid).append (by decide)).after_eq
  have hraw : convertFrom .code ('\x60' :: first) = ⟨"R\"(" ++ first, true⟩ := by
    show Converted.mk ("R\"(" ++ (convertFrom .raw first).line) (convertFrom .raw first).opened = _
    rw [convertFrom_raw, close?_of_not_mem h]
    rfl
  have hsplit : name ++ ((" := \x60" : Text) ++ first) = (name ++ " := ") ++ '\x60' :: first := by
    rw [append_assoc]
    rfl
  unfold convert
  rw [hsplit, convertFrom_append, hfront, hafter, hraw, append_assoc]
  rfl

namespace Run

theorem sourceLines_held {raw : PendingRaw} (hp : r.pending = some raw) (h : ∀ l ∈ ls, '\x60' ∉ l) (number : Nat)
    (rest : List Text) :
    r.sourceLines number (ls ++ rest)
      = ({ r with pending := some { raw with text := raw.text ++ linesBelow ls } } : Run).sourceLines
          (number + ls.length) rest := by
  induction ls generalizing r raw number with
  | nil =>
    rw [linesBelow, append_nil, ← hp]
    rfl
  | cons l ls ih =>
    have hline : r.sourceLine number l = .ok { r with pending := some { raw with text := raw.text ++ '\n' :: l } } := by
      rw [sourceLine_of_some hp, rawLine, close?_of_not_mem (h l mem_cons_self)]
      rw [append_assoc]
      rfl
    rw [cons_append, sourceLines, hline]
    show sourceLines _ (number + 1) (ls ++ rest) = _
    rw [ih rfl (forall_mem_cons.mp h).2, length_cons, Nat.add_assoc, Nat.add_comm 1]
    rw [linesBelow, unlines_cons, append_assoc, cons_append]

theorem sourceLine_first (hp : r.pending = none) (hb : r.state.blocks = []) (hid : isIdentifier name = true)
    (hi : Blank indent) (h : '\x60' ∉ trimEnd first) (number : Nat) :
    r.sourceLine number (indent ++ (name ++ (" := \x60" ++ first))) = .ok { r with
      state := State.enterBlock { r.state with lineNumber := number } .rawString r.state.depth
      pending := some ⟨name ++ (" := R\"(" ++ trimEnd first), number, indent⟩ } := by
  obtain ⟨c, x, rfl, hword⟩ := exists_cons_of_isIdentifier hid
  have hsolid := not_isBlank_of_isWordChar hword
  have htrim : trim (indent ++ (c :: x ++ (" := \x60" ++ first))) = c :: x ++ (" := \x60" ++ trimEnd first) := by
    have hsplit (t : Text) : c :: x ++ ((" := \x60" : Text) ++ t) = (c :: x ++ " := ") ++ '\x60' :: t := by
      rw [append_assoc]
      rfl
    rw [trim_blank_append hi, trim, cons_append, trimStart_cons_of_solid hsolid, ← cons_append, hsplit,
      trimEnd_append_cons rfl, hsplit]
  have hindent : indentation (indent ++ (c :: x ++ (" := \x60" ++ first))) = indent := by
    unfold indentation
    rw [takeWhile_append_of_pos hi, cons_append,
      takeWhile_cons_of_neg (by rw [hsolid]; exact Bool.false_ne_true), append_nil]
  have hslash : ∀ p : Text, p.head? = some '/' → startsWith (c :: x ++ (" := \x60" ++ trimEnd first)) p = false := by
    intro p hpat
    exact startsWith_of_head? rfl hpat (ne_of_isWordChar hword rfl)
  have hblock : (r.state.block? == some .blockComment) = false := by
    rw [State.block?_eq_none hb]
    rfl
  rw [sourceLine_of_none hp, hblock]
  show plainLine _ number _ = _
  unfold plainLine
  dsimp only
  rw [htrim, hindent, hslash _ rfl, hslash _ rfl, convert_first hid h]
  rfl

theorem logicalLine_definition (hb : r.state.blocks = []) (hid : isIdentifier name = true)
    (hres : name ∉ reserved) (h : RawLine content) (indent : Text) :
    ∃ r', r.logicalLine indent (name ++ (" := " ++ literal content)) true = .ok r' ∧
      r'.output = r.output ++ [indent ++ defineOne name (literal content)] := by
  generalize hcode : name ++ (" := " ++ literal content) = code
  obtain ⟨hplain, htrim, hbrace⟩ := plain_definition hid h
  rw [hcode] at hplain htrim hbrace
  have hne : code ≠ [] := by
    rw [← hcode]
    exact append_cons_ne_nil name
  have hkind : (r.state.countBraces code).classify code = .assignment := by
    rw [State.classify_eq_ofCode (s := r.state.countBraces code) hne hplain hb (closesClosure_eq_false hbrace), ← hcode]
    exact ofCode_definition hid h.closing hres
  obtain ⟨lowered, s', hrun, hrender⟩ := assignment_rawLiteral hid h.closing (r.state.countBraces code)
  rw [hcode] at hrun
  have hline : r.logicalLine indent code true = r.codeLine indent code none true := by
    unfold logicalLine splitComment
    rw [hplain.noComment]
    dsimp only
    rw [hplain.codeOfLine_eq htrim, if_neg (by simpa using hne)]
  refine ⟨{ r with
      state := s'.noteOpener r.output.length
      output := r.output ++ layout indent true lowered.render none }, ?_, ?_⟩
  · rw [hline, codeLine_eq indent none true hkind rfl,
      show (line .assignment code).run (r.state.countBraces code) = _ from hrun]
    rfl
  · rw [hrender]
    rfl

/-- Its lines never stop a run, and come out as one. -/
theorem sourceLines_spanning (hp : r.pending = none) (hb : r.state.blocks = []) (hid : isIdentifier name = true)
    (hres : name ∉ reserved) (hi : Blank indent) (h : ∀ l ∈ first :: (middle ++ [last]), RawLine l)
    (number : Nat) :
    ∃ r', r.sourceLines number (spanningDefinition indent name first middle last) = .ok r' ∧
      r'.output = r.output
        ++ [indent ++ defineOne name (literal (spanningContent (trimEnd first) middle last))] := by
  have hfirst := (h first mem_cons_self).trimEnd
  have hmiddle : ∀ l ∈ middle, '\x60' ∉ l := fun l hl =>
    (h l (mem_cons_of_mem first (mem_append_left _ hl))).backquote
  have hlast : '\x60' ∉ last :=
    (h last (mem_cons_of_mem first (mem_append_right _ mem_cons_self))).backquote
  have hclosed (text : Text) : extend text (last ++ "\x60") = ⟨text ++ '\n' :: (last ++ ")\""), false⟩ := by
    have hclose := close?_content hlast []
    unfold extend
    rw [show last ++ "\x60" = last ++ '\x60' :: [] from rfl, hclose]
    dsimp only
    rw [append_assoc]
    rfl
  unfold spanningDefinition
  rw [sourceLines, sourceLine_first hp hb hid hi hfirst.backquote]
  show ∃ r', sourceLines _ (number + 1) (middle ++ [last ++ "\x60"]) = .ok r' ∧ _
  rw [sourceLines_held rfl hmiddle, sourceLines, sourceLine_of_some rfl, rawLine_eq]
  rw [hclosed, if_neg Bool.false_ne_true]
  have htext : name ++ (" := R\"(" ++ trimEnd first) ++ linesBelow middle ++ '\n' :: (last ++ ")\"")
      = name ++ (" := " ++ literal (spanningContent (trimEnd first) middle last)) := by
    unfold literal spanningContent
    rw [unlines_cons, linesBelow_append, linesBelow, unlines_singleton]
    simp
  rw [htext]
  -- behind the literal the state is that in front of it, under the number of the first line
  obtain ⟨r', hrun, hout⟩ := logicalLine_definition (r := { r with
    pending := none, state := { r.state with lineNumber := number } }) hb hid hres (RawLine.spanning h) indent
  refine ⟨r', ?_, hout⟩
  show (logicalLine { r with pending := none, state := { r.state with lineNumber := number } } indent _ true).bind _ = _
  rw [hrun]
  rfl

/-! ## 4. Lines of output that stay -/

theorem getElem?_append_of_some {output : List Text} {i : Nat} {line : Text} (h : output[i]? = some line)
    (more : List Text) : (output ++ more)[i]? = some line := by
  obtain ⟨hlt, _⟩ := List.getElem?_eq_some_iff.mp h
  rw [getElem?_append_left hlt, h]

section

variable {r r' : Run} {i number : Nat} {line : Text}
  (hclass : ∀ rest, startsWith (trimStart line) ("class " ++ rest) = false)

include hclass

theorem Steady.getElem?_logicalLine (h : r.Steady) {text : Text} {spans : Bool}
    (hrun : r.logicalLine indent text spans = .ok r') (hline : r.output[i]? = some line) :
    r'.output[i]? = some line := by
  obtain ⟨_, rfl⟩ | ⟨_, hrun⟩ := logicalLine_eq_ok hrun
  · exact getElem?_append_of_some hline _
  · obtain ⟨lowered, s', _, rfl⟩ := codeLine_eq_ok hrun
    refine getElem?_append_of_some (getElem?_reopenClass hline hclass fun d hd => ?_) _
    split at hd
    · exact h.opener d hd
    · cases hd

theorem Layered.getElem?_sourceLine (h : r.Layered) {l : Text} (hrun : r.sourceLine number l = .ok r')
    (hline : r.output[i]? = some line) : r'.output[i]? = some line := by
  cases hdone : r.completed? number l with
  | none =>
    obtain ⟨r₁, hwait, w⟩ := r.sourceLine_waits hdone
    cases hwait.symm.trans hrun
    obtain ⟨ls, hls⟩ := w.output
    rw [hls]
    exact getElem?_append_of_some hline ls
  | some done =>
    rw [(sourceLine_completes hdone).2] at hrun
    exact (h.arrive hdone).1.getElem?_logicalLine hclass hrun hline

theorem Layered.getElem?_close (h : r.Layered) (hrun : r.close = .ok r') (hline : r.output[i]? = some line) :
    r'.output[i]? = some line := by
  cases hrest : r.remainder? with
  | none =>
    cases (close_waits hrest).2.symm.trans hrun
    exact hline
  | some l =>
    obtain ⟨r₁, hlast, rfl⟩ := close_eq_ok hrest hrun
    have hkept := (h.arrive_remainder hrest).1.getElem?_logicalLine hclass hlast hline
    exact hkept

theorem Layered.getElem?_sourceLines (h : r.Layered) (hrun : (r.sourceLines number ls).bind Run.close = .ok r')
    (hline : r.output[i]? = some line) : r'.output[i]? = some line := by
  induction ls generalizing r number with
  | nil => exact h.getElem?_close hclass hrun hline
  | cons l ls ih =>
    obtain ⟨r₁, hstep, hrun⟩ := exists_sourceLine_of_cons hrun
    exact ih (h.sourceLine hstep) hrun (h.getElem?_sourceLine hclass hstep hline)

end

end Run

/-! ## 5. Sources -/

theorem definitionHead_cons (name : Text) :
    ∃ c t, definitionHead name = c :: t ∧ isBlank c = false ∧ c ≠ 'c' := by
  unfold definitionHead
  split
  · exact ⟨'s', _, rfl, rfl, by decide⟩
  · exact ⟨'a', _, rfl, rfl, by decide⟩

theorem definitionHead_concat (name : Text) : ∃ t c, definitionHead name = t ++ [c] ∧ isWordChar c = false := by
  unfold definitionHead
  split
  · exact ⟨"static_cast<void>", '(', rfl, rfl⟩
  · exact ⟨"auto " ++ (name ++ " ="), ' ', by rw [append_assoc, append_assoc]; rfl, rfl⟩

theorem not_mem_definitionHead (hid : isIdentifier name = true) (hw : isWordChar c = false)
    (h : c ∉ ("auto = static_cast<void>(" : Text)) : c ∉ definitionHead name := by
  unfold definitionHead
  split
  · exact fun hm => h (mem_append_right "auto = " hm)
  · refine not_mem_append (fun hm => h (mem_append_left "= static_cast<void>(" hm)) ?_
    refine not_mem_append (not_mem_of_isIdentifier hid hw) fun hm => ?_
    exact h (mem_append_right "auto" (mem_append_left "static_cast<void>(" hm))

theorem clear_definitionHead {pre : List Text}
    (h : EndsInCode (segments (unlines (pre ++ [indent ++ definitionHead name])))) :
    Clear (unlines (pre ++ [indent ++ definitionHead name])) := by
  refine ⟨h, ?_⟩
  obtain ⟨t, c, hhead, hc⟩ := definitionHead_concat name
  rw [hhead, ← append_assoc, unlines_comment, linesBelow, append_nil, getLast?_concat]
  exact hc

theorem definition_not_class (hi : Blank indent) (name value rest : Text) :
    startsWith (trimStart (indent ++ defineOne name value)) ("class " ++ rest) = false := by
  obtain ⟨c, t, hhead, hsolid, hc⟩ := definitionHead_cons name
  rw [trimStart_append_of_blank hi, defineOne_eq, hhead, cons_append, trimStart_cons_of_solid hsolid]
  exact startsWith_of_head? rfl rfl hc

/-- **A literal over several lines in the program.** Wherever its definition stands outside all
    blocks, its lines do not stop the run and come out as one line. The literal in it holds the
    first line without the white space at its end and all others as they are, so it is kept exactly
    if the first line does not end in white space. Later lines leave that line alone, and where what
    is emitted in front of the literal ends in code, the program contains the literal. -/
theorem spanningLiteral_lowered {source indent name first last : Text} {before after middle : List Text} {r : Run}
    (hsource : lines (stripStart ['\uFEFF'] source)
      = before ++ (spanningDefinition indent name first middle last ++ after))
    (hr : Run.sourceLines {} 1 before = .ok r) (hp : r.pending = none) (hb : r.state.blocks = [])
    (hid : isIdentifier name = true) (hres : name ∉ reserved) (hi : Blank indent)
    (h : ∀ l ∈ first :: (middle ++ [last]), RawLine l) :
    (spanningContent (trimEnd first) middle last = spanningContent first middle last ↔ trimEnd first = first) ∧
    (∃ r', Run.sourceLines {} 1 (before ++ spanningDefinition indent name first middle last) = .ok r' ∧
      r'.output = r.output
        ++ [indent ++ Lower.defineOne name (Raw.literal (spanningContent (trimEnd first) middle last))] ∧
      runSource source = (r'.sourceLines (1 + (before.length + (middle.length + 2))) after).bind Run.close) ∧
    ∀ r', runSource source = .ok r' →
      lower source = .ok ⟨finish r'.placed r'.flags, r'.state.notices⟩ ∧
      r'.placed[r'.shift r.output.length]?
        = some (indent ++ Lower.defineOne name (Raw.literal (spanningContent (trimEnd first) middle last))) ∧
      (EndsInCode (segments (unlines (r'.placed.take (r'.shift r.output.length) ++ [indent ++ definitionHead name]))) →
        ∃ x y, finish r'.placed r'.flags = x ++ (Raw.literal (spanningContent (trimEnd first) middle last) ++ y)) := by
  obtain ⟨r₁, hspan, hout⟩ := Run.sourceLines_spanning hp hb hid hres hi h (1 + before.length)
  have hfront : Run.sourceLines {} 1 (before ++ spanningDefinition indent name first middle last) = .ok r₁ := by
    rw [Run.sourceLines_append, hr]
    exact hspan
  have hlength : (before ++ spanningDefinition indent name first middle last).length
      = before.length + (middle.length + 2) := by
    unfold spanningDefinition
    rw [length_append, length_cons, length_append]
    rfl
  have hrest : runSource source = (r₁.sourceLines (1 + (before.length + (middle.length + 2))) after).bind Run.close := by
    unfold runSource
    rw [hsource, ← append_assoc, Run.sourceLines_append, hfront, hlength]
    rfl
  refine ⟨spanningContent_inj, ⟨r₁, hfront, hout, hrest⟩, fun r' hrun => ?_⟩
  have hstart : Run.Layered {} := .bare rfl ⟨.literals 0, nofun⟩
  have hlayered : r₁.Layered := hstart.sourceLines hfront
  have hline : r'.output[r.output.length]?
      = some (indent ++ Lower.defineOne name (Raw.literal (spanningContent (trimEnd first) middle last))) := by
    refine hlayered.getElem?_sourceLines (definition_not_class hi name _) (hrest ▸ hrun) ?_
    rw [hout, getElem?_concat_length]
  have hplaced := (r'.getElem?_placed (List.getElem?_eq_some_iff.mp hline).1).trans hline
  refine ⟨by unfold lower; rw [hrun]; rfl, hplaced, fun hcode => ?_⟩
  have hraw := RawLine.spanning h
  have hnewline : '\n' ∉ indent := by
    have hmem : indent ++ (name ++ (" := \x60" ++ first)) ∈ lines (stripStart ['\uFEFF'] source) := by
      rw [hsource]
      exact mem_append_right _ mem_cons_self
    exact fun hm => newline_not_mem_of_mem_lines hmem (mem_append_left _ hm)
  have hsharp : '#' ∉ indent := fun hm => absurd (hi '#' hm) (by decide)
  generalize r'.shift r.output.length = k at hplaced hcode
  obtain ⟨hk, hget⟩ := List.getElem?_eq_some_iff.mp hplaced
  have hsplit : r'.placed = r'.placed.take k ++ (indent ++ definitionHead name
      ++ (Raw.literal (spanningContent (trimEnd first) middle last) ++ definitionTail name)) :: r'.placed.drop (k + 1) := by
    rw [append_assoc, ← defineOne_eq, ← hget, ← drop_eq_getElem_cons hk, take_append_drop]
  rw [hsplit]
  refine finish_literal (clear_definitionHead hcode) ?_ ?_ hraw.closing hraw.noReturn _ _ _
  · exact fun hm => (mem_append.mp hm).elim hnewline (not_mem_definitionHead hid rfl (by decide))
  · exact fun hm => (mem_append.mp hm).elim hsharp (not_mem_definitionHead hid rfl (by decide))

/-- A function with a literal that looks like code, below a struct and above another function. -/
def quotingSource : Text :=
  "type T struct \x7b\n\tN int\n\x7d\nfunc main() \x7b\n\ttext := \x60a \"b\" // \x7b\n\n\t  c\\  \n)d)\x60\n\tf(text)\n\x7d\nfunc f(s string) \x7b\n\x7d\n"

/-- The lines of that source in front of the definition. -/
def quotingBefore : List Text := ["type T struct \x7b", "\tN int", "\x7d", "func main() \x7b"]

theorem exists_of_any_toOption {ε α : Type} {x : Except ε α} {p : α → Bool} (h : x.toOption.any p = true) :
    ∃ a, x = .ok a ∧ p a = true := by
  cases x with
  | error e => cases h
  | ok a => exact ⟨a, rfl, h⟩

theorem spanningLiteral_lowered_quotingSource :
    ∃ r', runSource quotingSource = .ok r' ∧
      lower quotingSource = .ok ⟨finish r'.placed r'.flags, r'.state.notices⟩ ∧
      ∃ x y, finish r'.placed r'.flags = x ++ (Raw.literal "a \"b\" // \x7b\n\n\t  c\\  \n)d)" ++ y) := by
  have hsource : lines (stripStart ['\uFEFF'] quotingSource)
      = quotingBefore ++ (spanningDefinition "\t" "text" "a \"b\" // \x7b" ["", "\t  c\\  "] ")d)"
        ++ [("\tf(text)" : Text), "\x7d", "func f(s string) \x7b", "\x7d"]) := by decide +kernel
  have hrun : ((Run.sourceLines {} 1 quotingBefore).toOption.any fun r =>
      r.pending.isNone && r.state.blocks.isEmpty && (runSource quotingSource).toOption.any fun r' =>
        (segments (unlines (r'.placed.take (r'.shift r.output.length) ++ ["\t" ++ definitionHead "text"]))).getLast?.all
          fun seg => seg.kind == .code) = true := by decide +kernel
  obtain ⟨r, hr, hrun⟩ := exists_of_any_toOption hrun
  rw [Bool.and_eq_true, Bool.and_eq_true, Option.isNone_iff_eq_none, List.isEmpty_iff] at hrun
  obtain ⟨r', hr', hcode⟩ := exists_of_any_toOption hrun.2
  obtain ⟨hcontent, _, hprogram⟩ := spanningLiteral_lowered hsource hr hrun.1.1 hrun.1.2 rfl (by decide)
    (by decide) (by decide)
  obtain ⟨hlower, _, hkept⟩ := hprogram r' hr'
  rw [hcontent.mpr rfl] at hkept
  refine ⟨r', hr', hlower, hkept fun seg hseg => ?_⟩
  rw [hseg] at hcode
  exact beq_iff_eq.mp hcode

/-- A definition whose literal has white space at the end of its first line. -/
def trailingBlanks : Text := "package main\nfunc main() \x7b\n\ts := \x60abc  \ndef\x60\n\tf(s)\n\x7d\n"

/-- A definition below a line whose own literal is left open behind its end. -/
def openedAbove : Text := "func main() \x7b\n\tfmt.Printf(\"100%\") // C:\\\n\ts := \x60a string\nb\x60\n\x7d\n"

/-- **White space at the end of the first line is lost**, and where the text in front of the literal does not end
    in code, the content is taken for code. -/
theorem spanningLiteral_changed :
    (∃ output, ComesTo trailingBlanks output ∧ ("\tauto s = R\"(abc\ndef)\";" : Text) ∈ output ∧
      ∀ line ∈ output, includes line (Raw.literal (spanningContent "abc  " [] "def")) = false) ∧
    (runSource openedAbove).toOption.map (fun r => includes (settle r.placed) "R\"(a std::string\nb)\"") = some true := by
  refine ⟨⟨["auto main() -> int \x7b", "\tauto s = R\"(abc\ndef)\";", "\tf(s);", "return 0;", "\x7d"], ?_, by decide,
    by decide +kernel⟩, by decide +kernel⟩
  unfold ComesTo
  decide +kernel

end Linewise
