/-
  Literals between backquotes, read line by line, and what they stand for.

  In a raw literal the pass keeps neither a quote nor an escape, so lines read one by one give what a
  single pass would give. The literal becomes `R"(…)"`, which is read up to the first `)"`: the content
  comes back whole exactly if it does not hold `)"` itself.
-/
import Linewise.Proofs.Masking
import Linewise.Proofs.TrailingComment

namespace Linewise

open Text List

namespace Raw

/-! ## 1. Inside a literal -/

theorem convertFrom_raw (line : Text) : convertFrom .raw line = (close? line).getD ⟨line, true⟩ := by
  induction line with
  | nil => rfl
  | cons c r ih =>
    unfold close? at ih ⊢
    rw [idxOf?_cons]
    by_cases hc : c = '\x60'
    · subst hc
      rfl
    · have hbeq : (c == '\x60') = false := beq_eq_false_iff_ne.mpr hc
      have hstep : Mode.step c .raw = ([c], .raw) := if_neg (by rw [hbeq]; exact Bool.false_ne_true)
      rw [convertFrom, hstep, hbeq, if_neg Bool.false_ne_true]
      dsimp only
      rw [ih]
      cases r.idxOf? '\x60' <;> rfl

theorem opened_convertFrom (m : Mode) (s : Text) : (convertFrom m s).opened = (after m s == .raw) := by
  induction s generalizing m with
  | nil => rfl
  | cons c s ih => exact ih (m.step c).2

theorem after_of_opened {s : Text} (h : (convert s).opened = true) : after .code s = .raw := by
  unfold convert at h
  rw [opened_convertFrom] at h
  exact beq_iff_eq.mp h

/-! ## 2. One more line -/

/-- The text held once a further line is read, and whether the literal is still open. -/
def extend (held line : Text) : Converted :=
  match close? line with
  | none => ⟨held ++ "\n" ++ line, true⟩
  | some closed => ⟨held ++ "\n" ++ closed.line, closed.opened⟩

theorem extend_eq (held line : Text) :
    extend held line = ⟨held ++ '\n' :: (convertFrom .raw line).line, (convertFrom .raw line).opened⟩ := by
  unfold extend
  rw [convertFrom_raw]
  cases close? line <;> exact congrArg (Converted.mk · _) (append_assoc _ _ _)

/-- A further line is read as by one pass over both. -/
theorem extend_convert {s : Text} (h : (convert s).opened = true) (line : Text) :
    extend (convert s).line line = convert (s ++ '\n' :: line) := by
  have hnewline : convertFrom .raw ('\n' :: line)
      = ⟨'\n' :: (convertFrom .raw line).line, (convertFrom .raw line).opened⟩ := rfl
  rw [extend_eq]
  unfold convert
  rw [convertFrom_append, after_of_opened h, hnewline]

/-- The text held behind a first line and the lines below it, and whether the literal is still open. -/
def held (first : Text) (ls : List Text) : Converted :=
  ls.foldl (fun h line => extend h.line line) (convert first)

theorem held_cons {first : Text} (h : (convert first).opened = true) (line : Text) (ls : List Text) :
    held first (line :: ls) = held (first ++ '\n' :: line) ls := by
  unfold held
  rw [foldl_cons, extend_convert h]

end Raw

/-! ## 3. The run -/

theorem Run.rawLine_eq (r : Run) (raw : PendingRaw) (line : Text) :
    r.rawLine raw line
      = if (Raw.extend raw.text line).opened then
          .ok { r with pending := some { raw with text := (Raw.extend raw.text line).line } }
        else r.finishRaw { raw with text := (Raw.extend raw.text line).line } := by
  unfold Run.rawLine Raw.extend
  cases Raw.close? line <;> rfl

theorem unlines_cons_append (first line : Text) (ls : List Text) :
    unlines (first :: line :: ls) = unlines ((first ++ '\n' :: line) :: ls) := by
  cases ls with
  | nil => rw [unlines_cons_cons, unlines_singleton, unlines_singleton]
  | cons l ls => rw [unlines_cons_cons, unlines_cons_cons, unlines_cons_cons, append_assoc, cons_append]

/-- **Line by line as in one pass.** Let the first line leave a literal open. As long as it was open
    in front of each further line, the text held is what one pass over all of them gives, the
    literal is open exactly if that pass ends in it, and a run that holds the first line waits with
    this text for more, or takes it as one logical line. -/
theorem held_eq_convert {first : Text} {ls : List Text} (hfirst : (Raw.convert first).opened = true)
    (hopen : ∀ k < ls.length, (Raw.held first (ls.take k)).opened = true) :
    Raw.held first ls = Raw.convert (unlines (first :: ls)) ∧
    ∀ (r : Run) (raw : PendingRaw) (number : Nat), r.pending = some { raw with text := (Raw.convert first).line } →
      r.sourceLines number ls
        = if (Raw.held first ls).opened then
            .ok { r with pending := some { raw with text := (Raw.held first ls).line } }
          else r.finishRaw { raw with text := (Raw.held first ls).line } := by
  induction ls generalizing first with
  | nil =>
    have hheld : Raw.held first [] = Raw.convert first := rfl
    refine ⟨by rw [hheld, unlines_singleton], fun r raw number hp => ?_⟩
    rw [hheld, if_pos hfirst, ← hp]
    rfl
  | cons line ls ih =>
    have hheld := Raw.held_cons hfirst line
    -- the lines read so far count as one from here on
    cases ls with
    | nil =>
      have hone : Raw.held first [line] = Raw.convert (first ++ '\n' :: line) := hheld []
      refine ⟨hone.trans (by rw [unlines_cons_append, unlines_singleton]), fun r raw number hp => ?_⟩
      have hext := Raw.extend_convert hfirst line
      rw [Run.sourceLines, Run.sourceLine_of_some hp, Run.rawLine_eq, hone, hext]
      cases (Raw.convert (first ++ '\n' :: line)).opened with
      | true => rfl
      | false =>
        rw [if_neg Bool.false_ne_true]
        cases r.finishRaw _ <;> rfl
    | cons next ls =>
      have hjoined : (Raw.convert (first ++ '\n' :: line)).opened = true := by
        have := hopen 1 (by simp)
        rwa [take_succ_cons, hheld] at this
      obtain ⟨htext, hrun⟩ := ih hjoined fun k hk => by
        have := hopen (k + 1) (Nat.succ_lt_succ hk)
        rwa [take_succ_cons, hheld] at this
      refine ⟨by rw [hheld, htext, ← unlines_cons_append], fun r raw number hp => ?_⟩
      rw [Run.sourceLines, Run.sourceLine_of_some hp, Run.rawLine_eq, Raw.extend_convert hfirst, if_pos hjoined, hheld]
      exact hrun _ raw (number + 1) rfl

/-- Literals that close and open again, between quotes and behind escapes. -/
def rejoinedLines : List Text := ["b\x60 + \"\x60\\\"\" + '\\'' + \x60c", "", "\"d\\\x60 + \x60e'", "f\x60)"]

theorem held_eq_convert_rejoined :
    (Raw.convert "f(\x60a \"").opened = true ∧
      Raw.held "f(\x60a \"" rejoinedLines = Raw.convert (unlines ("f(\x60a \"" :: rejoinedLines)) ∧
      Raw.held "f(\x60a \"" rejoinedLines
        = ⟨"f(R\"(a \"\nb)\" + \"\x60\\\"\" + '\\'' + R\"(c\n\n\"d\\)\" + R\"(e'\nf)\")", false⟩ :=
  ⟨rfl, (held_eq_convert rfl (by decide)).1, rfl⟩

open Raw

variable {u content : Text}

namespace Raw

/-- The raw literal that stands for a content, with no delimiter of its own. -/
def literal (content : Text) : Text := "R\"(" ++ (content ++ ")\"")

/-- A raw literal read as C++ reads it: the content up to the first `)"`, and what follows. -/
def read? (s : Text) : Option (Text × Text) :=
  (stripStart? "R\"(" s).bind fun body =>
    (indexOf? ")\"" body).map fun i => (body.take i, body.drop (i + 2))

end Raw

/-! ## 4. The closing mark -/

theorem includes_cons (pattern : Text) (c : Char) (r : Text) :
    includes (c :: r) pattern = (startsWith (c :: r) pattern || includes r pattern) := by
  unfold includes
  rw [indexOf?]
  split
  · rename_i hs
    rw [hs]
    rfl
  · rename_i hs
    rw [Option.isSome_map, Bool.eq_false_iff.mpr hs, Bool.false_or]

theorem exists_first {pattern : Text} (hne : pattern ≠ []) {s : Text} (h : includes s pattern = true) :
    ∃ u v, s = u ++ (pattern ++ v) ∧ includes u pattern = false := by
  induction s with
  | nil =>
    obtain ⟨c, p, rfl⟩ := exists_cons_of_ne_nil hne
    cases h
  | cons c r ih =>
    by_cases hs : startsWith (c :: r) pattern = true
    · obtain ⟨v, hv⟩ := startsWith_iff.mp hs
      obtain ⟨d, p, rfl⟩ := exists_cons_of_ne_nil hne
      exact ⟨[], v, hv, rfl⟩
    · rw [includes_cons, Bool.eq_false_iff.mpr hs, Bool.false_or] at h
      obtain ⟨u, v, rfl, hu⟩ := ih h
      refine ⟨c :: u, v, rfl, ?_⟩
      rw [includes_cons, hu, Bool.or_false]
      exact Bool.eq_false_iff.mpr fun hstart => hs (startsWith_append_right hstart _)

theorem indexOf?_closing (h : includes u ")\"" = false) (b : Text) :
    indexOf? ")\"" (u ++ (")\"" ++ b)) = some u.length := by
  induction u with
  | nil => rfl
  | cons c u ih =>
    rw [includes_cons, Bool.or_eq_false_iff] at h
    have hstart : startsWith (c :: (u ++ (")\"" ++ b))) ")\"" = false := by
      refine Bool.eq_false_iff.mpr fun hs => Bool.eq_false_iff.mp h.1 ?_
      obtain ⟨t, ht⟩ := startsWith_iff.mp hs
      obtain ⟨hc, hu⟩ := cons.inj ht
      cases u with
      | nil => exact absurd (cons.inj hu).1 (by decide)
      | cons d u =>
        rw [hc, (cons.inj hu).1]
        exact startsWith_append ")\"" u
    rw [cons_append, indexOf?, hstart, if_neg Bool.false_ne_true, ih h.2]
    rfl

/-- A raw literal reaches to the first closing mark. -/
theorem lengthThrough_closing (h : includes u ")\"" = false) (b : Text) :
    Segment.lengthThrough ")\"" (u ++ (")\"" ++ b)) = u.length + 2 := by
  unfold Segment.lengthThrough
  rw [indexOf?_closing h]
  rfl

/-! ## 5. Reading and converting -/

namespace Raw

theorem read?_literal (h : includes u ")\"" = false) (b : Text) : read? (literal u ++ b) = some (u, b) := by
  have hbody : stripStart? "R\"(" (literal u ++ b) = some (u ++ (")\"" ++ b)) := by
    unfold literal
    rw [append_assoc, append_assoc]
    rfl
  unfold read?
  rw [hbody, Option.bind_some, indexOf?_closing h, Option.map_some, take_left, ← append_assoc]
  exact congrArg (fun t => some (u, t)) (drop_left' (by rw [length_append]; rfl))

theorem close?_content (h : '\x60' ∉ content) (rest : Text) :
    close? (content ++ '\x60' :: rest) = some ⟨content ++ (")\"" ++ (convert rest).line), (convert rest).opened⟩ := by
  have hidx : (content ++ '\x60' :: rest).idxOf? '\x60' = some content.length := by
    induction content with
    | nil => rfl
    | cons c r ih =>
      have hc : (c == '\x60') = false := beq_eq_false_iff_ne.mpr fun e => h (e ▸ mem_cons_self)
      rw [cons_append, idxOf?_cons, hc, if_neg Bool.false_ne_true,
        ih fun hm => h (mem_cons_of_mem c hm)]
      rfl
  unfold close?
  rw [hidx, Option.map_some, take_left]
  dsimp only
  rw [← drop_drop, drop_left, append_assoc]
  rfl

theorem convert_content (h : '\x60' ∉ content) :
    convert ('\x60' :: (content ++ ['\x60'])) = ⟨literal content, false⟩ := by
  have hraw := convertFrom_raw (content ++ ['\x60'])
  rw [close?_content h [], Option.getD_some] at hraw
  show Converted.mk ("R\"(" ++ (convertFrom .raw (content ++ ['\x60'])).line)
    (convertFrom .raw (content ++ ['\x60'])).opened = _
  rw [hraw]
  rfl

end Raw

/-! ## 6. One segment -/

namespace Segment

theorem cut_literal (h : includes content ")\"" = false) (b : Text) {x : Option Char}
    (hx : x.any isWordChar = false) :
    Cut x (literal content ++ b) (⟨.literal, literal content⟩ :: scan (some '"') b) := by
  have htext : Raw.literal content ++ b = 'R' :: ('"' :: '(' :: content ++ ")\"" ++ b) := by
    unfold literal
    rw [append_assoc, append_assoc, append_assoc]
    rfl
  have hlen : ('"' :: '(' :: content ++ ")\"").length = content.length + 2 + 2 := by
    rw [length_append]
    rfl
  have hopen : opening? x ('R' :: ('"' :: '(' :: content ++ ")\"" ++ b))
      = some (.literal, content.length + 2 + 2) := by
    rw [← lengthThrough_closing h b, append_assoc]
    exact opening?_rawLiteral hx _
  rw [htext]
  refine .marked hlen hopen ?_
  rw [getLast?_append]
  exact cut_scan (some '"') b

end Segment

open Segment

theorem segments_literal (h : includes content ")\"" = false) (b : Text) :
    segments (literal content ++ b) = ⟨.literal, literal content⟩ :: scan (some '"') b :=
  (cut_literal h b rfl).eq_scan

theorem literal_torn (u v : Text) : Raw.literal (u ++ (")\"" ++ v)) = literal u ++ (v ++ ")\"") := by
  unfold literal
  rw [append_assoc, append_assoc, append_assoc, append_assoc]

/-- **What a literal between backquotes comes to.** It becomes the raw literal with the same
    content, and no literal stays open. That is one segment, and C++ reads the whole content from
    it, exactly if `)"` does not occur in the content. Otherwise only what stands in front of the
    first `)"` is read, and the rest is program text behind the literal. -/
theorem convert_content_iff {content : Text} (h : '\x60' ∉ content) :
    Raw.convert ('\x60' :: (content ++ ['\x60'])) = ⟨Raw.literal content, false⟩ ∧
    (segments (Raw.literal content) = [⟨.literal, Raw.literal content⟩] ↔ includes content ")\"" = false) ∧
    (Raw.read? (Raw.literal content) = some (content, []) ↔ includes content ")\"" = false) ∧
    ∀ u v, content = u ++ (")\"" ++ v) → includes u ")\"" = false →
      segments (Raw.literal content) = ⟨.literal, Raw.literal u⟩ :: scan (some '"') (v ++ ")\"") ∧
      Raw.read? (Raw.literal content) = some (u, v ++ ")\"") := by
  have hwhole (hc : includes content ")\"" = false) :
      segments (Raw.literal content) = [⟨.literal, Raw.literal content⟩] ∧
        Raw.read? (Raw.literal content) = some (content, []) := by
    have hsegs := segments_literal hc []
    have hread := Raw.read?_literal hc []
    rw [List.append_nil, scan] at hsegs
    rw [List.append_nil] at hread
    exact ⟨hsegs, hread⟩
  have htorn (u v : Text) (he : content = u ++ (")\"" ++ v)) (hu : includes u ")\"" = false) :
      segments (Raw.literal content) = ⟨.literal, Raw.literal u⟩ :: scan (some '"') (v ++ ")\"") ∧
        Raw.read? (Raw.literal content) = some (u, v ++ ")\"") := by
    rw [he, literal_torn]
    exact ⟨segments_literal hu _, Raw.read?_literal hu _⟩
  refine ⟨Raw.convert_content h, ⟨fun hs => ?_, fun hc => (hwhole hc).1⟩, ⟨fun hr => ?_, fun hc => (hwhole hc).2⟩, htorn⟩
  · refine Bool.eq_false_iff.mpr fun hc => ?_
    obtain ⟨u, v, he, hu⟩ := exists_first (by decide) hc
    -- what is behind the first closing mark is a segment of its own
    rw [(htorn u v he hu).1] at hs
    exact scan_ne_nil (List.append_ne_nil_of_right_ne_nil v (by decide)) (List.cons.inj hs).2
  · refine Bool.eq_false_iff.mpr fun hc => ?_
    obtain ⟨u, v, he, hu⟩ := exists_first (by decide) hc
    rw [(htorn u v he hu).2, Option.some.injEq, Prod.mk.injEq] at hr
    exact absurd hr.2 (List.append_ne_nil_of_right_ne_nil v (by decide))

/-- Quotes, parentheses and backslashes in every neighbourhood but one. -/
def quotedContent : Text := "\")(\\\"'//R\"(x) \")(/*"

theorem convert_content_iff_quoted :
    '\x60' ∉ quotedContent ∧ includes quotedContent ")\"" = false ∧
      segments (Raw.literal quotedContent) = [⟨.literal, Raw.literal quotedContent⟩] ∧
      Raw.read? (Raw.literal quotedContent) = some (quotedContent, []) :=
  have h := @convert_content_iff quotedContent (by decide)
  ⟨by decide, rfl, h.2.1.mpr rfl, h.2.2.1.mpr rfl⟩

theorem closingMark_torn :
    Raw.convert "\x60a)\"b\x60" = ⟨"R\"(a)\"b)\"", false⟩ ∧
      segments "R\"(a)\"b)\"" = [⟨.literal, "R\"(a)\""⟩, ⟨.code, "b)"⟩, ⟨.literal, "\""⟩] ∧
      Raw.read? "R\"(a)\"b)\"" = some ("a".toList, "b)\"".toList) :=
  ⟨rfl, by decide +kernel, rfl⟩

end Linewise
