/-
  A raw literal in the finished program.

  A raw literal that starts in code is a segment of its own in every pass over the program, so none of
  them looks into it.
-/
import Linewise.Proofs.RawLiterals

namespace Linewise

open Text List

variable {c : Char} {a l p s u content : Text} {b : Option Char}

/-! ## 1. The segments around a raw literal -/

namespace Segment

theorem suffixed_append {segs : List Segment} (hend : EndsInCode segs) (before : Option Segment) (seg : Segment)
    (segs' : List Segment) :
    ∃ rest, suffixed before (segs ++ seg :: segs') = suffixed before segs ++ (seg.text ++ rest) := by
  induction segs generalizing before with
  | nil => exact ⟨_, append_assoc _ _ _⟩
  | cons x segs ih =>
    have hneeds : needsSuffix before x (segs ++ seg :: segs').head? = needsSuffix before x segs.head? := by
      cases segs with
      | cons y ys => rfl
      | nil =>
        have hkind : x.kind = .code := hend x rfl
        unfold needsSuffix isString
        rw [hkind]
        rfl
    obtain ⟨rest, hrest⟩ := ih hend.tail (some x)
    refine ⟨rest, ?_⟩
    rw [cons_append, suffixed, suffixed, hneeds, hrest, append_assoc _ _ (seg.text ++ rest)]

end Segment

open Segment

/-! ## 2. The passes over code -/

/-- The text ends in code, and not in a word, so that a raw literal behind it is one. -/
structure Clear (a : Text) : Prop where
  code : EndsInCode (segments a)
  word : a.getLast?.any isWordChar = false

section

variable {a content : Text} (ha : Clear a) (hc : includes content ")\"" = false)

include ha

theorem Clear.suffixStrings : Clear (suffixStrings a).1 where
  code := (cut_scan none a).suffixed ha.code rfl none
  word := by
    rw [show (Linewise.suffixStrings a).1.getLast? = a.getLast? from (cut_scan none a).getLast?_suffixed ha.code none]
    exact ha.word

include hc

theorem segments_append_literal (rest : Text) :
    segments (a ++ (Raw.literal content ++ rest))
      = segments a ++ ⟨.literal, Raw.literal content⟩ :: scan (some '"') rest := by
  have hraw : ∃ r, Raw.literal content ++ rest = 'R' :: r := ⟨_, rfl⟩
  have hword : (a.getLast?.or none).any isWordChar = false := by
    rw [Option.or_none]
    exact ha.word
  refine ((cut_scan none a).append ha.code rfl (fun _ hnone => ?_) ?_ (cut_literal hc rest hword)).eq_scan
  · obtain ⟨r, hr⟩ := hraw
    rw [hr]
    exact opening?_append_cons (by decide) hnone r
  · exact .inr (Option.isSome_iff_exists.mpr ⟨_, opening?_rawLiteral hword _⟩)

theorem suffixStrings_literal (rest : Text) :
    ∃ rest', (suffixStrings (a ++ (Raw.literal content ++ rest))).1
      = (suffixStrings a).1 ++ (Raw.literal content ++ rest') := by
  unfold suffixStrings
  rw [segments_append_literal ha hc]
  exact suffixed_append ha.code none _ _

theorem replaceSymbols_literal (rest : Text) :
    ∃ rest', replaceSymbols (a ++ (Raw.literal content ++ rest))
      = replaceSymbols a ++ (Raw.literal content ++ rest') := by
  unfold replaceSymbols
  rw [mapCode_eq, mapCode_eq, segments_append_literal ha hc, map_append, texts_append]
  exact ⟨_, rfl⟩

end

/-! ## 3. Characters outside words -/

attribute [local irreducible] settlePath replaceSymbolsInCode

/-- The characters of a text that no word holds, in order. -/
def signs (s : Text) : Text := s.filter (!isPathChar ·)

theorem signs_append (a b : Text) : signs (a ++ b) = signs a ++ signs b := filter_append a b

theorem signs_of_path (h : IsPath u) : signs u = [] := by
  unfold signs
  rw [filter_eq_nil_iff]
  intro c hc
  rw [h c hc]
  exact Bool.false_ne_true

theorem signs_cons {d : Char} (h : isPathChar d = false) (v : Text) : signs (d :: v) = d :: signs v := by
  unfold signs
  rw [filter_cons, h]
  rfl

theorem mem_signs (h : isPathChar c = false) : c ∈ signs s ↔ c ∈ s := by
  unfold signs
  rw [mem_filter, h]
  exact and_iff_left rfl

theorem signs_suffixed (before : Option Segment) (segs : List Segment) :
    signs (suffixed before segs) = signs (texts segs) := by
  induction segs generalizing before with
  | nil => rfl
  | cons seg segs ih =>
    have hletter : signs (if needsSuffix before seg segs.head? then ['s'] else []) = [] := by
      split
      · decide
      · rfl
    show signs (seg.text ++ _ ++ suffixed (some seg) segs) = signs (seg.text ++ texts segs)
    rw [signs_append, signs_append, signs_append, hletter, ih, append_nil]

theorem signs_suffixStrings (s : Text) : signs (suffixStrings s).1 = signs s := by
  unfold suffixStrings
  rw [signs_suffixed, texts_segments]

theorem signs_replaceSymbolsInCode (t : Text) : signs (replaceSymbolsInCode t) = signs t := by
  induction t using pathInduction with
  | path u hu => rw [replaceSymbolsInCode_path hu, signs_of_path hu, signs_of_path (isPath_settlePath hu none)]
  | step u d v hu hd ih =>
    rw [replaceSymbolsInCode_step hu hd, signs_append, signs_append, signs_of_path hu,
      signs_of_path (isPath_settlePath hu (some d)), signs_cons hd, signs_cons hd, ih]

theorem signs_respelled (segs : List Segment) :
    signs (texts (segs.map (respell replaceSymbolsInCode))) = signs (texts segs) := by
  induction segs with
  | nil => rfl
  | cons seg segs ih =>
    have hseg : signs (respell replaceSymbolsInCode seg).text = signs seg.text := by
      unfold respell
      split
      · exact signs_replaceSymbolsInCode seg.text
      · rfl
    show signs ((respell replaceSymbolsInCode seg).text ++ texts (segs.map (respell replaceSymbolsInCode)))
      = signs (seg.text ++ texts segs)
    rw [signs_append, signs_append, hseg, ih]

theorem signs_replaceSymbols (s : Text) : signs (replaceSymbols s) = signs s := by
  unfold replaceSymbols
  rw [mapCode_eq, signs_respelled, texts_segments]

/-! ## 4. The last line -/

/-- Nothing, or whole lines. -/
def WholeLines (p : Text) : Prop := p = [] ∨ ∃ q, p = q ++ ['\n']

theorem WholeLines.append {p' : Text} (hp : WholeLines p) (hp' : WholeLines p') : WholeLines (p ++ p') := by
  rcases hp' with rfl | ⟨q, rfl⟩
  · rwa [append_nil]
  · exact .inr ⟨p ++ q, (append_assoc _ _ _).symm⟩

/-- What stands on the last line of a text. -/
def lastLine (s : Text) : Text := (pieces (· == '\n') s).getLast?.getD []

theorem lastLine_append {y : Text} (hp : WholeLines p) (hy : '\n' ∉ y) : lastLine (p ++ y) = y := by
  have hone : pieces (· == '\n') y = [y] := pieces_of_not_mem hy
  unfold lastLine
  rcases hp with rfl | ⟨q, rfl⟩
  · rw [nil_append, hone]
    rfl
  · rw [append_assoc, singleton_append, pieces_append rfl, hone, getLast?_concat]
    rfl

theorem exists_lastLine (s : Text) : ∃ p, WholeLines p ∧ s = p ++ lastLine s ∧ '\n' ∉ lastLine s := by
  have hne := pieces_ne_nil (· == '\n') s
  have hsplit : pieces (· == '\n') s = (pieces (· == '\n') s).dropLast ++ [lastLine s] := by
    unfold lastLine
    rw [getLast?_eq_some_getLast hne, Option.getD_some, dropLast_append_getLast hne]
  have hclean : '\n' ∉ lastLine s := by
    intro hm
    have hmem : lastLine s ∈ pieces (· == '\n') s := by rw [hsplit]; exact mem_append_right _ mem_cons_self
    exact absurd (not_of_mem_pieces hmem hm) (by decide)
  have htext := unlines_pieces s
  rw [hsplit] at htext
  cases hps : (pieces (· == '\n') s).dropLast with
  | nil =>
    rw [hps, nil_append, unlines_singleton] at htext
    exact ⟨[], .inl rfl, htext.symm, hclean⟩
  | cons p ps =>
    rw [hps, unlines_append (cons_ne_nil p ps) (cons_ne_nil _ []), unlines_singleton] at htext
    exact ⟨unlines (p :: ps) ++ ['\n'], .inr ⟨_, rfl⟩, by rw [append_assoc]; exact htext.symm, hclean⟩

theorem lastLine_below (hp : WholeLines p) (s : Text) : lastLine (p ++ s) = lastLine s := by
  obtain ⟨p', hp', hs, hclean⟩ := exists_lastLine s
  conv_lhs => rw [hs, ← append_assoc]
  exact lastLine_append (hp.append hp') hclean

theorem signs_lastLine (s : Text) : signs (lastLine s) = lastLine (signs s) := by
  obtain ⟨p, hp, hs, hclean⟩ := exists_lastLine s
  have hwhole : WholeLines (signs p) := by
    rcases hp with rfl | ⟨q, rfl⟩
    · exact .inl rfl
    · exact .inr ⟨signs q, by rw [signs_append, signs_cons newline_not_path]; rfl⟩
  have hsigns : '\n' ∉ signs (lastLine s) := fun h => hclean ((mem_signs newline_not_path).mp h)
  conv_rhs => rw [hs, signs_append]
  exact (lastLine_append hwhole hsigns).symm

theorem sharp_not_mem_lastLine {s' : Text} (h : signs s' = signs s) (hs : '#' ∉ lastLine s) :
    '#' ∉ lastLine s' := by
  have hsharp : isPathChar '#' = false := rfl
  intro hm
  refine hs ((mem_signs hsharp).mp ?_)
  rw [signs_lastLine, ← h, ← signs_lastLine]
  exact (mem_signs hsharp).mpr hm

/-! ## 5. Lines put together again -/

theorem unlines_lines_append {v : Text} (hn : c ≠ '\n') (hr : '\r' ∉ v ++ [c]) (rest : Text) :
    ∃ y, unlines (lines (v ++ [c] ++ rest)) = v ++ [c] ++ y := by
  obtain ⟨ps, t, hps⟩ := pieces_concat (p := (· == '\n')) (beq_eq_false_iff_ne.mpr hn) v
  obtain ⟨q, qs, hq⟩ := exists_pieces (· == '\n') rest
  have hc : c ≠ '\r' := fun e => hr (mem_append_right v (e ▸ mem_cons_self))
  have hmap : ps.map chomp = ps :=
    map_chomp_eq_self fun p hp hm => hr (mem_of_mem_pieces (hps ▸ mem_append_left _ hp) hm)
  -- the last piece goes on in what stands behind the text
  have hlast : ∃ q' more, linesOfPieces ((t ++ [c] ++ q) :: qs) = (t ++ [c] ++ q') :: more := by
    cases qs with
    | nil =>
      refine ⟨q, [], ?_⟩
      rw [linesOfPieces, if_neg (by simp)]
    | cons q' qs =>
      refine ⟨chomp q, linesOfPieces (q' :: qs), ?_⟩
      rw [linesOfPieces, append_assoc, singleton_append, chomp_append hc, append_assoc]
      rfl
  obtain ⟨q', more, hlast⟩ := hlast
  refine ⟨q' ++ linesBelow more, ?_⟩
  unfold lines
  rw [pieces_append_eq hps hq, linesOfPieces_front ps (cons_ne_nil _ qs), hmap, hlast, unlines_comment, ← hps,
    unlines_pieces]

theorem lines_onFront (hl : '\n' ∉ l) (hn : c ≠ '\n') (hr : c ≠ '\r') (s : Text) :
    ∃ h t, lines (c :: s) = (c :: h) :: t ∧ lines (l ++ c :: s) = (l ++ c :: h) :: t := by
  obtain ⟨q, qs, -, hhead⟩ := pieces_append_of_not_mem (a := [c]) (by simpa using hn.symm) s
  rw [singleton_append, singleton_append] at hhead
  obtain ⟨_, _, hself, hfront⟩ := pieces_append_of_not_mem hl (c :: s)
  cases hself.symm.trans hhead
  unfold lines
  rw [hself, hfront]
  cases qs with
  | nil =>
    refine ⟨q, [], rfl, ?_⟩
    rw [linesOfPieces, if_neg (by simp)]
  | cons q' qs =>
    refine ⟨chomp q, linesOfPieces (q' :: qs), ?_, ?_⟩
    · rw [linesOfPieces]
      exact congrArg (· :: _) (chomp_append hr [] q)
    · rw [linesOfPieces, chomp_append hr]

theorem WholeLines.lines_append (hp : WholeLines p) : ∃ ls, ∀ s, lines (p ++ s) = ls ++ lines s := by
  rcases hp with rfl | ⟨q, rfl⟩
  · exact ⟨[], fun s => rfl⟩
  · refine ⟨(pieces (· == '\n') q).map chomp, fun s => ?_⟩
    rw [append_assoc, singleton_append, Text.lines_append_newline]

theorem isPreamble_append_raw (hl : '#' ∉ l) (h : Text) : isPreamble (l ++ 'R' :: h) = false := by
  refine isPreamble_eq_false.mpr ⟨fun hb => ?_, fun hlead => ?_⟩
  · exact absurd (hb 'R' (mem_append_right l mem_cons_self)) (by decide)
  · by_cases hblank : Blank l
    · rw [leadsInclude_of_blank_append hblank] at hlead
      exact not_leadsInclude_of_head rfl (by decide) h hlead
    · unfold LeadsInclude at hlead
      rw [trimStart_append_of_not_blank hblank] at hlead
      obtain ⟨c, r, hcr⟩ := exists_cons_of_ne_nil fun he => hblank (blank_of_trimStart he)
      rw [hcr] at hlead
      have hc : '#' = c := (cons_prefix_cons.mp hlead).1
      refine hl ((dropWhile_sublist isBlank).subset ?_)
      show '#' ∈ trimStart l
      rw [hcr, hc]
      exact mem_cons_self

theorem programBody_literal (ha : '#' ∉ lastLine a) (hr : '\r' ∉ content) (rest : Text) :
    ∃ x y, programBody (a ++ (Raw.literal content ++ rest)) = x ++ (Raw.literal content ++ y) := by
  obtain ⟨p, hp, hs, hclean⟩ := exists_lastLine a
  generalize lastLine a = l at ha hs hclean
  obtain ⟨ls, hls⟩ := hp.lines_append
  have hreturn : '\r' ∉ Raw.literal content :=
    not_mem_append (by decide) (not_mem_append hr (by decide))
  have hconcat : Raw.literal content = "R\"(" ++ (content ++ ")") ++ ['"'] := by
    rw [append_assoc, append_assoc]
    rfl
  obtain ⟨y, hy⟩ := unlines_lines_append (by decide) (hconcat ▸ hreturn) rest
  rw [← hconcat] at hy
  obtain ⟨h, t, hown, hline⟩ := lines_onFront hclean (c := 'R') (by decide) (by decide)
    (('"' :: '(' :: (content ++ ")\"")) ++ rest)
  have hraw : ('R' :: (('"' :: '(' :: (content ++ ")\"")) ++ rest) : Text) = Raw.literal content ++ rest := rfl
  rw [hraw] at hown hline
  have hstop : ¬ isPreamble (l ++ 'R' :: h) = true := by
    rw [isPreamble_append_raw ha]
    exact Bool.false_ne_true
  obtain ⟨ls', hdrop⟩ : ∃ ls', (ls ++ (l ++ 'R' :: h) :: t).dropWhile isPreamble = ls' ++ (l ++ 'R' :: h) :: t := by
    rw [dropWhile_append]
    split
    · exact ⟨[], dropWhile_cons_of_neg hstop⟩
    · exact ⟨_, rfl⟩
  have hfirst := unlines_cons ('R' :: h) t
  rw [← hown, hy] at hfirst
  refine ⟨unlines (ls' ++ [l]), y, ?_⟩
  unfold programBody
  rw [hs, append_assoc, hls, hline, hdrop, unlines_comment, ← hfirst]

/-! ## 6. The program -/

theorem wholeLines_suffixLine (suffixed : Bool) : WholeLines (suffixLine suffixed) := by
  cases suffixed with
  | false => exact .inl rfl
  | true => exact .inr ⟨"using namespace std::string_literals;\n", rfl⟩

/-- A raw literal in code stays as it was written. -/
theorem finish_literal {pre : List Text} (ha : Clear (unlines (pre ++ [u]))) (hn : '\n' ∉ u) (hsharp : '#' ∉ u)
    (hc : includes content ")\"" = false) (hr : '\r' ∉ content) (tail : Text) (post : List Text)
    (flags : ProgramFlags) :
    ∃ x y, finish (pre ++ (u ++ (Raw.literal content ++ tail)) :: post) flags = x ++ (Raw.literal content ++ y) := by
  have hlast : lastLine (unlines (pre ++ [u])) = u := by
    by_cases hpre : pre = []
    · rw [hpre, nil_append, unlines_singleton]
      exact lastLine_append (.inl rfl) hn
    · rw [unlines_append hpre (cons_ne_nil u []), unlines_singleton, ← singleton_append, ← append_assoc]
      exact lastLine_append (.inr ⟨_, rfl⟩) hn
  have htext := unlines_comment pre u (Raw.literal content ++ tail) post
  rw [append_assoc (Raw.literal content)] at htext
  generalize unlines (pre ++ [u]) = a at ha hlast htext
  rw [← hlast] at hsharp
  obtain ⟨rest₁, hsuffix⟩ := suffixStrings_literal ha hc (tail ++ linesBelow post)
  obtain ⟨rest₂, hsymbols⟩ := replaceSymbols_literal ha.suffixStrings hc rest₁
  have hsettled : '#' ∉ lastLine (replaceSymbols (suffixStrings a).1) :=
    sharp_not_mem_lastLine ((signs_replaceSymbols _).trans (signs_suffixStrings a)) hsharp
  obtain ⟨p, hp, hhelpers⟩ : ∃ p, WholeLines p ∧
      withHelpers (pre ++ (u ++ (Raw.literal content ++ tail)) :: post) flags
        = p ++ replaceSymbols (suffixStrings a).1 ++ (Raw.literal content ++ rest₂) := by
    unfold withHelpers
    rw [addHelpers_eq, settle_eq, htext, hsuffix, hsymbols]
    generalize chosenHelpers _ _ = hs
    refine ⟨definitions hs ++ suffixLine (suffixStrings (a ++ (Raw.literal content ++ (tail ++ linesBelow post)))).2,
      WholeLines.append (definitions_concat hs) (wholeLines_suffixLine _), ?_⟩
    rw [append_assoc, append_assoc]
    rfl
  rw [← lastLine_below hp] at hsettled
  obtain ⟨x, y, hbody⟩ := programBody_literal hsettled hr rest₂
  obtain ⟨e, _, hfinish⟩ := finish_eq (pre ++ (u ++ (Raw.literal content ++ tail)) :: post) flags
  rw [hhelpers, hbody, append_assoc, append_assoc, ← append_assoc (includeBlock _)] at hfinish
  exact ⟨_, _, hfinish⟩

end Linewise
