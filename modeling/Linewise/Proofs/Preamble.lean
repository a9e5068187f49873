/-
  The includes of a program are what the program itself asks for.

  The lines of the includes hold no symbol of the table, so the program under them asks for the same
  headers. The pass that writes them takes away those that lead the text; any other program keeps all
  that counts.
-/
import Linewise.Program.Header
import Linewise.Proofs.CodeText

namespace Linewise

open Text Segment List

variable {a e s u w x x' y line header : Text}

/-! ## 1. Required headers -/

theorem isWord_symbol : ∀ entry ∈ headerTable, ∀ symbol ∈ entry.2, IsWord symbol := by decide +kernel

theorem requiredHeaders_congr {t : Text}
    (h : ∀ entry ∈ headerTable, ∀ symbol ∈ entry.2, (Mentions s symbol ↔ Mentions t symbol)) :
    requiredHeaders s = requiredHeaders t := by
  refine congrArg (map _) (filter_congr fun entry hentry => ?_)
  rw [Bool.eq_iff_iff, any_eq_true, any_eq_true]
  refine exists_congr fun symbol => and_congr_right fun hsymbol => ?_
  have hw := isWord_symbol entry hentry symbol hsymbol
  rw [← mentions_iff hw, ← mentions_iff hw]
  exact h entry hentry symbol hsymbol

theorem sorted_requiredHeaders (s : Text) : (requiredHeaders s).Pairwise (· < ·) := by
  have htable : (headerTable.map (·.1)).Pairwise (· < ·) := by decide +kernel
  exact htable.sublist (filter_sublist.map _)

theorem exists_entry_of_required (h : header ∈ requiredHeaders s) : ∃ entry ∈ headerTable, entry.1 = header := by
  obtain ⟨entry, hentry, rfl⟩ := mem_map.mp h
  exact ⟨entry, (mem_filter.mp hentry).1, rfl⟩

/-! ## 2. The includes ask for nothing -/

/-- The line that includes a header. -/
def includeLine (header : Text) : Text := "#include <" ++ header ++ ">"

/-- The includes in front of a program. -/
def includeBlock (headers : List Text) : Text :=
  if headers.isEmpty then [] else unlines (headers.map includeLine) ++ "\n\n"

/-- The program below its includes. -/
def programBody (s : Text) : Text := unlines ((lines s).dropWhile isPreamble)

theorem includeBlock_of_ne_nil {headers : List Text} (h : headers ≠ []) (body : Text) :
    includeBlock headers ++ body = unlines (headers.map includeLine) ++ '\n' :: '\n' :: body := by
  unfold includeBlock
  rw [if_neg (by simpa using h), append_assoc]
  rfl

theorem addIncludes_eq (s : Text) :
    addIncludes s = includeBlock (requiredHeaders (programBody s)) ++ programBody s := by
  show (if ((requiredHeaders (programBody s)).map includeLine).isEmpty then programBody s
    else unlines ((requiredHeaders (programBody s)).map includeLine) ++ "\n\n" ++ programBody s) = _
  unfold includeBlock
  rw [isEmpty_map]
  split <;> rfl

theorem complete_includeLine : ∀ entry ∈ headerTable, Complete (includeLine entry.1) := by
  have h : ∀ entry ∈ headerTable, closes none 0 (includeLine entry.1) = true := by decide +kernel
  exact fun entry hentry => complete_of_closes (h entry hentry)

theorem not_mentions_includeLine {entry : Text × List Text} (hentry : entry ∈ headerTable)
    {entry' : Text × List Text} (hentry' : entry' ∈ headerTable) {symbol : Text} (hsymbol : symbol ∈ entry'.2) :
    ¬ Mentions (includeLine entry.1) symbol := by
  -- the symbols of a namespace hold a colon and the lines do not; the others are few
  have hsplit : ∀ entry ∈ headerTable, ∀ symbol ∈ entry.2,
      ':' ∈ symbol ∨ symbol ∈ [("printf" : Text), "fprintf", "stdout", "stderr"] := by decide +kernel
  have hline : ∀ entry ∈ headerTable, ':' ∉ codeFrom none 0 (includeLine entry.1) ∧
      ∀ symbol ∈ [("printf" : Text), "fprintf", "stdout", "stderr"],
        containsWord (codeFrom none 0 (includeLine entry.1)) symbol = false := by decide +kernel
  intro h
  rcases hsplit entry' hentry' symbol hsymbol with hcolon | hfew
  · have := mem_of_stands h hcolon
    rw [codeText_eq] at this
    exact (hline entry hentry).1 this
  · rw [mentions_iff (isWord_symbol entry' hentry' symbol hsymbol), codeText_eq,
      (hline entry hentry).2 symbol hfew] at h
    cases h

theorem mentions_includeBlock {word : Text} (hw : IsWord word)
    (h : ∀ entry ∈ headerTable, ¬ Mentions (includeLine entry.1) word) (s body : Text) :
    Mentions (includeBlock (requiredHeaders s) ++ body) word ↔ Mentions body word := by
  by_cases hne : requiredHeaders s = []
  · rw [hne]
    rfl
  · have hline : ∀ line ∈ (requiredHeaders s).map includeLine, Complete line ∧ ¬ Mentions line word := by
      intro line hline
      obtain ⟨header, hheader, rfl⟩ := mem_map.mp hline
      obtain ⟨entry, hentry, rfl⟩ := exists_entry_of_required hheader
      exact ⟨complete_includeLine entry hentry, h entry hentry⟩
    have hcomplete := fun line hl => (hline line hl).1
    have hnone : ¬ ∃ line ∈ (requiredHeaders s).map includeLine, Mentions line word :=
      fun ⟨line, hl, hm⟩ => (hline line hl).2 hm
    rw [includeBlock_of_ne_nil hne, mentions_append hw (complete_unlines hcomplete),
      mentions_unlines hw hcomplete, or_iff_right hnone]
    exact (mentions_append hw (complete_of_blank blank_nil) body).trans
      (or_iff_right (not_mentions_of_blank hw blank_nil))

/-- The includes do not change what is asked for. -/
theorem requiredHeaders_includeBlock (s body : Text) :
    requiredHeaders (includeBlock (requiredHeaders s) ++ body) = requiredHeaders body :=
  requiredHeaders_congr fun entry hentry symbol hsymbol =>
    mentions_includeBlock (isWord_symbol entry hentry symbol hsymbol)
      (fun _ hentry' => not_mentions_includeLine hentry' hentry hsymbol) s body

/-! ## 3. The includes read back -/

/-- The header that a line includes. -/
def includedHeader? (line : Text) : Option Text := (stripStart? "#include <" line).bind (stripEnd? ">")

/-- The headers that the first lines of a program include. -/
def leadingHeaders : List Text → List Text
  | [] => []
  | line :: rest =>
    match includedHeader? line with
    | some header => header :: leadingHeaders rest
    | none => []

theorem includedHeader?_includeLine (header : Text) : includedHeader? (includeLine header) = some header := by
  unfold includedHeader? includeLine stripStart? stripEnd?
  rw [append_assoc, if_pos (startsWith_append _ _), drop_left, Option.bind_some,
    if_pos (endsWith_append _ _), length_append, Nat.add_sub_cancel, take_left]

theorem prefix_of_includedHeader? (h : includedHeader? line = some header) : ("#include <" : Text) <+: line := by
  obtain ⟨r, hr, _⟩ := Option.bind_eq_some_iff.mp h
  exact ⟨r, (eq_append_of_stripStart? hr).symm⟩

theorem lines_newline (s : Text) : lines ('\n' :: s) = [] :: lines s := lines_append_newline [] s

theorem lines_includeLine (h : '\n' ∉ header) (s : Text) :
    lines (includeLine header ++ '\n' :: s) = includeLine header :: lines s := by
  have hn : '\n' ∉ "#include <" ++ header ++ ['>'] :=
    not_mem_append (not_mem_append (by decide) h) (by decide)
  have := lines_append (a := "#include <" ++ header) (b := s) (c := '>') (by decide) (by decide)
  rw [lines_eq_singleton (append_cons_ne_nil _) hn] at this
  exact this

theorem leadingHeaders_includes {headers : List Text} (h : ∀ header ∈ headers, '\n' ∉ header)
    (hne : headers ≠ []) (s : Text) :
    leadingHeaders (lines (unlines (headers.map includeLine) ++ '\n' :: '\n' :: s)) = headers := by
  induction headers with
  | nil => exact absurd rfl hne
  | cons header headers ih =>
    have hheader := h header mem_cons_self
    cases headers with
    | nil =>
      rw [map_cons, map_nil, unlines_singleton, lines_includeLine hheader, lines_newline, leadingHeaders,
        includedHeader?_includeLine]
      rfl
    | cons header' headers =>
      have ih := ih (forall_mem_cons.mp h).2 (cons_ne_nil _ _)
      rw [map_cons] at ih
      rw [map_cons, map_cons, unlines_cons_cons, append_assoc, cons_append,
        lines_includeLine hheader, leadingHeaders, includedHeader?_includeLine]
      exact congrArg _ ih

theorem prefix_of_head_lines (h : (lines s).head? = some line) : line <+: s := by
  obtain ⟨p, ps, hp⟩ := exists_pieces (· == '\n') s
  have hs := unlines_pieces s
  unfold lines at h
  rw [hp] at h hs
  cases ps with
  | nil =>
    rw [unlines_singleton] at hs
    rw [linesOfPieces] at h
    split at h
    · cases h
    · exact ⟨[], by rw [append_nil, ← Option.some.inj h, hs]⟩
  | cons q ps =>
    rw [unlines_cons_cons] at hs
    rw [← hs, ← Option.some.inj h]
    exact (prefix_chomp p).trans (prefix_append p _)

theorem leadingHeaders_programBody (s : Text) (he : e = [] ∨ e = ['\n']) :
    leadingHeaders (lines (programBody s ++ e)) = [] := by
  unfold programBody
  cases hd : (lines s).dropWhile isPreamble with
  | nil => rcases he with rfl | rfl <;> decide
  | cons first rest =>
    have hfirst : isPreamble first = false := by
      have := head?_dropWhile_not isPreamble (lines s)
      rwa [hd] at this
    cases hl : lines (unlines (first :: rest) ++ e) with
    | nil => rfl
    | cons line below =>
      rw [leadingHeaders]
      cases hi : includedHeader? line with
      | none => rfl
      | some header =>
        -- the first line would be one of the includes that were dropped
        have hpre : "#include <" <+: unlines (first :: rest) ++ e :=
          (prefix_of_includedHeader? hi).trans (prefix_of_head_lines (by rw [hl]; rfl))
        have hpre : "#include <" <+: first := by
          cases rest with
          | nil =>
            rw [unlines_singleton] at hpre
            rcases he with rfl | rfl
            · rwa [append_nil] at hpre
            · exact prefix_of_append_cons (by decide) hpre
          | cons second rest =>
            rw [unlines_cons_cons, append_assoc, cons_append] at hpre
            exact prefix_of_append_cons (by decide) hpre
        obtain ⟨r, rfl⟩ := hpre
        have hbad : isPreamble ("#include <" ++ r) = true := by
          unfold isPreamble
          rw [trimStart_eq_self_of_head (fun c hc => by cases hc; decide),
            show "#include <" ++ r = "#include" ++ (" <" ++ r) from rfl, startsWith_append,
            Bool.or_true]
        rw [hfirst] at hbad
        cases hbad

theorem leadingHeaders_includeBlock (s : Text) (he : e = [] ∨ e = ['\n']) :
    leadingHeaders (lines (includeBlock (requiredHeaders (programBody s)) ++ (programBody s ++ e)))
      = requiredHeaders (programBody s) := by
  by_cases hne : requiredHeaders (programBody s) = []
  · rw [hne]
    exact leadingHeaders_programBody s he
  · have hn : ∀ entry ∈ headerTable, '\n' ∉ entry.1 := by decide +kernel
    rw [includeBlock_of_ne_nil hne]
    refine leadingHeaders_includes (fun header hheader => ?_) hne _
    obtain ⟨entry, hentry, rfl⟩ := exists_entry_of_required hheader
    exact hn entry hentry

/-! ## 4. What leads a text -/

/-- The first thing in the text is an include. -/
def LeadsInclude (s : Text) : Prop := ("#include" : Text) <+: trimStart s

theorem leadsInclude_of_blank_append (hu : Blank u) (s : Text) : LeadsInclude (u ++ s) ↔ LeadsInclude s := by
  unfold LeadsInclude
  rw [trimStart_append_of_blank hu]

theorem not_leadsInclude_of_head {c : Char} (hblank : isBlank c = false) (hc : c ≠ '#') (r : Text) :
    ¬ LeadsInclude (c :: r) := by
  intro ⟨t, ht⟩
  rw [trimStart_cons_of_solid hblank] at ht
  exact hc (cons.inj ht).1.symm

theorem not_leadsInclude_of_blank (h : Blank s) : ¬ LeadsInclude s := by
  intro ⟨t, ht⟩
  rw [← append_nil s, trimStart_append_of_blank h] at ht
  cases ht

theorem LeadsInclude.append (h : LeadsInclude a) (b : Text) : LeadsInclude (a ++ b) := by
  unfold LeadsInclude
  rw [trimStart_append_of_not_blank fun hb => not_leadsInclude_of_blank hb h]
  exact IsPrefix.trans h (prefix_append _ b)

theorem leadsInclude_append {b : Text} (h : LeadsInclude (a ++ '\n' :: b)) : LeadsInclude a ∨ LeadsInclude b := by
  by_cases ha : Blank a
  · have hn : Blank ['\n'] := isAllBlank_iff.mp rfl
    rw [leadsInclude_of_blank_append ha] at h
    exact .inr ((leadsInclude_of_blank_append hn b).mp h)
  · unfold LeadsInclude at h
    rw [trimStart_append_of_not_blank ha] at h
    exact .inl (prefix_of_append_cons (by decide) h)

theorem not_leadsInclude_unlines {parts : List Text} (h : ∀ line ∈ parts, ¬ LeadsInclude line) :
    ¬ LeadsInclude (unlines parts) := by
  induction parts with
  | nil => exact not_leadsInclude_of_blank blank_nil
  | cons line parts ih =>
    have hline := h line mem_cons_self
    cases parts with
    | nil =>
      rw [unlines_singleton]
      exact hline
    | cons next parts =>
      rw [unlines_cons_cons]
      intro hlead
      exact (leadsInclude_append hlead).elim hline (ih (forall_mem_cons.mp h).2)

theorem prefix_trim (hw : ∀ c ∈ w, isBlank c = false) (h : w <+: trimStart s) : w <+: trim s := by
  obtain ⟨v, hv, hblank⟩ := eq_append_dropEndWhile isBlank (trimStart s)
  rw [hv] at h
  -- a character of `w` is not among those trimmed away
  refine prefix_of_append (fun c hc hmem => ?_) h
  exact Bool.false_ne_true ((hw c hmem).symm.trans (hblank c (mem_of_mem_head? hc)))

theorem not_leadsInclude_of_trim (h : startsWith (trim line) "#include" = false) : ¬ LeadsInclude line := by
  intro hlead
  obtain ⟨r, hr⟩ := prefix_trim (by decide) hlead
  rw [← hr, startsWith_append] at h
  cases h

/-! ## 5. Symbols settled -/

attribute [local irreducible] settlePath replaceSymbolsInCode

/-- What the settled program has behind a code segment, against what was there: the same mark. -/
def SameEdge (x x' : Text) : Prop := x.head? = x'.head? ∧ ∀ c ∈ x.head?, c ∈ ("/R\"'" : Text)

theorem prefix_of_settlePath {after : Option Char} {y' : Text}
    (h : ("include" : Text) <+: settlePath after u ++ y') (hhead : y.head? = y'.head?)
    (hy : ∀ c ∈ y.head?, c ∉ ("include" : Text)) : ("include" : Text) <+: u ++ y := by
  have hspell : ∀ r ∈ rules, r.spelling.head? ≠ some 'i' := by decide +kernel
  have hpath := prefix_of_append (hhead ▸ hy) h
  rcases settlePath_eq after u with he | ⟨r, hr, t, rfl, he, _⟩
  · rw [he] at hpath
    exact hpath.trans (prefix_append u y)
  · obtain ⟨x, hx⟩ := hpath
    rw [he] at hx
    cases hs : r.spelling with
    | nil => exact absurd hs (rules_sound r hr).spelling_ne
    | cons c p =>
      rw [hs] at hx
      refine absurd ?_ (hspell r hr)
      rw [hs, ← (cons.inj hx).1]
      rfl

theorem prefix_replaceSymbolsInCode {v : Text} (hx : SameEdge x x')
    (h : ("include" : Text) <+: replaceSymbolsInCode v ++ x') : ("include" : Text) <+: v ++ x := by
  have hmark : ∀ c ∈ ("/R\"'" : Text), c ∉ ("include" : Text) := by decide
  have hpath : IsPath "include" := by decide +kernel
  induction v using pathInduction with
  | path u hu =>
    rw [replaceSymbolsInCode_path hu] at h
    exact prefix_of_settlePath h hx.1 fun c hc => hmark c (hx.2 c hc)
  | step u d v hu hd _ =>
    rw [replaceSymbolsInCode_step hu hd, append_assoc] at h
    rw [append_assoc]
    refine prefix_of_settlePath h rfl fun c hc hmem => ?_
    rw [show d = c from Option.some.inj hc, hpath c hmem] at hd
    cases hd

theorem leadsInclude_replaceSymbolsInCode {t : Text} (hx : SameEdge x x')
    (h : LeadsInclude (replaceSymbolsInCode t ++ x')) : LeadsInclude (t ++ x) := by
  have hmark : ∀ c ∈ ("/R\"'" : Text), isBlank c = false ∧ c ≠ '#' := by decide
  have hhash : ∀ c, isPathChar c = true → c ≠ '#' := fun c hc e => absurd (e ▸ hc) (by decide)
  -- a path in front of everything is no include
  have front {u : Text} (after : Option Char) (hu : IsPath u) (hne : u ≠ []) (w : Text) :
      ¬ LeadsInclude (settlePath after u ++ w) := by
    cases hs : settlePath after u with
    | nil => exact absurd (settlePath_eq_nil_iff.mp hs) hne
    | cons c p =>
      have hc := isPath_settlePath hu after c (by rw [hs]; exact mem_cons_self)
      exact not_leadsInclude_of_head (not_isBlank_of_isPathChar hc) (hhash c hc) _
  induction t using pathInduction with
  | path u hu =>
    by_cases hne : u = []
    · rw [hne, replaceSymbolsInCode_nil] at h
      cases x' with
      | nil => exact absurd h (not_leadsInclude_of_blank blank_nil)
      | cons c r =>
        have hc := hmark c (hx.2 c (by rw [hx.1]; rfl))
        exact absurd h (not_leadsInclude_of_head hc.1 hc.2 r)
    · rw [replaceSymbolsInCode_path hu] at h
      exact absurd h (front none hu hne x')
  | step u d v hu hd ih =>
    rw [replaceSymbolsInCode_step hu hd, append_assoc] at h
    rw [append_assoc]
    by_cases hne : u = []
    · rw [hne, settlePath_eq_nil_iff.mpr rfl] at h
      rw [hne]
      by_cases hblank : isBlank d = true
      · have hd : Blank [d] := fun c hc => mem_singleton.mp hc ▸ hblank
        exact (leadsInclude_of_blank_append hd (v ++ x)).mpr
          (ih ((leadsInclude_of_blank_append hd (replaceSymbolsInCode v ++ x')).mp h))
      · have hsolid := Bool.eq_false_iff.mpr hblank
        by_cases hc : d = '#'
        · subst hc
          unfold LeadsInclude at h ⊢
          rw [nil_append, cons_append, trimStart_cons_of_solid hsolid] at h ⊢
          exact prefix_cons_inj '#' |>.mpr
            (prefix_replaceSymbolsInCode hx ((prefix_cons_inj '#').mp h))
        · exact absurd h (not_leadsInclude_of_head hsolid hc _)
    · exact absurd h (front (some d) hu hne _)

theorem leadsInclude_of_replaceSymbols (h : LeadsInclude (replaceSymbols s)) : LeadsInclude s := by
  unfold replaceSymbols at h
  rw [mapCode_eq] at h
  have hcut := cut_scan none s
  unfold segments at h
  generalize scan none s = segs at h hcut
  cases hcut with
  | nil => exact absurd h (not_leadsInclude_of_blank blank_nil)
  | @code _ code rest segs _ _ hstop hrest =>
    have hmark := hrest.sameMark keepsCode_replaceSymbols hstop
    refine leadsInclude_replaceSymbolsInCode ⟨hmark.head, fun c hc => ?_⟩ h
    obtain ⟨r, rfl⟩ := head?_eq_some_iff.mp hc
    rcases hstop with hstop | hstop
    · cases hstop
    · obtain ⟨p, hp⟩ := Option.isSome_iff_exists.mp hstop
      exact head_of_opening? hp
  | @mark _ c r k n segs hopen _ =>
    have hmark : ∀ c ∈ ("/R\"'" : Text), isBlank c = false ∧ c ≠ '#' := by decide
    have hc := hmark c (head_of_opening? hopen)
    rw [map_cons, respell_mark _ hopen] at h
    exact absurd h (not_leadsInclude_of_head hc.1 hc.2 _)

/-! ## 6. The program below -/

theorem isPreamble_eq_false : isPreamble line = false ↔ ¬ Blank line ∧ ¬ LeadsInclude line := by
  unfold isPreamble LeadsInclude startsWith
  rw [Bool.or_eq_false_iff, ← isAllBlank_iff, ← isPrefixOf_iff_prefix, Bool.not_eq_true, Bool.not_eq_true]

theorem unlines_dropWhile {parts : List Text} (h : ¬ LeadsInclude (unlines parts)) :
    trim (unlines (parts.dropWhile isPreamble)) = trim (unlines parts) ∧
      ∀ word, IsWord word → (Mentions (unlines (parts.dropWhile isPreamble)) word ↔ Mentions (unlines parts) word) := by
  induction parts with
  | nil => exact ⟨rfl, fun _ _ => Iff.rfl⟩
  | cons line parts ih =>
    cases hp : isPreamble line with
    | false =>
      rw [dropWhile_cons_of_neg (by simp [hp])]
      exact ⟨rfl, fun _ _ => Iff.rfl⟩
    | true =>
      obtain ⟨below, hbelow⟩ : ∃ below, unlines (line :: parts) = line ++ below := by
        cases parts with
        | nil => exact ⟨[], by rw [unlines_singleton, append_nil]⟩
        | cons next parts => exact ⟨_, unlines_cons_cons line next parts⟩
      have hline : Blank line := by
        refine Classical.byContradiction fun hb => ?_
        have hlead : ¬ LeadsInclude line := fun hl => h (hbelow ▸ hl.append below)
        rw [isPreamble_eq_false.mpr ⟨hb, hlead⟩] at hp
        cases hp
      rw [dropWhile_cons_of_pos hp]
      cases parts with
      | nil =>
        rw [unlines_singleton]
        exact ⟨(trim_of_blank hline).symm, fun word hw =>
          iff_of_false (not_mentions_of_blank hw blank_nil) (not_mentions_of_blank hw hline)⟩
      | cons next parts =>
        have hblank : Blank (line ++ ['\n']) := fun c hc => (mem_append.mp hc).elim (hline c)
          (isAllBlank_iff.mp rfl c)
        have hsplit : unlines (line :: next :: parts) = line ++ ['\n'] ++ unlines (next :: parts) := by
          rw [unlines_cons_cons, append_assoc]
          rfl
        rw [hsplit, leadsInclude_of_blank_append hblank] at h
        obtain ⟨htrim, hmentions⟩ := ih h
        refine ⟨?_, fun word hw => (hmentions word hw).trans ?_⟩
        · rw [htrim, hsplit, trim_blank_append hblank]
        · rw [unlines_cons_cons, mentions_append hw (complete_of_blank hline)]
          exact (or_iff_right (not_mentions_of_blank hw hline)).symm

section

variable {s : Text} (hr : '\r' ∉ s)

include hr

theorem programBody_of_not_leadsInclude (h : ¬ LeadsInclude s) :
    trim (programBody s) = trim s ∧ ∀ word, IsWord word → (Mentions (programBody s) word ↔ Mentions s word) := by
  have hlines : ¬ LeadsInclude (unlines (lines s)) := by
    rcases eq_unlines_lines hr with he | he
    · exact he ▸ h
    · exact fun hl => h (he ▸ hl.append ['\n'])
  obtain ⟨htrim, hmentions⟩ := unlines_dropWhile hlines
  rcases eq_unlines_lines hr with he | he
  · rw [← he] at htrim hmentions
    exact ⟨htrim, hmentions⟩
  · have hblank : Blank ['\n'] := isAllBlank_iff.mp rfl
    refine ⟨htrim.trans ?_, fun word hw => (hmentions word hw).trans ?_⟩
    · have := trim_append_blank hblank (unlines (lines s))
      rw [← he] at this
      exact this.symm
    · have := mentions_concat_newline hw (unlines (lines s))
      rw [← he] at this
      exact this.symm

theorem eq_programBody_append {c : Char} (hhead : s.head? = some c) (hblank : isBlank c = false) (hc : c ≠ '#') :
    s = programBody s ∨ s = programBody s ++ ['\n'] := by
  have hbody : programBody s = unlines (lines s) := by
    unfold programBody
    cases hl : lines s with
    | nil => rfl
    | cons line rest =>
      suffices hline : isPreamble line = false by
        rw [dropWhile_cons_of_neg (by simp [hline])]
      cases line with
      | cons d line =>
        obtain ⟨t, ht⟩ := prefix_of_head_lines (by rw [hl]; rfl)
        rw [← ht] at hhead
        obtain rfl : d = c := Option.some.inj hhead
        refine isPreamble_eq_false.mpr ⟨fun hb => ?_, not_leadsInclude_of_head hblank hc line⟩
        rw [hb d mem_cons_self] at hblank
        cases hblank
      | nil =>
        -- an empty first line would start the program with a newline, if with anything
        have hnewline : s.head? = none ∨ s.head? = some '\n' := by
          have he := eq_unlines_lines hr
          rw [hl] at he
          cases rest with
          | nil =>
            rw [unlines_singleton] at he
            rcases he with he | he
            · exact .inl (by rw [he]; rfl)
            · exact .inr (by rw [he]; rfl)
          | cons next rest =>
            rw [unlines_cons_cons] at he
            rcases he with he | he <;> exact .inr (by rw [he]; rfl)
        rw [hhead] at hnewline
        rcases hnewline with hn | hn
        · cases hn
        · rw [Option.some.inj hn] at hblank
          cases hblank
  rw [hbody]
  exact eq_unlines_lines hr

end

end Linewise
