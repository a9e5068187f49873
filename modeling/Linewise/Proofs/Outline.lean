/-
  The outline of a finished program does not depend on how its lines are indented.

  The outline is the lines without the white space in front, up to the last that is not empty. Every
  pass takes lines that differ in their margins to lines that differ in their margins.
-/
import Linewise.Proofs.Margin
import Linewise.Proofs.SelfContained

namespace Linewise

open Text List

variable {s s' word : Text} {segs segs' : List Segment} {output output' : List Text}

/-! ## 1. One more blank -/

/-- The text with one more blank in front of one of its lines. -/
inductive Indented (w : Char) : Text → Text → Prop where
  | first (s : Text) : Indented w s (w :: s)
  | later (a b : Text) : Indented w (a ++ '\n' :: b) (a ++ '\n' :: w :: b)

theorem Indented.below {w : Char} (h : Indented w s s') (p : Text) :
    Indented w (p ++ '\n' :: s) (p ++ '\n' :: s') := by
  cases h with
  | first s => exact .later p s
  | later a b =>
    have := Indented.later (w := w) (p ++ '\n' :: a) b
    rw [append_assoc, append_assoc] at this
    exact this

theorem Indented.append {w : Char} {p : Text} (h : Indented w s s') (hp : p = [] ∨ ∃ q, p = q ++ ['\n']) :
    Indented w (p ++ s) (p ++ s') := by
  rcases hp with rfl | ⟨q, rfl⟩
  · exact h
  · rw [append_assoc, append_assoc]
    exact h.below q

section

variable {w : Char} (hw : isMargin w = true)

include hw

theorem trimStart_margin (s : Text) : trimStart (w :: s) = trimStart s :=
  dropWhile_cons_of_pos (isBlank_of_isMargin hw)

theorem pieces_margin_cons (s : Text) :
    ∃ p ps, pieces (· == '\n') s = p :: ps ∧ pieces (· == '\n') (w :: s) = (w :: p) :: ps :=
  pieces_append_of_not_mem (a := [w]) (by simpa using (ne_newline_of_isMargin hw).symm) s

theorem ne_return_of_isMargin : w ≠ '\r' := isMargin_elim (p := (· ≠ '\r')) (by decide) (by decide) hw

/-! ## 2. Suffixes -/

namespace Segment

theorem trim_lastPiece_margin (y : Text) (d d' : Text) :
    trim ((pieces (· == '\n') (w :: y)).getLast?.getD d) = trim ((pieces (· == '\n') y).getLast?.getD d') := by
  obtain ⟨p, ps, hp, hwp⟩ := pieces_margin_cons hw y
  rw [hp, hwp, getLast?_cons, getLast?_cons]
  cases ps.getLast? with
  | none =>
    show trim (w :: p) = trim p
    unfold trim
    rw [trimStart_margin hw]
  | some q => rfl

theorem endsInAutoInit_margin_cons (y : Text) : endsInAutoInit (w :: y) = endsInAutoInit y := by
  unfold endsInAutoInit
  rw [trim_lastPiece_margin hw y (w :: y) y]

omit hw in
theorem endsInAutoInit_newline (x y : Text) : endsInAutoInit (x ++ '\n' :: y) = endsInAutoInit y := by
  obtain ⟨p, ps, hp⟩ := exists_pieces (· == '\n') y
  have hlast : (pieces (· == '\n') (x ++ '\n' :: y)).getLast?.getD (x ++ '\n' :: y)
      = (pieces (· == '\n') y).getLast?.getD y := by
    rw [pieces_append (by rfl), getLast?_append, hp, getLast?_cons]
    rfl
  unfold endsInAutoInit
  rw [hlast]

theorem startsWith_trimStart_margin {head : Text} (hn : '\n' ∉ head) (x y : Text) :
    startsWith (trimStart (x ++ '\n' :: w :: y)) head = startsWith (trimStart (x ++ '\n' :: y)) head := by
  by_cases hx : Blank x
  · have hnewline : ∀ t, trimStart (x ++ '\n' :: t) = trimStart t := fun t => by
      rw [trimStart_append_of_blank hx]
      exact dropWhile_cons_of_pos rfl
    rw [hnewline, hnewline, trimStart_margin hw]
  · rw [trimStart_append_of_not_blank hx, trimStart_append_of_not_blank hx, startsWith_append_cons hn,
      startsWith_append_cons hn]

/-- Two segments that mean the same to the literals beside them. -/
structure SameRole (seg seg' : Segment) : Prop where
  string : seg.isString = seg'.isString
  before : ∀ next after, needsSuffix (some seg) next after = needsSuffix (some seg') next after
  after : ∀ before prev, needsSuffix before prev (some seg) = needsSuffix before prev (some seg')

theorem isString_margin (k : SegmentKind) (x y : Text) :
    isString ⟨k, x ++ '\n' :: y⟩ = isString ⟨k, x ++ '\n' :: w :: y⟩ := by
  have hstart : startsWith (x ++ '\n' :: y) "'" = startsWith (x ++ '\n' :: w :: y) "'" := by
    rw [startsWith_append_cons (by decide), startsWith_append_cons (by decide)]
  have hend : endsWith (x ++ '\n' :: y) "\"" = endsWith (x ++ '\n' :: w :: y) "\"" := by
    have hq : w ≠ '"' := isMargin_elim (p := (· ≠ '"')) (by decide) (by decide) hw
    rw [show "\"" = ['"'] from rfl, endsWith_singleton, endsWith_singleton, getLast?_append_cons,
      getLast?_append_cons, getLast?_cons]
    cases y.getLast? with
    | none => simp [hq]
    | some c => rfl
  unfold isString
  rw [hstart, hend]

theorem sameRole_margin (k : SegmentKind) (x y : Text) :
    SameRole ⟨k, x ++ '\n' :: y⟩ ⟨k, x ++ '\n' :: w :: y⟩ where
  string := isString_margin hw k x y
  before next after := by
    cases k with
    | code =>
      unfold needsSuffix codeOf
      rw [endsInAutoInit_newline, endsInAutoInit_newline, endsInAutoInit_margin_cons hw]
    | literal => rfl
    | comment => rfl
  after before prev := by
    cases k with
    | code =>
      have hhead : ∀ head ∈ [("+" : Text), "++", "+=", ";"], '\n' ∉ head := by decide
      unfold needsSuffix codeOf
      dsimp only
      rw [startsWith_trimStart_margin hw (hhead "+" (by simp)), startsWith_trimStart_margin hw (hhead "++" (by simp)),
        startsWith_trimStart_margin hw (hhead "+=" (by simp)), startsWith_trimStart_margin hw (hhead ";" (by simp))]
    | literal => rfl
    | comment => rfl

omit hw in
theorem suffixed_congr {b b' : Option Segment} (h : ∀ next after, needsSuffix b next after = needsSuffix b' next after)
    (segs : List Segment) : suffixed b segs = suffixed b' segs ∧ anySuffixed b segs = anySuffixed b' segs := by
  cases segs with
  | nil => exact ⟨rfl, rfl⟩
  | cons seg segs => rw [suffixed, suffixed, anySuffixed, anySuffixed, h]; exact ⟨rfl, rfl⟩

theorem Widened.needsSuffix_head (h : Widened w segs segs') (before : Option Segment) (prev : Segment) :
    needsSuffix before prev segs.head? = needsSuffix before prev segs'.head? := by
  cases h with
  | here k x y segs => exact (sameRole_margin hw k x y).after before prev
  | there seg h => rfl

theorem Widened.suffixed_eq (h : Widened w segs segs') (before : Option Segment) :
    (∃ a b, suffixed before segs = a ++ '\n' :: b ∧ suffixed before segs' = a ++ '\n' :: w :: b)
      ∧ anySuffixed before segs' = anySuffixed before segs := by
  induction h generalizing before with
  | here k x y segs =>
    have hrole := sameRole_margin hw k x y
    have hself : needsSuffix before ⟨k, x ++ '\n' :: w :: y⟩ segs.head?
        = needsSuffix before ⟨k, x ++ '\n' :: y⟩ segs.head? := by
      unfold needsSuffix
      rw [hrole.string]
    obtain ⟨hrest, hany⟩ := suffixed_congr hrole.before segs
    rw [suffixed, suffixed, anySuffixed, anySuffixed, hself, ← hrest, ← hany]
    refine ⟨⟨x, y ++ (if needsSuffix before ⟨k, x ++ '\n' :: y⟩ segs.head? then ['s'] else [])
      ++ suffixed (some ⟨k, x ++ '\n' :: y⟩) segs, ?_, ?_⟩, rfl⟩
    · simp
    · simp
  | there seg h ih =>
    obtain ⟨⟨a, b, ha, hb⟩, hany⟩ := ih (some seg)
    rw [suffixed, suffixed, anySuffixed, anySuffixed, h.needsSuffix_head hw, ha, hb, hany]
    exact ⟨⟨_, b, (append_assoc _ a _).symm, (append_assoc _ a _).symm⟩, rfl⟩

theorem suffixed_onCode (segs : List Segment) :
    suffixed none (onCode w segs) = w :: suffixed none segs
      ∧ anySuffixed none (onCode w segs) = anySuffixed none segs := by
  have hcode (y : Text) (next : Option Segment) : needsSuffix none ⟨.code, y⟩ next = false := rfl
  -- a blank of its own in front of the first literal
  have hfront (seg : Segment) (segs : List Segment) :
      suffixed none (⟨.code, [w]⟩ :: seg :: segs) = w :: suffixed none (seg :: segs)
        ∧ anySuffixed none (⟨.code, [w]⟩ :: seg :: segs) = anySuffixed none (seg :: segs) := by
    have hnone : ∀ next after, needsSuffix (some ⟨.code, [w]⟩) next after = needsSuffix none next after := by
      intro next after
      unfold needsSuffix codeOf
      rw [endsInAutoInit_margin_cons hw []]
    obtain ⟨hrest, hany⟩ := suffixed_congr hnone (seg :: segs)
    rw [suffixed, hcode, hrest, anySuffixed, hcode, hany]
    exact ⟨rfl, rfl⟩
  cases segs with
  | nil => exact ⟨rfl, rfl⟩
  | cons first segs =>
    obtain ⟨kind, t⟩ := first
    cases kind with
    | literal => exact hfront ⟨.literal, t⟩ segs
    | comment => exact hfront ⟨.comment, t⟩ segs
    | code =>
      have hsame : ∀ next after,
          needsSuffix (some ⟨.code, w :: t⟩) next after = needsSuffix (some ⟨.code, t⟩) next after := by
        intro next after
        unfold needsSuffix codeOf
        rw [endsInAutoInit_margin_cons hw t]
      obtain ⟨hrest, hany⟩ := suffixed_congr hsame segs
      show suffixed none (⟨.code, w :: t⟩ :: segs) = _ ∧ anySuffixed none (⟨.code, w :: t⟩ :: segs) = _
      rw [suffixed, suffixed, hcode, hcode, hrest, anySuffixed, anySuffixed, hcode, hcode, hany]
      exact ⟨rfl, rfl⟩

end Segment

theorem suffixStrings_indented (h : Indented w s s') :
    Indented w (suffixStrings s).1 (suffixStrings s').1 ∧ (suffixStrings s').2 = (suffixStrings s).2 := by
  cases h with
  | first s =>
    obtain ⟨htext, hany⟩ := Segment.suffixed_onCode hw (segments s)
    unfold suffixStrings
    rw [segments_margin_cons hw, htext, hany]
    exact ⟨.first _, rfl⟩
  | later a b =>
    obtain ⟨⟨x, y, hx, hy⟩, hany⟩ := (segments_margin hw a b).suffixed_eq hw none
    unfold suffixStrings
    rw [hx, hy, hany]
    exact ⟨.later x y, rfl⟩

/-! ## 3. Symbols -/

attribute [local irreducible] settlePath replaceSymbolsInCode

omit hw in
theorem exists_replaceSymbolsInCode {d : Char} (hd : isPathChar d = false) (x : Text) :
    ∃ front, ∀ y, replaceSymbolsInCode (x ++ d :: y) = front ++ d :: replaceSymbolsInCode y := by
  induction x using pathInduction with
  | path u hu => exact ⟨settlePath (some d) u, fun y => replaceSymbolsInCode_step hu hd y⟩
  | step u e v hu he ih =>
    obtain ⟨front, hfront⟩ := ih
    refine ⟨settlePath (some e) u ++ e :: front, fun y => ?_⟩
    rw [append_assoc, cons_append, replaceSymbolsInCode_step hu he, hfront, append_assoc,
      cons_append]

theorem not_path_of_isMargin : isPathChar w = false :=
  isMargin_elim (p := (isPathChar · = false)) rfl rfl hw

namespace Segment

theorem Widened.respelled_eq (h : Widened w segs segs') :
    ∃ a b, texts (segs.map (respell replaceSymbolsInCode)) = a ++ '\n' :: b
      ∧ texts (segs'.map (respell replaceSymbolsInCode)) = a ++ '\n' :: w :: b := by
  induction h with
  | here k x y segs =>
    have hother (hk : k ≠ .code) (t : Text) : respell replaceSymbolsInCode ⟨k, t⟩ = ⟨k, t⟩ :=
      if_neg (by simpa using hk)
    by_cases hk : k = .code
    · subst hk
      obtain ⟨front, hfront⟩ := exists_replaceSymbolsInCode newline_not_path x
      refine ⟨front, replaceSymbolsInCode y ++ texts (segs.map (respell replaceSymbolsInCode)), ?_, ?_⟩
      · show replaceSymbolsInCode (x ++ '\n' :: y) ++ _ = _
        rw [hfront, append_assoc]
        rfl
      · show replaceSymbolsInCode (x ++ '\n' :: w :: y) ++ _ = _
        rw [hfront, replaceSymbolsInCode_cons (not_path_of_isMargin hw), append_assoc]
        rfl
    · refine ⟨x, y ++ texts (segs.map (respell replaceSymbolsInCode)), ?_, ?_⟩
      · rw [map_cons, hother hk]
        exact append_assoc x _ _
      · rw [map_cons, hother hk]
        exact append_assoc x _ _
  | there seg _ ih =>
    obtain ⟨a, b, ha, hb⟩ := ih
    refine ⟨(seg.respell replaceSymbolsInCode).text ++ a, b, ?_, ?_⟩
    · rw [append_assoc, ← ha]
      rfl
    · rw [append_assoc, ← hb]
      rfl

theorem texts_respell_onCode (segs : List Segment) :
    texts ((onCode w segs).map (respell replaceSymbolsInCode))
      = w :: texts (segs.map (respell replaceSymbolsInCode)) := by
  have hcons (t : Text) : replaceSymbolsInCode (w :: t) = w :: replaceSymbolsInCode t :=
    replaceSymbolsInCode_cons (not_path_of_isMargin hw) t
  have hfront (rest : List Segment) : texts ((⟨.code, [w]⟩ :: rest).map (respell replaceSymbolsInCode))
      = w :: texts (rest.map (respell replaceSymbolsInCode)) := by
    show replaceSymbolsInCode [w] ++ _ = _
    rw [hcons, replaceSymbolsInCode_nil]
    rfl
  match segs with
  | [] => exact hfront []
  | ⟨.literal, t⟩ :: rest => exact hfront (⟨.literal, t⟩ :: rest)
  | ⟨.comment, t⟩ :: rest => exact hfront (⟨.comment, t⟩ :: rest)
  | ⟨.code, t⟩ :: rest =>
    show replaceSymbolsInCode (w :: t) ++ _ = _
    rw [hcons]
    rfl

end Segment

theorem replaceSymbols_indented (h : Indented w s s') : Indented w (replaceSymbols s) (replaceSymbols s') := by
  unfold replaceSymbols
  rw [mapCode_eq, mapCode_eq]
  cases h with
  | first s =>
    rw [segments_margin_cons hw, Segment.texts_respell_onCode hw]
    exact .first _
  | later a b =>
    obtain ⟨x, y, hx, hy⟩ := (segments_margin hw a b).respelled_eq hw
    rw [hx, hy]
    exact .later x y

/-! ## 4. Words -/

theorem stands_margin_cons (hword : IsWord word) (s : Text) : Stands word (w :: s) ↔ Stands word s :=
  (stands_append (not_path_of_isMargin hw) hword [] s).trans (or_iff_right (not_stands_nil hword))

namespace Segment

omit hw in
theorem Widened.shown_eq (h : Widened w segs segs') :
    (segs'.map shown).flatten = (segs.map shown).flatten ∨
      ∃ a b, (segs.map shown).flatten = a ++ '\n' :: b ∧ (segs'.map shown).flatten = a ++ '\n' :: w :: b := by
  induction h with
  | here k x y segs =>
    cases k with
    | code =>
      exact .inr ⟨x, y ++ (segs.map shown).flatten, append_assoc x _ _, append_assoc x _ _⟩
    | literal => exact .inl rfl
    | comment => exact .inl rfl
  | there seg _ ih =>
    rcases ih with ih | ⟨a, b, ha, hb⟩
    · exact .inl (congrArg (seg.shown ++ ·) ih)
    · refine .inr ⟨seg.shown ++ a, b, ?_, ?_⟩
      · rw [append_assoc, ← ha]
        rfl
      · rw [append_assoc, ← hb]
        rfl

end Segment

theorem mentions_indented (hword : IsWord word) (h : Indented w s s') : Mentions s' word ↔ Mentions s word := by
  unfold Mentions
  cases h with
  | first s =>
    have hcode : codeText (w :: s) = w :: codeText s := by
      show ((segments (w :: s)).map Segment.shown).flatten = _
      rw [segments_margin_cons hw]
      exact Segment.shown_onCode w (segments s)
    rw [hcode]
    exact stands_margin_cons hw hword _
  | later a b =>
    rcases (segments_margin hw a b).shown_eq with he | ⟨x, y, hx, hy⟩
    · have hcode : codeText (a ++ '\n' :: w :: b) = codeText (a ++ '\n' :: b) := he
      rw [hcode]
    · have hx : codeText (a ++ '\n' :: b) = x ++ '\n' :: y := hx
      have hy : codeText (a ++ '\n' :: w :: b) = x ++ '\n' :: w :: y := hy
      rw [hx, hy, stands_append newline_not_path hword, stands_append newline_not_path hword,
        stands_margin_cons hw hword]

theorem containsWord_indented (hword : IsWord word) (h : Indented w s s') :
    containsWord (codeText s') word = containsWord (codeText s) word := by
  rw [Bool.eq_iff_iff, ← mentions_iff hword, ← mentions_iff hword]
  exact mentions_indented hw hword h

/-! ## 5. Settled lines and their helpers -/

omit hw in
theorem settle_eq (output : List Text) :
    settle output = (if (suffixStrings (unlines output)).2
        then ("using namespace std::string_literals;\n\n" : Text) else [])
      ++ replaceSymbols (suffixStrings (unlines output)).1 := by
  unfold settle
  dsimp only
  cases (suffixStrings (unlines output)).2 <;> rfl

theorem settle_indented (h : Indented w (unlines output) (unlines output')) :
    Indented w (settle output) (settle output') := by
  obtain ⟨htext, hany⟩ := suffixStrings_indented hw h
  rw [settle_eq, settle_eq, hany]
  refine (replaceSymbols_indented hw htext).append ?_
  cases (suffixStrings (unlines output)).2 with
  | true => exact .inr ⟨"using namespace std::string_literals;\n", rfl⟩
  | false => exact .inl rfl

theorem chosenHelpers_indented (h : Indented w s s') (full : Bool) :
    chosenHelpers s' full = chosenHelpers s full := by
  have hwanted : wantedHelpers s' = wantedHelpers s := by
    refine congrArg (flatMap _) (filter_congr fun g hg => ?_)
    exact containsWord_indented hw (isWord_helperNames g.name (mem_map_of_mem hg)) h
  unfold chosenHelpers
  rw [hwanted]

omit hw in
theorem definitions_concat (hs : List Helper) : definitions hs = [] ∨ ∃ q, definitions hs = q ++ ['\n'] := by
  rcases eq_nil_or_concat' hs with rfl | ⟨gs, g, rfl⟩
  · exact .inl rfl
  · refine .inr ⟨definitions gs ++ (g.body ++ ['\n']), ?_⟩
    unfold definitions
    rw [flatMap_append, append_assoc]
    simp

theorem addHelpers_indented (h : Indented w s s') (flags : ProgramFlags) :
    Indented w (addHelpers s (flags.needsFullFormatter s)) (addHelpers s' (flags.needsFullFormatter s')) := by
  have hwords : ∀ word ∈ [("std::vector" : Text), "std::unordered_map", "std::array"], IsWord word := by decide +kernel
  have huses : usesContainers s' = usesContainers s := by
    unfold usesContainers
    rw [Bool.eq_iff_iff, any_eq_true, any_eq_true]
    refine exists_congr fun word => and_congr_right fun hmem => ?_
    rw [containsWord_indented hw (hwords word hmem) h]
  have hfull : flags.needsFullFormatter s' = flags.needsFullFormatter s := by
    unfold ProgramFlags.needsFullFormatter
    rw [huses]
  rw [addHelpers_eq, addHelpers_eq, hfull, chosenHelpers_indented hw h]
  exact h.append (definitions_concat _)

end

/-! ## 6. Lines -/

/-- The lines of a program without margins, up to the last that is not empty. -/
def outline (s : Text) : List Text := ((lines s).map trimStart).rdropWhile List.isEmpty

/-- The same read off the pieces between newlines. -/
def shape (s : Text) : List Text :=
  ((pieces (· == '\n') s).map fun l => trimStart (chomp l)).rdropWhile List.isEmpty

theorem lines_concat_newline (s : Text) : lines (s ++ ['\n']) = (pieces (· == '\n') s).map chomp := by
  rw [lines_append_newline]
  exact append_nil _

theorem shape_concat_newline (s : Text) : shape (s ++ ['\n']) = shape s := by
  unfold shape
  rw [pieces_append (by rfl), map_append]
  exact rdropWhile_concat_pos _ _ _ rfl

theorem outline_terminated (s : Text) : outline (if endsWith s "\n" then s else s ++ "\n") = shape s := by
  have hterminated (t : Text) : outline (t ++ ['\n']) = shape t := by
    unfold outline shape
    rw [lines_concat_newline, map_map]
    rfl
  by_cases hs : endsWith s "\n" = true
  · obtain ⟨t, rfl⟩ := endsWith_iff.mp hs
    rw [if_pos hs]
    exact (hterminated t).trans (shape_concat_newline t).symm
  · rw [if_neg hs]
    exact hterminated s

theorem unlines_append {pre post : List Text} (hpre : pre ≠ []) (hpost : post ≠ []) :
    unlines (pre ++ post) = unlines pre ++ '\n' :: unlines post :=
  joinWith_append ['\n'] hpre hpost

section

variable {w : Char} (hw : isMargin w = true)

include hw

theorem chomp_margin_cons (l : Text) : chomp (w :: l) = w :: chomp l :=
  chomp_append (ne_return_of_isMargin hw) [] l

theorem shape_indented (h : Indented w s s') : shape s' = shape s := by
  have hfirst (s : Text) : (pieces (· == '\n') (w :: s)).map (fun l => trimStart (chomp l))
      = (pieces (· == '\n') s).map fun l => trimStart (chomp l) := by
    obtain ⟨p, ps, hp, hwp⟩ := pieces_margin_cons hw s
    rw [hp, hwp, map_cons, map_cons, chomp_margin_cons hw, trimStart_margin hw]
  unfold shape
  cases h with
  | first s => rw [hfirst]
  | later a b =>
    rw [pieces_append (by rfl), pieces_append (by rfl), map_append, map_append, hfirst]

theorem lines_indented (h : Indented w s s') :
    (∃ pre l post, lines s = pre ++ l :: post ∧ lines s' = pre ++ (w :: l) :: post)
      ∨ lines s' = lines s ++ [[w]] := by
  have hfirst (s : Text) : (∃ l post, lines s = l :: post ∧ lines (w :: s) = (w :: l) :: post)
      ∨ lines s = [] ∧ lines (w :: s) = [[w]] := by
    by_cases hs : s = []
    · subst hs
      exact .inr ⟨rfl, lines_eq_singleton (cons_ne_nil _ _) (by simpa using (ne_newline_of_isMargin hw).symm)⟩
    · exact .inl (lines_cons (ne_newline_of_isMargin hw) (ne_return_of_isMargin hw) hs)
  cases h with
  | first s =>
    rcases hfirst s with ⟨l, post, hs, hs'⟩ | ⟨hs, hs'⟩
    · exact .inl ⟨[], l, post, hs, hs'⟩
    · refine .inr ?_
      rw [hs, hs']
      rfl
  | later a b =>
    rw [lines_append_newline, lines_append_newline]
    rcases hfirst b with ⟨l, post, hb, hb'⟩ | ⟨hb, hb'⟩
    · refine .inl ⟨(pieces (· == '\n') a).map chomp, l, post, ?_, ?_⟩
      · rw [hb]
      · rw [hb']
    · refine .inr ?_
      rw [hb, hb', append_nil]

omit hw in
theorem unlines_indented (pre : List Text) (l : Text) (post : List Text) :
    Indented w (unlines (pre ++ l :: post)) (unlines (pre ++ (w :: l) :: post)) := by
  have hfirst : unlines ((w :: l) :: post) = w :: unlines (l :: post) := by
    cases post with
    | nil => rw [unlines_singleton, unlines_singleton]
    | cons m post => rw [unlines_cons_cons, unlines_cons_cons, cons_append]
  by_cases hpre : pre = []
  · rw [hpre, nil_append, nil_append, hfirst]
    exact .first _
  · rw [unlines_append hpre (cons_ne_nil _ _), unlines_append hpre (cons_ne_nil _ _), hfirst]
    exact .later _ _

/-! ## 7. Includes -/

theorem isPreamble_margin_cons (l : Text) : isPreamble (w :: l) = isPreamble l := by
  unfold isPreamble isAllBlank
  rw [all_cons, isBlank_of_isMargin hw, Bool.true_and, trimStart_margin hw]

theorem dropWhile_isPreamble_margin (pre : List Text) (l : Text) (post : List Text) :
    (pre ++ (w :: l) :: post).dropWhile isPreamble = (pre ++ l :: post).dropWhile isPreamble ∨
      ∃ rest, (pre ++ l :: post).dropWhile isPreamble = rest ++ l :: post ∧
        (pre ++ (w :: l) :: post).dropWhile isPreamble = rest ++ (w :: l) :: post := by
  induction pre with
  | nil =>
    rw [nil_append, nil_append, dropWhile_cons, dropWhile_cons, isPreamble_margin_cons hw]
    cases isPreamble l with
    | true => exact .inl rfl
    | false => exact .inr ⟨[], rfl, rfl⟩
  | cons p pre ih =>
    rw [cons_append, cons_append, dropWhile_cons, dropWhile_cons]
    cases isPreamble p with
    | true => exact ih
    | false => exact .inr ⟨p :: pre, rfl, rfl⟩

theorem programBody_indented (h : Indented w s s') :
    programBody s' = programBody s ∨ Indented w (programBody s) (programBody s') ∨
      programBody s' = programBody s ++ '\n' :: [w] := by
  unfold programBody
  rcases lines_indented hw h with ⟨pre, l, post, hs, hs'⟩ | hs'
  · rw [hs, hs']
    rcases dropWhile_isPreamble_margin hw pre l post with he | ⟨rest, hr, hr'⟩
    · exact .inl (congrArg unlines he)
    · rw [hr, hr']
      exact .inr (.inl (unlines_indented rest l post))
  · have hpreamble : isPreamble [w] = true := by rw [isPreamble_margin_cons hw]; rfl
    rw [hs', dropWhile_append]
    split
    · rename_i hempty
      rw [isEmpty_iff.mp hempty, dropWhile_cons_of_pos hpreamble]
      exact .inl rfl
    · rename_i hempty
      rw [unlines_append (by simpa using hempty) (cons_ne_nil _ _), unlines_singleton]
      exact .inr (.inr rfl)

omit hw in
theorem includeBlock_concat (headers : List Text) :
    includeBlock headers = [] ∨ ∃ q, includeBlock headers = q ++ ['\n'] := by
  unfold includeBlock
  split
  · exact .inl rfl
  · exact .inr ⟨unlines (headers.map includeLine) ++ ['\n'], by rw [append_assoc]; rfl⟩

theorem requiredHeaders_indented (h : Indented w s s') : requiredHeaders s' = requiredHeaders s :=
  requiredHeaders_congr fun entry hentry symbol hsymbol =>
    mentions_indented hw (isWord_symbol entry hentry symbol hsymbol) h

theorem shape_addIncludes (h : Indented w s s') : shape (addIncludes s') = shape (addIncludes s) := by
  rw [addIncludes_eq, addIncludes_eq]
  rcases programBody_indented hw h with he | hbody | he
  · rw [he]
  · rw [requiredHeaders_indented hw hbody]
    exact shape_indented hw (hbody.append (includeBlock_concat _))
  · have hlast : Indented w (programBody s ++ '\n' :: []) (programBody s') := by
      rw [he]
      exact .later _ _
    have hheaders : requiredHeaders (programBody s ++ ['\n']) = requiredHeaders (programBody s) :=
      requiredHeaders_congr fun entry hentry symbol hsymbol =>
        mentions_concat_newline (isWord_symbol entry hentry symbol hsymbol) _
    rw [requiredHeaders_indented hw hlast, hheaders, shape_indented hw (hlast.append (includeBlock_concat _)),
      ← append_assoc, shape_concat_newline]

/-! ## 8. Programs -/

theorem outline_finish_indented (h : Indented w (unlines output) (unlines output')) (flags : ProgramFlags) :
    outline (finish output' flags) = outline (finish output flags) := by
  unfold finish
  rw [outline_terminated, outline_terminated]
  exact shape_addIncludes hw (addHelpers_indented hw (settle_indented hw h) flags)

end

/-- A line without the spaces and tabs in front of it. -/
def dedent (s : Text) : Text := s.dropWhile isMargin

theorem outline_finish_dedent (pre output : List Text) (flags : ProgramFlags) :
    outline (finish (pre ++ output) flags) = outline (finish (pre ++ output.map dedent) flags) := by
  -- the margin of one line
  have hline (pre : List Text) (l : Text) (post : List Text) :
      outline (finish (pre ++ l :: post) flags) = outline (finish (pre ++ dedent l :: post) flags) := by
    induction l with
    | nil => rfl
    | cons c l ih =>
      unfold dedent
      rw [dropWhile_cons]
      split
      · rename_i hc
        rw [outline_finish_indented hc (unlines_indented pre l post)]
        exact ih
      · rfl
  induction output generalizing pre with
  | nil => rfl
  | cons l output ih =>
    rw [hline]
    have := ih (pre ++ [dedent l])
    rw [append_assoc, append_assoc] at this
    exact this

/-- Lines equal but for margins give one outline. -/
theorem outline_finish (h : output.map dedent = output'.map dedent) (flags : ProgramFlags) :
    outline (finish output flags) = outline (finish output' flags) := by
  have hleft := outline_finish_dedent [] output flags
  have hright := outline_finish_dedent [] output' flags
  rw [nil_append, nil_append] at hleft hright
  rw [hleft, hright, h]

end Linewise
