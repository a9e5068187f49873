/-
  The program around a comment at the end of a line.

  With a comment in it that stands behind code, the text after each pass over the program is a front,
  the comment and a back, and neither depends on what the comment says.
-/
import Linewise.Proofs.Sheltered

namespace Linewise

open Text Segment List

variable {a k k' l p u v : Text} {f : Text → Text}

attribute [local irreducible] settlePath replaceSymbolsInCode

/-! ## 1. Fronts -/

/-- To the code of the whole, a comment behind the text is one space. -/
def Hides (a : Text) : Prop :=
  ∀ k b, IsComment k → LineEnd b → codeText (a ++ (k ++ b)) = codeText a ++ ' ' :: codeText b

theorem Ready.hides (h : Ready a) : Hides a := fun _ _ hk hb => codeText_comment h.code h.blank hk hb

theorem Hides.below (hp : Complete p) (h : Hides a) : Hides (p ++ '\n' :: a) := by
  intro k b hk hb
  rw [append_assoc, cons_append, hp, h k b hk hb, hp, append_assoc]
  rfl

theorem codeText_blank_append (hv : Blank v) (s : Text) : codeText (v ++ s) = v ++ codeText s := by
  have hfrom (before : Option Char) (hb : SameSide before none) :
      codeFrom before 0 (v ++ s) = v ++ codeFrom none 0 s := by
    induction v generalizing before with
    | nil => exact codeFrom_congr hb s
    | cons c v ih =>
      have hc := hv c mem_cons_self
      have hside : SameSide (some c) none := by
        refine Bool.eq_false_iff.mpr fun hw => ?_
        rw [not_isBlank_of_isWordChar hw] at hc
        cases hc
      rw [cons_append, codeFrom, opening?_of_not_mem (not_mark_of_isBlank hc)]
      exact congrArg (c :: ·) (ih (forall_mem_cons.mp hv).2 (some c) hside)
  rw [codeText_eq, codeText_eq]
  exact hfrom none rfl

theorem Hides.of_blank_append (hv : Blank v) (h : Hides (v ++ a)) : Hides a := by
  intro k b hk hb
  have := h k b hk hb
  rw [append_assoc, codeText_blank_append hv, codeText_blank_append hv, append_assoc] at this
  exact append_cancel_left this

/-- **What stands in front of a comment in a program** hides it from the passes and stays, blank
    lines apart. -/
structure Front (a : Text) : Prop where
  hides : Hides a
  noReturn : '\r' ∉ a
  noInclude : ¬ LeadsInclude a

/-- The same texts around every comment. -/
def Around (f : Text → Text) : Prop :=
  ∃ a b, Front a ∧ LineEnd b ∧ ∀ k, IsComment k → f k = a ++ (k ++ b)

theorem Around.codeText_eq (h : Around f) (hk : IsComment k) (hk' : IsComment k') :
    codeText (f k) = codeText (f k') := by
  obtain ⟨a, b, ha, hb, hf⟩ := h
  rw [hf k hk, hf k' hk', ha.hides k b hk hb, ha.hides k' b hk' hb]

/-! ## 2. Settled lines and their helpers -/

/-- What comes behind a line: nothing, or the end of the line and more lines. -/
def linesBelow : List Text → Text
  | [] => []
  | l :: ls => '\n' :: unlines (l :: ls)

theorem lineEnd_linesBelow (ls : List Text) : LineEnd (linesBelow ls) := by
  cases ls with
  | nil => exact .inl rfl
  | cons l ls => exact .inr rfl

theorem unlines_cons (l : Text) (ls : List Text) : unlines (l :: ls) = l ++ linesBelow ls := by
  cases ls with
  | nil => rw [unlines_singleton, linesBelow, append_nil]
  | cons m ls => rw [unlines_cons_cons, linesBelow]

theorem unlines_comment (pre : List Text) (u k : Text) (post : List Text) :
    unlines (pre ++ (u ++ k) :: post) = unlines (pre ++ [u]) ++ (k ++ linesBelow post) := by
  have hline : unlines ((u ++ k) :: post) = u ++ (k ++ linesBelow post) := by
    rw [unlines_cons, append_assoc]
  by_cases hpre : pre = []
  · rw [hpre, nil_append, nil_append, hline, unlines_singleton]
  · rw [unlines_append hpre (cons_ne_nil _ _), unlines_append hpre (cons_ne_nil _ _), hline,
      unlines_singleton, append_assoc]
    rfl

/-- **The lines in front of a comment** leave nothing open, hold no carriage return and lead with no
    include. -/
structure Sheltered (a : Text) : Prop where
  code : EndsInCode (segments a)
  noReturn : '\r' ∉ a
  noInclude : ¬ LeadsInclude a

theorem blankEnd_unlines (hu : BlankEnd u) (pre : List Text) : BlankEnd (unlines (pre ++ [u])) := by
  by_cases hpre : pre = []
  · rw [hpre, nil_append, unlines_singleton]
    exact hu
  · rw [unlines_append hpre (cons_ne_nil _ _), unlines_singleton]
    refine BlankEnd.append ?_ (cons_ne_nil _ _) _
    by_cases hne : u = []
    · subst hne
      exact fun c hc => Option.some.inj hc ▸ rfl
    · exact hu.append hne ['\n']

theorem Front.below (hp : Complete p) (hr : '\r' ∉ p) (hhead : ∃ c r, p = c :: r ∧ isBlank c = false ∧ c ≠ '#')
    (ha : Hides a) (hra : '\r' ∉ a) :
    Front (p ++ '\n' :: a) where
  hides := ha.below hp
  noReturn := not_mem_append hr (not_mem_cons_of_ne_of_not_mem (by decide) hra)
  noInclude := by
    obtain ⟨c, r, rfl, hblank, hc⟩ := hhead
    exact not_leadsInclude_of_head hblank hc _

theorem Front.definitions (h : Front a) {hs : List Helper} (hfits : ∀ g ∈ hs, g.Fits) :
    Front (definitions hs ++ a) := by
  induction hs with
  | nil => exact h
  | cons g hs ih =>
    have hg := hfits g mem_cons_self
    have hsplit : Linewise.definitions (g :: hs) ++ a = (g.body ++ '\n' :: []) ++ '\n' :: (Linewise.definitions hs ++ a) := by
      simp [Linewise.definitions]
    have hbelow := ih (forall_mem_cons.mp hfits).2
    rw [hsplit]
    refine Front.below (hg.complete.append (complete_of_blank blank_nil)) ?_ ?_ hbelow.hides hbelow.noReturn
    · exact fun hm => (mem_append.mp hm).elim hg.noReturn (by decide)
    · obtain ⟨c, r, hbody, hc⟩ := hg.head
      exact ⟨c, r ++ ['\n'], by rw [hbody]; rfl, hc⟩

/-- The line that makes suffixes known, if there are any. -/
def suffixLine (suffixed : Bool) : Text := if suffixed then "using namespace std::string_literals;\n\n" else []

theorem front_suffixLine (ha : Hides a) (hr : '\r' ∉ a) : Front (suffixLine true ++ a) := by
  have hsplit : suffixLine true = "using namespace std::string_literals;\n" ++ ['\n'] := rfl
  rw [hsplit, append_assoc, singleton_append]
  exact Front.below (complete_of_closes (by decide +kernel)) (by decide) ⟨'u', _, rfl, rfl, by decide⟩ ha hr

theorem around_settle {pre : List Text} (h : Sheltered (unlines (pre ++ [u]))) (hu : BlankEnd u)
    (post : List Text) : Around fun k => settle (pre ++ (u ++ k) :: post) := by
  have hready : Ready (unlines (pre ++ [u])) := ⟨h.code, blankEnd_unlines hu pre⟩
  have hbelow := lineEnd_linesBelow post
  generalize ha : unlines (pre ++ [u]) = a at h hready
  generalize hb : linesBelow post = b at hbelow
  have hhides : Hides (replaceSymbols (suffixStrings a).1) := hready.suffixStrings.replaceSymbols.hides
  have hreturn : '\r' ∉ replaceSymbols (suffixStrings a).1 := by
    intro hr
    rcases mem_replaceSymbols hr with hr | hr
    · rcases mem_suffixed hr with hr | hr
      · cases hr
      · rw [texts_segments] at hr
        exact h.noReturn hr
    · cases hr
  refine ⟨suffixLine ((suffixStrings a).2 || (suffixStrings b).2) ++ replaceSymbols (suffixStrings a).1,
    replaceSymbols (suffixStrings b).1, ?_, hbelow.suffixStrings.replaceSymbols, fun k hk => ?_⟩
  · cases hany : (suffixStrings a).2 || (suffixStrings b).2 with
    | true => exact front_suffixLine hhides hreturn
    | false =>
      have htext : (suffixStrings a).1 = a :=
        (suffixed_eq (Bool.or_eq_false_iff.mp hany).1).trans (texts_segments a)
      refine ⟨hhides, hreturn, fun hlead => h.noInclude ?_⟩
      have := leadsInclude_of_replaceSymbols hlead
      rwa [htext] at this
  · obtain ⟨htext, hany⟩ := suffixStrings_comment hready hk hbelow
    dsimp only
    rw [settle_eq, unlines_comment, ha, hb, htext, hany,
      replaceSymbols_comment hready.suffixStrings hk hbelow.suffixStrings, append_assoc]
    rfl

theorem Around.addHelpers (h : Around f) (flags : ProgramFlags) :
    Around fun k => addHelpers (f k) (flags.needsFullFormatter (f k)) := by
  have hfull {k : Text} (hk : IsComment k) : flags.needsFullFormatter (f k) = flags.needsFullFormatter (f "//") := by
    unfold ProgramFlags.needsFullFormatter usesContainers
    rw [h.codeText_eq hk isComment_slashes]
  have hchosen {k : Text} (hk : IsComment k) (full : Bool) : chosenHelpers (f k) full = chosenHelpers (f "//") full := by
    unfold chosenHelpers wantedHelpers
    rw [h.codeText_eq hk isComment_slashes]
  obtain ⟨a, b, ha, hb, hf⟩ := h
  refine ⟨definitions (chosenHelpers (f "//") (flags.needsFullFormatter (f "//"))) ++ a, b,
    ha.definitions fun g hg => fits_of_chosen hg, hb, fun k hk => ?_⟩
  dsimp only
  rw [addHelpers_eq, hfull hk, hchosen hk, hf k hk, append_assoc]

/-! ## 3. The program below its includes -/

theorem LeadsInclude.of_comment (hk : IsComment k) (h : LeadsInclude (l ++ k)) : LeadsInclude l := by
  obtain ⟨t, rfl⟩ := hk.slashes
  by_cases hl : Blank l
  · exact absurd ((leadsInclude_of_blank_append hl _).mp h) (not_leadsInclude_of_head rfl (by decide) _)
  · unfold LeadsInclude at h ⊢
    rw [trimStart_append_of_not_blank hl] at h
    exact prefix_of_append_cons (by decide) h

theorem dropWhile_isPreamble_comment {ps : List Text} (h : ¬ LeadsInclude (unlines (ps ++ [l]))) :
    (∃ v, Blank v ∧ unlines (ps ++ [l]) = v ++ unlines (ps.dropWhile isPreamble ++ [l])) ∧
      ∀ k rest, IsComment k →
        (ps ++ (l ++ k) :: rest).dropWhile isPreamble = ps.dropWhile isPreamble ++ (l ++ k) :: rest := by
  induction ps with
  | nil =>
    refine ⟨⟨[], blank_nil, rfl⟩, fun k rest hk => ?_⟩
    rw [nil_append, unlines_singleton] at h
    have hline : isPreamble (l ++ k) = false := by
      refine isPreamble_eq_false.mpr ⟨fun hb => ?_, fun hlead => h (hlead.of_comment hk)⟩
      obtain ⟨t, rfl⟩ := hk.slashes
      exact absurd (hb '/' (mem_append_right l mem_cons_self)) (by decide)
    exact dropWhile_cons_of_neg (by rw [hline]; exact Bool.false_ne_true)
  | cons p ps ih =>
    have hsplit : unlines (p :: ps ++ [l]) = p ++ ['\n'] ++ unlines (ps ++ [l]) := by
      have := unlines_append (cons_ne_nil p []) (append_cons_ne_nil ps (a := l) (t := []))
      rw [unlines_singleton] at this
      rw [append_assoc]
      exact this
    cases hp : isPreamble p with
    | false =>
      have hstop : ¬ isPreamble p = true := by rw [hp]; exact Bool.false_ne_true
      refine ⟨⟨[], blank_nil, ?_⟩, fun k rest hk => ?_⟩
      · rw [dropWhile_cons_of_neg hstop]
        rfl
      · rw [cons_append, dropWhile_cons_of_neg hstop, dropWhile_cons_of_neg hstop, cons_append]
    | true =>
      have hblank : Blank (p ++ ['\n']) := by
        have hline : Blank p := by
          refine Classical.byContradiction fun hb => ?_
          have hlead : ¬ LeadsInclude p := by
            intro hl
            rw [hsplit, append_assoc] at h
            exact h (hl.append _)
          rw [isPreamble_eq_false.mpr ⟨hb, hlead⟩] at hp
          cases hp
        exact forall_mem_append.mpr ⟨hline, isAllBlank_iff.mp rfl⟩
      rw [hsplit, leadsInclude_of_blank_append hblank] at h
      obtain ⟨⟨v, hv, hrest⟩, hdrop⟩ := ih h
      refine ⟨⟨p ++ ['\n'] ++ v, ?_, ?_⟩, fun k rest hk => ?_⟩
      · exact forall_mem_append.mpr ⟨hblank, hv⟩
      · rw [hsplit, dropWhile_cons_of_pos hp, hrest, append_assoc (p ++ ['\n'])]
      · rw [cons_append, dropWhile_cons_of_pos hp, dropWhile_cons_of_pos hp, hdrop k rest hk]

theorem exists_lines_comment {b : Text} (hr : '\r' ∉ a) (hb : LineEnd b) :
    ∃ ps l rest, unlines (ps ++ [l]) = a ∧ ∀ k, IsComment k → lines (a ++ (k ++ b)) = ps ++ (l ++ k) :: rest := by
  obtain ⟨ps, l, hfront⟩ := exists_pieces_concat (· == '\n') a
  obtain ⟨qs, hqs⟩ : ∃ qs, ∀ k, IsComment k → pieces (· == '\n') (k ++ b) = k :: qs := by
    have hone {k : Text} (hk : IsComment k) : pieces (· == '\n') k = [k] := pieces_of_not_mem hk.newline
    rcases hb with rfl | hb
    · exact ⟨[], fun k hk => by rw [append_nil, hone hk]⟩
    · obtain ⟨t, rfl⟩ := head?_eq_some_iff.mp hb
      exact ⟨pieces (· == '\n') t, fun k hk => by rw [pieces_append (by rfl), hone hk]; rfl⟩
  refine ⟨ps, l, linesOfPieces qs, by rw [← hfront, unlines_pieces], fun k hk => ?_⟩
  have hchomp : ps.map chomp = ps :=
    map_chomp_eq_self fun p hp hm => hr (mem_of_mem_pieces (hfront ▸ mem_append_left _ hp) hm)
  obtain ⟨v, c, rfl, hc⟩ := hk.exists_concat
  have hline : chomp (l ++ (v ++ [c])) = l ++ (v ++ [c]) := by
    rw [← append_assoc]
    exact chomp_concat (fun e => absurd (e ▸ hc) (by decide)) _
  unfold lines
  rw [pieces_append_eq hfront (hqs _ hk), linesOfPieces_front _ (cons_ne_nil _ _), hchomp]
  cases qs with
  | nil =>
    show ps ++ (if (l ++ (v ++ [c])).isEmpty then [] else [l ++ (v ++ [c])]) = _
    rw [if_neg (by simp)]
    rfl
  | cons q qs => rw [linesOfPieces, hline]

theorem Around.programBody (h : Around f) : Around fun k => programBody (f k) := by
  obtain ⟨a, b, ha, hb, hf⟩ := h
  obtain ⟨ps, l, rest, hfront, hlines⟩ := exists_lines_comment ha.noReturn hb
  have hlead := ha.noInclude
  rw [← hfront] at hlead
  obtain ⟨⟨v, hv, hsplit⟩, hdrop⟩ := dropWhile_isPreamble_comment hlead
  have hbelow : a = v ++ unlines (ps.dropWhile isPreamble ++ [l]) := hfront.symm.trans hsplit
  refine ⟨unlines (ps.dropWhile isPreamble ++ [l]), linesBelow rest, ?_, lineEnd_linesBelow rest, fun k hk => ?_⟩
  · rw [hbelow] at ha
    exact ⟨ha.hides.of_blank_append hv, fun hr => ha.noReturn (mem_append_right v hr),
      fun hl => ha.noInclude ((leadsInclude_of_blank_append hv _).mpr hl)⟩
  · dsimp only
    unfold Linewise.programBody
    rw [hf k hk, hlines k hk, hdrop k rest hk, unlines_comment]

/-! ## 4. The program -/

theorem endsWith_comment (hk : IsComment k) (a b : Text) : endsWith (a ++ (k ++ b)) "\n" = endsWith b "\n" := by
  rcases eq_nil_or_concat' b with rfl | ⟨b, d, rfl⟩
  · obtain ⟨v, c, rfl, hc⟩ := hk.exists_concat
    rw [append_nil, ← append_assoc]
    exact endsWith_concat_of_ne (a ++ v) fun e => absurd (e ▸ hc) (by decide)
  · rw [← append_assoc, ← append_assoc]
    by_cases hd : d = '\n'
    · subst hd
      exact (endsWith_append _ _).trans (endsWith_append _ _).symm
    · exact (endsWith_concat_of_ne _ hd).trans (endsWith_concat_of_ne _ hd).symm

theorem Around.requiredHeaders_eq (h : Around f) (hk : IsComment k) (hk' : IsComment k') :
    requiredHeaders (f k) = requiredHeaders (f k') := by
  refine requiredHeaders_congr fun entry _ symbol _ => ?_
  unfold Mentions
  rw [h.codeText_eq hk hk']

/-- The program around a comment does not depend on it. -/
theorem finish_comment {pre : List Text} (h : Sheltered (unlines (pre ++ [u]))) (hu : BlankEnd u)
    (post : List Text) (flags : ProgramFlags) :
    ∃ x y, ∀ k, IsComment k → finish (pre ++ (u ++ k) :: post) flags = x ++ (k ++ y) := by
  have hbody := ((around_settle h hu post).addHelpers flags).programBody
  have hheaders {k : Text} (hk : IsComment k) := hbody.requiredHeaders_eq hk isComment_slashes
  obtain ⟨a, b, _, _, hf⟩ := hbody
  dsimp only at hf hheaders
  generalize requiredHeaders _ = headers at hheaders
  refine ⟨includeBlock headers ++ a, b ++ (if endsWith b "\n" then [] else "\n"), fun k hk => ?_⟩
  unfold finish
  dsimp only
  rw [addIncludes_eq, hheaders hk, hf k hk, ← append_assoc, endsWith_comment hk]
  split
  · rw [append_nil]
  · rw [append_assoc, append_assoc k b]

end Linewise
