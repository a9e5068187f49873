/-
  What a comment at the end of a line says.

  The code of a line is told apart from its comment by the code alone, so two sources that differ in
  one such comment go the same way line by line.
-/
import Linewise.Proofs.AroundComment
import Linewise.Proofs.Discipline
import Linewise.Proofs.Indentation

namespace Linewise

open Text List Raw Run

variable {k k' line line' s source source' : Text} {l : Lexer} {o o' : List Text}

/-! ## 1. A line with a comment -/

namespace Raw

/-- The mode of the pass behind a text. -/
def after (m : Mode) (s : Text) : Mode := s.foldl (fun m c => (m.step c).2) m

theorem convertFrom_append (m : Mode) (a b : Text) :
    convertFrom m (a ++ b)
      = ⟨(convertFrom m a).line ++ (convertFrom (after m a) b).line, (convertFrom (after m a) b).opened⟩ := by
  induction a generalizing m with
  | nil => rfl
  | cons c a ih =>
    show Converted.mk ((m.step c).1 ++ (convertFrom (m.step c).2 (a ++ b)).line)
      (convertFrom (m.step c).2 (a ++ b)).opened = _
    rw [ih, ← append_assoc]
    rfl

theorem mem_of_mem_convertFrom {m : Mode} {c : Char} (h : c ∈ (convertFrom m s).line) :
    c ∈ s ∨ c ∈ ("R\"()" : Text) := by
  induction s generalizing m with
  | nil => cases h
  | cons d s ih =>
    have hstep : ∀ x ∈ (m.step d).1, x = d ∨ x ∈ ("R\"()" : Text) := by
      have hopen : ∀ x ∈ ("R\"(" : Text), x ∈ ("R\"()" : Text) := by decide
      have hclose : ∀ x ∈ (")\"" : Text), x ∈ ("R\"()" : Text) := by decide
      intro x hx
      cases m with
      | raw =>
        simp only [Mode.step] at hx
        split at hx
        · exact .inr (hclose x hx)
        · exact .inl (mem_singleton.mp hx)
      | quoted q => exact .inl (mem_singleton.mp hx)
      | escaped q => exact .inl (mem_singleton.mp hx)
      | code =>
        simp only [Mode.step] at hx
        split at hx
        · exact .inr (hopen x hx)
        · split at hx <;> exact .inl (mem_singleton.mp hx)
    rcases mem_append.mp h with h | h
    · exact (hstep c h).imp_left fun (e : c = d) => e ▸ mem_cons_self
    · exact (ih h).imp_left (mem_cons_of_mem d)

end Raw

/-- Where a comment starts does not depend on it. -/
theorem Lexer.commentIndex?_append {a : Text} (h : (l.run a).mode = .code) :
    ∃ i ≤ a.length, ∀ c, l.commentIndex? (a ++ '/' :: '/' :: c) = some i := by
  induction a generalizing l with
  | nil =>
    have hcode : l.isCode '/' = true := isCode_of_mode h rfl
    refine ⟨0, Nat.le_refl _, fun c => ?_⟩
    rw [nil_append, commentIndex?, if_pos]
    rw [hcode]
    rfl
  | cons d a ih =>
    -- a slash reads one character ahead, at most the first of the two
    have hhead (c : Text) : (a ++ '/' :: '/' :: c).head? = (a ++ ['/']).head? := by
      cases a <;> rfl
    by_cases hd : (l.isCode d && d == '/' && (a ++ ['/']).head? == some '/') = true
    · refine ⟨0, Nat.zero_le _, fun c => ?_⟩
      rw [cons_append, commentIndex?, hhead, if_pos hd]
    · obtain ⟨i, hi, hindex⟩ := ih h
      refine ⟨i + 1, Nat.succ_le_succ hi, fun c => ?_⟩
      rw [cons_append, commentIndex?, hhead, if_neg hd, hindex]
      rfl

theorem Lexer.slashes_of_commentIndex? {i : Nat} (h : l.commentIndex? s = some i) :
    ("//" : Text) <+: s.drop i := by
  induction s generalizing l i with
  | nil => cases h
  | cons c s ih =>
    rw [commentIndex?] at h
    split at h
    · rename_i hc
      simp only [Bool.and_eq_true, beq_iff_eq] at hc
      obtain ⟨r, rfl⟩ := head?_eq_some_iff.mp hc.2
      obtain rfl : 0 = i := Option.some.inj h
      exact ⟨r, by rw [hc.1.2]; rfl⟩
    · obtain ⟨j, hj, rfl⟩ := Option.map_eq_some_iff.mp h
      exact ih hj

/-- Code that a comment may follow: there is some, and it leaves no literal open for either pass. -/
structure InCode (code : Text) : Prop where
  not_blank : ¬ Blank code
  backquotes : after .code (trimStart code) = .code
  literals : (Lexer.start.run (convert (trimStart code)).line).mode = .code

section

variable {code : Text} (h : InCode code)

include h

theorem InCode.trim_eq (c : Text) :
    trim (code ++ '/' :: '/' :: c) = trimStart code ++ '/' :: '/' :: trimEnd c := by
  rw [trim, trimStart_append_of_not_blank h.not_blank, trimEnd_append_cons rfl, trimEnd_cons_of_solid rfl]

theorem InCode.convert_eq (c : Text) :
    convert (trim (code ++ '/' :: '/' :: c))
      = ⟨(convert (trimStart code)).line ++ '/' :: '/' :: (convert (trimEnd c)).line,
        (convert (trimEnd c)).opened⟩ := by
  rw [h.trim_eq]
  unfold convert
  rw [convertFrom_append, h.backquotes]
  rfl

theorem InCode.lineParts?_eq :
    ∃ front, ∀ c, '\n' ∉ code ++ '/' :: '/' :: c → lineParts? (code ++ '/' :: '/' :: c) ≠ none →
      ∃ k, IsComment k ∧ lineParts? (code ++ '/' :: '/' :: c) = some (front, some k) := by
  obtain ⟨i, hi, hindex⟩ := Lexer.commentIndex?_append h.literals
  refine ⟨codeOfLine (trimEnd ((convert (trimStart code)).line.take i)), fun c hnewline hline => ?_⟩
  have hconvert := h.convert_eq c
  generalize (convert (trimStart code)).line = y at hi hindex hconvert
  generalize (convert (trimEnd c)).line = e at hconvert
  have hsplit : splitComment (y ++ '/' :: '/' :: e)
      = (trimEnd (y.take i), some (trim ((y ++ '/' :: '/' :: e).drop i))) := by
    unfold splitComment
    rw [hindex]
    dsimp only
    rw [take_append_of_le_length hi]
  refine ⟨trim ((y ++ '/' :: '/' :: e).drop i), ⟨?_, fun hn => ?_, (solid_trim _).2⟩, ?_⟩
  · obtain ⟨r, hr⟩ := Lexer.slashes_of_commentIndex? (hindex e)
    refine prefix_trim (by decide) ⟨r, ?_⟩
    rw [← hr]
    rfl
  · have hmem : '\n' ∈ (convert (trim (code ++ '/' :: '/' :: c))).line := by
      rw [hconvert]
      exact drop_subset i _ (mem_of_mem_trim hn)
    rcases mem_of_mem_convertFrom hmem with hm | hm
    · exact hnewline (mem_of_mem_trim hm)
    · exact absurd hm (by decide)
  · unfold lineParts? at hline ⊢
    dsimp only at hline ⊢
    split at hline
    · exact absurd rfl hline
    · rename_i hcode
      rw [if_neg hcode, hconvert, hsplit]

end

theorem indentation_append_of_not_blank (h : ¬ Blank s) (t : Text) : indentation (s ++ t) = indentation s := by
  unfold indentation
  rw [takeWhile_append, if_neg]
  intro hall
  have hpre := takeWhile_prefix (l := s) isBlank
  exact h (takeWhile_eq_self_iff.mp (hpre.eq_of_length hall))

/-! ## 2. Outputs that differ in one comment -/

/-- The lines are the same, or one of them ends with one comment here and with the other there. -/
inductive OneComment (k k' : Text) : List Text → List Text → Prop where
  | same (o : List Text) : OneComment k k' o o
  | other (pre : List Text) {u : Text} (hu : BlankEnd u) (post : List Text) :
    OneComment k k' (pre ++ (u ++ k) :: post) (pre ++ (u ++ k') :: post)

theorem indentation_comment {u : Text} (hk : IsComment k) : indentation (u ++ k) = indentation u := by
  obtain ⟨r, rfl⟩ := hk.slashes
  unfold indentation
  rw [takeWhile_append]
  split
  · rename_i hall
    have hpre := takeWhile_prefix (l := u) isBlank
    rw [hpre.eq_of_length hall]
    exact append_nil u
  · rfl

theorem OneComment.cons (h : OneComment k k' o o') (l : Text) :
    OneComment k k' (l :: o) (l :: o') := by
  cases h with
  | same o => exact .same _
  | other pre hu post => exact .other (l :: pre) hu post

theorem OneComment.modify {f : Text → Text} (hf : ∀ u, f (u ++ k) = f (u ++ k'))
    (h : OneComment k k' o o') (i : Nat) : OneComment k k' (o.modify i f) (o'.modify i f) := by
  cases h with
  | same o => exact .same _
  | @other pre u hu post =>
    induction pre generalizing i with
    | nil =>
      cases i with
      | zero =>
        -- the line with the comment is written anew
        show OneComment k k' (f (u ++ k) :: post) (f (u ++ k') :: post)
        rw [hf u]
        exact .same _
      | succ i => exact .other [] hu (post.modify i f)
    | cons l pre ih =>
      cases i with
      | zero => exact .other (f l :: pre) hu post
      | succ i => exact (ih i).cons l

/-- Every step keeps outputs that differ in one comment. -/
theorem stable_oneComment (hk : IsComment k) (hk' : IsComment k') : Stable (OneComment k k') where
  length h := by
    cases h with
    | same o => rfl
    | other pre hu post => rw [length_append, length_append, length_cons, length_cons]
  insert h i ls := by
    cases h with
    | same o => exact .same _
    | @other pre u hu post =>
      induction pre generalizing i with
      | nil =>
        cases i with
        | zero => exact .other ls hu post
        | succ i => exact .other [] hu (post.take i ++ ls ++ post.drop i)
      | cons l pre ih =>
        cases i with
        | zero =>
          have : OneComment k k' _ _ := .other (ls ++ l :: pre) hu post
          rw [append_assoc, append_assoc] at this
          exact this
        | succ i => exact (ih i).cons l
  reopen h draft := by
    unfold reopenClass
    split
    · split
      · exact h
      · refine h.modify (fun u => ?_) _
        rw [indentation_comment hk, indentation_comment hk']
    · exact h

theorem appendComment_concat (k : Text) (ls : List Text) (last : Text) :
    appendComment k (ls ++ [last]) = ls ++ [last ++ ' ' :: k] := by
  induction ls with
  | nil =>
    show [last ++ [' '] ++ k] = _
    rw [append_assoc]
    rfl
  | cons l ls ih =>
    obtain ⟨x, xs, hx⟩ := exists_cons_of_ne_nil (append_cons_ne_nil ls)
    rw [cons_append, hx, appendComment, ← hx, ih, cons_append]
    exact nofun

theorem OneComment.layout (k k' : Text) (o : List Text) {indent : Text} (hindent : Blank indent) (spans : Bool)
    (rendered : Option Text) :
    OneComment k k' (o ++ layout indent spans rendered (some k)) (o ++ layout indent spans rendered (some k')) := by
  cases rendered with
  | none => exact .other o (fun c hc => hindent c (mem_of_getLast? hc)) []
  | some text =>
    show OneComment k k' (o ++ appendComment k (if spans then _ else _)) (o ++ appendComment k' (if spans then _ else _))
    generalize (if spans then [indent ++ text] else (lines text).map (indent ++ ·)) = ls
    rcases eq_nil_or_concat' ls with rfl | ⟨ls, last, rfl⟩
    · exact .same _
    · have hend : BlankEnd (last ++ [' ']) := by
        intro c hc
        rw [getLast?_concat] at hc
        exact Option.some.inj hc ▸ rfl
      have hsplit (k : Text) : o ++ (ls ++ [last ++ ' ' :: k]) = (o ++ ls) ++ ((last ++ [' ']) ++ k) :: [] := by
        simp
      rw [appendComment_concat, appendComment_concat, hsplit, hsplit]
      exact .other _ hend []

/-! ## 3. Runs -/

theorem Run.sourceLine_comment {r : Run} {code : Text} (number : Nat) (h : lineParts? line = some (code, some k))
    (h' : lineParts? line' = some (code, some k')) (hindent : indentation line' = indentation line)
    (hpending : r.pending = none) (hblock : r.state.block? ≠ some .blockComment) :
    Together (Twin (OneComment k k')) (r.sourceLine number line) (r.sourceLine number line') := by
  rw [sourceLine_eq number h hpending hblock, sourceLine_eq number h' hpending hblock, hindent]
  split
  · exact ⟨rfl, rfl, rfl, .layout k k' r.output (blank_indentation line) false none⟩
  · exact codeLine_twin ⟨rfl, rfl, rfl, rfl⟩ rfl
      fun draft rendered => .layout k k' _ (blank_indentation line) false rendered

theorem runSource_comment {before after : List Text} {code : Text}
    (hsource : lines (stripStart ['\uFEFF'] source) = before ++ line :: after)
    (hsource' : lines (stripStart ['\uFEFF'] source') = before ++ line' :: after)
    (h : lineParts? line = some (code, some k)) (h' : lineParts? line' = some (code, some k'))
    (hindent : indentation line' = indentation line) (hk : IsComment k) (hk' : IsComment k')
    (houtside : ∀ r, sourceLines {} 1 before = .ok r → r.pending = none ∧ r.state.block? ≠ some .blockComment) :
    Together (Twin (OneComment k k')) (runSource source) (runSource source') := by
  have hstable := stable_oneComment hk hk'
  unfold runSource
  rw [hsource, hsource', sourceLines_append, sourceLines_append]
  cases hrun : sourceLines {} 1 before with
  | error halt => exact rfl
  | ok r =>
    obtain ⟨hpending, hblock⟩ := houtside r hrun
    exact ((sourceLine_comment _ h h' hindent hpending hblock).bind
      fun _ _ htwin => sourceLines_twin hstable htwin _ after).bind
      fun _ _ htwin => close_twin hstable htwin

/-! ## 4. Programs -/

/-- The lines of output that a source comes to. -/
def ComesTo (source : Text) (output : List Text) : Prop := (runSource source).toOption.map placed = some output

/-- **Two sources come to the same but for a comment**: they stop at one line for one reason, or
    become programs with the same notices. These are equal, or a line ends with one comment here and
    the other there; and if the comment is sheltered, the programs around it are equal. -/
def SameButComment (source source' k k' : Text) : Prop :=
  Together (fun p p' => p'.notices = p.notices ∧ (p'.cpp = p.cpp ∨
    ∃ pre u post, ComesTo source (pre ++ (u ++ k) :: post) ∧ ComesTo source' (pre ++ (u ++ k') :: post) ∧
      (Sheltered (unlines (pre ++ [u])) → ∃ x y, p.cpp = x ++ (k ++ y) ∧ p'.cpp = x ++ (k' ++ y))))
    (lower source) (lower source')

theorem sameButComment_of_twins (hk : IsComment k) (hk' : IsComment k')
    (h : Together (Twin (OneComment k k')) (runSource source) (runSource source')) :
    SameButComment source source' k k' := by
  refine Together.map (h.imp fun r r' hr hr' htwin => ?_) fun _ _ hprogram => hprogram
  have hflags : r'.flags = r.flags := by
    unfold flags
    rw [htwin.state]
  have hplaced := placed_twin (stable_oneComment hk hk') htwin
  refine ⟨congrArg State.notices htwin.state, ?_⟩
  rw [hflags]
  generalize ho : r.placed = o at hplaced
  generalize ho' : r'.placed = o' at hplaced
  cases hplaced with
  | same o => exact .inl rfl
  | @other pre u hu post =>
    have hcomes : ComesTo source (pre ++ (u ++ k) :: post) := by
      unfold ComesTo
      rw [hr]
      exact congrArg some ho
    have hcomes' : ComesTo source' (pre ++ (u ++ k') :: post) := by
      unfold ComesTo
      rw [hr']
      exact congrArg some ho'
    refine .inr ⟨pre, u, post, hcomes, hcomes', fun hshelter => ?_⟩
    obtain ⟨x, y, hxy⟩ := finish_comment hshelter hu post r.flags
    exact ⟨x, y, hxy k hk, hxy k' hk'⟩

/-- **What a comment at the end of a line says does not matter.** Let two sources be equal but for
    one line outside literals over several lines and block comments, which is the same code in both,
    with its literals closed, then two slashes and a text. If neither text makes the whole line a
    comment or leaves a literal between backquotes open, the sources come to the same but for the
    comments. -/
theorem lower_trailingComment {before after : List Text} {code c c' source source' : Text}
    (hsource : lines (stripStart ['\uFEFF'] source) = before ++ (code ++ '/' :: '/' :: c) :: after)
    (hsource' : lines (stripStart ['\uFEFF'] source') = before ++ (code ++ '/' :: '/' :: c') :: after)
    (hcode : InCode code) (hline : lineParts? (code ++ '/' :: '/' :: c) ≠ none)
    (hline' : lineParts? (code ++ '/' :: '/' :: c') ≠ none)
    (houtside : ∀ r, Run.sourceLines {} 1 before = .ok r →
      r.pending = none ∧ r.state.block? ≠ some .blockComment) :
    ∃ front k k', lineParts? (code ++ '/' :: '/' :: c) = some (front, some k) ∧
      lineParts? (code ++ '/' :: '/' :: c') = some (front, some k') ∧ SameButComment source source' k k' := by
  obtain ⟨front, hparts⟩ := hcode.lineParts?_eq
  have hmem : code ++ '/' :: '/' :: c ∈ lines (stripStart ['\uFEFF'] source) :=
    hsource ▸ mem_append_right before mem_cons_self
  have hmem' : code ++ '/' :: '/' :: c' ∈ lines (stripStart ['\uFEFF'] source') :=
    hsource' ▸ mem_append_right before mem_cons_self
  obtain ⟨k, hk, h⟩ := hparts c (newline_not_mem_of_mem_lines hmem) hline
  obtain ⟨k', hk', h'⟩ := hparts c' (newline_not_mem_of_mem_lines hmem') hline'
  have hindent : indentation (code ++ '/' :: '/' :: c') = indentation (code ++ '/' :: '/' :: c) := by
    rw [indentation_append_of_not_blank hcode.not_blank, indentation_append_of_not_blank hcode.not_blank]
  exact ⟨front, k, k', h, h',
    sameButComment_of_twins hk hk' (runSource_comment hsource hsource' h h' hindent hk hk' houtside)⟩

/-- A line with slashes in a literal. -/
def slashedCode : Text := "\tx := \"a//b\" "

/-- A source with that line and a comment behind it. -/
def slashedSource (remark : Text) : Text :=
  "func main() \x7b\n" ++ (slashedCode ++ '/' :: '/' :: remark) ++ "\n\x7d"

/-- The lines in front of the comment. -/
def slashedFront : List Text := ["auto main() -> int \x7b", "\tauto x = \"a//b\"; "]

theorem lower_trailingComment_slashedSource :
    InCode slashedCode ∧ ComesTo (slashedSource " it's")
        ["auto main() -> int \x7b", "\tauto x = \"a//b\"; // it's", "return 0;", "\x7d"] ∧
      Sheltered (unlines slashedFront) ∧
      ∃ front k k', lineParts? (slashedCode ++ '/' :: '/' :: " it's") = some (front, some k) ∧
        lineParts? (slashedCode ++ '/' :: '/' :: " \x60it\x60 is") = some (front, some k') ∧
        SameButComment (slashedSource " it's") (slashedSource " \x60it\x60 is") k k' := by
  have hcode : InCode slashedCode := ⟨fun hb => absurd (hb 'x' (by decide)) (by decide), rfl, rfl⟩
  have hlines : ∀ remark ∈ [" it's", " \x60it\x60 is"],
      lines (stripStart ['\uFEFF'] (slashedSource remark))
          = [("func main() \x7b" : Text)] ++ (slashedCode ++ '/' :: '/' :: remark) :: ["\x7d"] ∧
        lineParts? (slashedCode ++ '/' :: '/' :: remark) ≠ none := by
    decide +kernel
  have hrun : ((sourceLines {} 1 ["func main() \x7b"]).toOption.all
      fun r => r.pending.isNone && r.state.block? != some .blockComment) = true := by decide +kernel
  have hends : ((segments (unlines slashedFront)).getLast?.all fun seg => seg.kind == .code) = true := by decide +kernel
  have hshelter : Sheltered (unlines slashedFront) := by
    refine ⟨fun seg hseg => ?_, by decide +kernel, not_leadsInclude_of_trim (by decide +kernel)⟩
    rw [hseg] at hends
    exact beq_iff_eq.mp hends
  have hcomes : ComesTo (slashedSource " it's")
      ["auto main() -> int \x7b", "\tauto x = \"a//b\"; // it's", "return 0;", "\x7d"] := by
    unfold ComesTo
    decide +kernel
  have hplain := hlines _ mem_cons_self
  have hquoted := hlines _ (mem_cons_of_mem _ mem_cons_self)
  refine ⟨hcode, hcomes, hshelter,
    lower_trailingComment hplain.1 hquoted.1 hcode hplain.2 hquoted.2 fun r hr => ?_⟩
  rw [hr] at hrun
  have hboth : (r.pending.isNone && r.state.block? != some .blockComment) = true := hrun
  rwa [Bool.and_eq_true, Option.isNone_iff_eq_none, bne_iff_ne] at hboth

/-- A source with a comment above the last line of a function. -/
def remarkAbove (remark : Text) : Text :=
  "package main\nfunc main() \x7b\n\tx := 1 // " ++ remark ++ "\n\tprintln(x)\n\x7d\n"

/-- **A backquote in a comment opens a literal**: the lines below are taken into it, and there is a
    notice that it is not closed. -/
theorem notices_remarkAbove :
    (lower (remarkAbove "it is")).toOption.map (·.notices) = some [] ∧
      (lower (remarkAbove "it\x60s")).toOption.map (·.notices.map (·.message))
        = some ["raw string not closed before end of input".toList] := by
  constructor <;> decide +kernel

end Linewise
