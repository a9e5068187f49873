/-
  Cuts put back together: lines, parts at top level, and white space around them.
-/
import Linewise.Proofs.Word

namespace Linewise

open List Lexer

variable {c sep : Char} {a l s v : Text} {parts ps : List Text} {p : Char → Bool}

namespace Text

/-! ## 1. Lines -/

theorem pieces_eq_splitOnP (p : Char → Bool) (s : Text) : pieces p s = s.splitOnP p := by
  induction s with
  | nil => exact splitOnP_nil.symm
  | cons c r ih =>
    obtain ⟨q, qs, hq⟩ := exists_cons_of_ne_nil (splitOnP_ne_nil p r)
    rw [pieces, ih, splitOnP_cons_eq_if_modifyHead, hq]
    rfl

theorem pieces_ne_nil (p : Char → Bool) (s : Text) : pieces p s ≠ [] := by
  rw [pieces_eq_splitOnP]
  exact splitOnP_ne_nil p s

theorem exists_pieces (p : Char → Bool) (s : Text) : ∃ q qs, pieces p s = q :: qs :=
  exists_cons_of_ne_nil (pieces_ne_nil p s)

theorem pieces_append (hc : p c = true) (a b : Text) :
    pieces p (a ++ c :: b) = pieces p a ++ pieces p b := by
  simp only [pieces_eq_splitOnP, splitOnP_append_cons a b hc]

theorem pieces_of_forall (h : ∀ c ∈ s, p c = false) : pieces p s = [s] := by
  rw [pieces_eq_splitOnP, splitOnP_eq_singleton h]

theorem pieces_of_not_mem (h : c ∉ s) : pieces (· == c) s = [s] := by
  rw [pieces_eq_splitOnP, ← splitOn_eq_splitOnP, splitOn_eq_singleton h]

theorem flatten_pieces (p : Char → Bool) (s : Text) : (pieces p s).flatten = s.filter (!p ·) := by
  induction s with
  | nil => rfl
  | cons c r ih =>
    obtain ⟨q, qs, hq⟩ := exists_pieces p r
    rw [pieces, filter_cons, ← ih, hq]
    cases p c <;> rfl

theorem exists_mem_pieces : (∃ l ∈ pieces p s, c ∈ l) ↔ c ∈ s ∧ p c = false := by
  rw [← mem_flatten, flatten_pieces, mem_filter, Bool.not_eq_true']

theorem mem_of_mem_pieces (hl : l ∈ pieces p s) (hc : c ∈ l) : c ∈ s :=
  (exists_mem_pieces.mp ⟨l, hl, hc⟩).1

theorem not_of_mem_pieces (hl : l ∈ pieces p s) (hc : c ∈ l) : p c = false :=
  (exists_mem_pieces.mp ⟨l, hl, hc⟩).2

theorem exists_pieces_concat (p : Char → Bool) (s : Text) : ∃ ps q, pieces p s = ps ++ [q] :=
  (eq_nil_or_concat' _).resolve_left (pieces_ne_nil p s)

theorem pieces_append_eq {b q r : Text} {rs : List Text} (ha : pieces p a = ps ++ [q])
    (hb : pieces p b = r :: rs) : pieces p (a ++ b) = ps ++ (q ++ r) :: rs := by
  induction a generalizing ps q with
  | nil =>
    obtain ⟨rfl, hq⟩ := append_inj' (show [] ++ [[]] = ps ++ [q] from ha) rfl
    cases hq
    exact hb
  | cons c a ih =>
    obtain ⟨xs, y, hy⟩ := exists_pieces_concat p a
    rw [pieces, hy] at ha
    rw [cons_append, pieces, ih hy]
    by_cases hc : p c = true
    · rw [if_pos hc] at ha ⊢
      obtain ⟨rfl, hq⟩ := append_inj' (show ([] :: xs) ++ [y] = ps ++ [q] from ha) rfl
      cases hq
      rfl
    · rw [if_neg hc] at ha ⊢
      cases xs with
      | nil =>
        obtain ⟨rfl, hq⟩ := append_inj' (show [] ++ [c :: y] = ps ++ [q] from ha) rfl
        cases hq
        rfl
      | cons x xs =>
        obtain ⟨rfl, hq⟩ := append_inj' (show ((c :: x) :: xs) ++ [y] = ps ++ [q] from ha) rfl
        cases hq
        rfl

theorem pieces_append_of_not_mem (ha : c ∉ a) (s : Text) :
    ∃ q qs, pieces (· == c) s = q :: qs ∧ pieces (· == c) (a ++ s) = (a ++ q) :: qs := by
  obtain ⟨q, qs, hq⟩ := exists_pieces (· == c) s
  have hone : pieces (· == c) a = [] ++ [a] := pieces_of_not_mem ha
  exact ⟨q, qs, hq, pieces_append_eq hone hq⟩

theorem pieces_concat (hc : p c = false) (s : Text) :
    ∃ ps q, pieces p (s ++ [c]) = ps ++ [q ++ [c]] := by
  obtain ⟨ps, q, h⟩ := exists_pieces_concat p s
  have hone : pieces p [c] = [[c]] := pieces_of_forall (by simpa using hc)
  exact ⟨ps, q, pieces_append_eq h hone⟩

theorem chomp_concat (hc : c ≠ '\r') (s : Text) : chomp (s ++ [c]) = s ++ [c] :=
  stripEnd_eq_self (endsWith_concat_of_ne s hc)

theorem chomp_return (s : Text) : chomp (s ++ ['\r']) = s := stripEnd_append ['\r'] s

theorem chomp_append (hc : c ≠ '\r') (v q : Text) : chomp (v ++ c :: q) = v ++ c :: chomp q := by
  rcases eq_nil_or_concat' q with rfl | ⟨q, d, rfl⟩
  · rw [chomp_concat hc]
    rfl
  · rw [← cons_append, ← append_assoc]
    by_cases hd : d = '\r'
    · subst hd
      rw [chomp_return, chomp_return]
    · rw [chomp_concat hd, chomp_concat hd, append_assoc, cons_append]

theorem linesOfPieces_front (ps : List Text) {qs : List Text} (hne : qs ≠ []) :
    linesOfPieces (ps ++ qs) = ps.map chomp ++ linesOfPieces qs := by
  induction ps with
  | nil => rfl
  | cons p ps ih =>
    obtain ⟨x, xs, hx⟩ := exists_cons_of_ne_nil (append_ne_nil_of_right_ne_nil ps hne)
    have hline : linesOfPieces (p :: x :: xs) = chomp p :: linesOfPieces (x :: xs) := rfl
    rw [cons_append, hx, hline, ← hx, ih, map_cons, cons_append]

theorem lines_append_newline (a b : Text) :
    lines (a ++ '\n' :: b) = (pieces (· == '\n') a).map chomp ++ lines b := by
  unfold lines
  rw [pieces_append (by rfl), linesOfPieces_front _ (pieces_ne_nil _ b)]

theorem lines_append {b : Text} (hn : c ≠ '\n') (hr : c ≠ '\r') :
    lines (a ++ [c] ++ '\n' :: b) = lines (a ++ [c]) ++ lines b := by
  obtain ⟨ps, q, h⟩ := pieces_concat (p := (· == '\n')) (by simpa using hn) a
  have hlast : linesOfPieces [q ++ [c]] = [chomp (q ++ [c])] := by simp [linesOfPieces, chomp_concat hr]
  have hself : lines (a ++ [c]) = (ps ++ [q ++ [c]]).map chomp := by
    rw [lines, h, linesOfPieces_front _ (cons_ne_nil _ _), hlast, map_append, map_singleton]
  rw [lines_append_newline, h, hself]

theorem lines_eq_singleton (hne : s ≠ []) (h : '\n' ∉ s) : lines s = [s] := by
  unfold lines
  rw [pieces_of_not_mem h]
  simp [linesOfPieces, hne]

theorem lines_ne_nil (h : s ≠ []) : lines s ≠ [] := by
  by_cases hn : '\n' ∈ s
  · obtain ⟨a, b, rfl⟩ := append_of_mem hn
    rw [lines_append_newline]
    exact append_ne_nil_of_left_ne_nil (by simp [pieces_ne_nil]) _
  · rw [lines_eq_singleton h hn]
    exact cons_ne_nil _ _

theorem decimal_injective {m n : Nat} (h : decimal m = decimal n) : m = n := by
  have hn := congrArg (fun ds => Nat.ofDigitChars 10 ds 0) h
  simpa [decimal, Nat.ofDigitChars_toDigits] using hn

theorem not_mem_decimal (hc : c.isDigit = false) (n : Nat) : c ∉ decimal n := by
  intro h
  rw [Nat.isDigit_of_mem_toDigits (by decide) (by decide) h] at hc
  cases hc

/-! ## 2. Lines put together -/

theorem unlines_singleton (t : Text) : unlines [t] = t := by
  simp [unlines, joinWith]

theorem unlines_cons_cons (p q : Text) (parts : List Text) :
    unlines (p :: q :: parts) = p ++ '\n' :: unlines (q :: parts) := by
  rw [unlines, joinWith, intercalate_cons_cons, append_assoc]
  rfl

theorem joinWith_append (sep : Text) {pre post : List Text} (hpre : pre ≠ []) (hpost : post ≠ []) :
    joinWith sep (pre ++ post) = joinWith sep pre ++ (sep ++ joinWith sep post) := by
  unfold joinWith
  induction pre with
  | nil => exact absurd rfl hpre
  | cons p pre ih =>
    cases pre with
    | nil =>
      obtain ⟨x, xs, rfl⟩ := exists_cons_of_ne_nil hpost
      rw [singleton_append, intercalate_cons_cons, intercalate_singleton, append_assoc]
    | cons q pre =>
      rw [cons_append, cons_append, intercalate_cons_cons, ← cons_append,
        ih (cons_ne_nil q pre), intercalate_cons_cons, append_assoc, append_assoc,
        append_assoc]

theorem unlines_pieces (s : Text) : unlines (pieces (· == '\n') s) = s := by
  rw [pieces_eq_splitOnP, ← splitOn_eq_splitOnP]
  exact intercalate_splitOn '\n'

theorem pieces_joinWith {ls : List Text} (hne : ls ≠ []) (h : ∀ l ∈ ls, c ∉ l) :
    pieces (· == c) (joinWith [c] ls) = ls := by
  rw [pieces_eq_splitOnP, ← splitOn_eq_splitOnP]
  exact splitOn_intercalate c h hne

theorem pieces_unlines {ls : List Text} (hne : ls ≠ []) (h : ∀ l ∈ ls, '\n' ∉ l) :
    pieces (· == '\n') (unlines ls) = ls :=
  pieces_joinWith hne h

theorem lines_cons (hn : c ≠ '\n') (hr : c ≠ '\r') (hne : s ≠ []) :
    ∃ h t, lines s = h :: t ∧ lines (c :: s) = (c :: h) :: t := by
  obtain ⟨q, qs, hq, hcons⟩ := pieces_append_of_not_mem (a := [c]) (by simpa using hn.symm) s
  have hself := unlines_pieces s
  unfold lines
  rw [← singleton_append, hcons, hq]
  cases qs with
  | nil =>
    rw [hq, unlines_singleton] at hself
    refine ⟨q, [], ?_, rfl⟩
    rw [linesOfPieces, if_neg (by rw [hself]; simpa using hne)]
  | cons q' qs =>
    refine ⟨chomp q, linesOfPieces (q' :: qs), rfl, ?_⟩
    exact congrArg (· :: _) (chomp_append hr [] q)

theorem chomp_eq_self (h : '\r' ∉ s) : chomp s = s := by
  unfold chomp stripEnd
  cases hs : stripEnd? ['\r'] s with
  | none => rfl
  | some r => exact absurd (by rw [eq_append_of_stripEnd? hs]; simp) h

theorem prefix_chomp (s : Text) : chomp s <+: s := by
  unfold chomp stripEnd
  cases h : stripEnd? ['\r'] s with
  | none => exact prefix_refl s
  | some r =>
    rw [eq_append_of_stripEnd? h]
    exact prefix_append r ['\r']

theorem map_chomp_eq_self (h : ∀ p ∈ ps, '\r' ∉ p) : ps.map chomp = ps :=
  (map_congr_left fun p hp => chomp_eq_self (h p hp)).trans (map_id ps)

theorem exists_piece_of_mem_lines (hl : l ∈ lines s) : ∃ p ∈ pieces (· == '\n') s, l <+: p := by
  have hpieces : ∀ ps : List Text, l ∈ linesOfPieces ps → ∃ p ∈ ps, l <+: p := by
    intro ps
    fun_induction linesOfPieces ps with
    | case1 => exact fun h => absurd h not_mem_nil
    | case2 last _ => exact fun h => absurd h not_mem_nil
    | case3 last _ =>
      intro h
      exact ⟨last, mem_cons_self, mem_singleton.mp h ▸ prefix_refl _⟩
    | case4 p q r ih =>
      intro h
      rcases mem_cons.mp h with rfl | h
      · exact ⟨p, mem_cons_self, prefix_chomp p⟩
      · obtain ⟨x, hx, hpre⟩ := ih h
        exact ⟨x, mem_cons_of_mem p hx, hpre⟩
  exact hpieces _ hl

theorem newline_not_mem_of_mem_lines (hl : l ∈ lines s) : '\n' ∉ l := by
  intro hn
  obtain ⟨p, hp, hpre⟩ := exists_piece_of_mem_lines hl
  exact absurd (not_of_mem_pieces hp (hpre.subset hn)) (by decide)

theorem unlines_linesOfPieces {ps : List Text} (hne : ps ≠ []) (h : ∀ p ∈ ps, '\r' ∉ p) :
    unlines ps = unlines (linesOfPieces ps) ∨ unlines ps = unlines (linesOfPieces ps) ++ ['\n'] := by
  match ps with
  | [] => exact absurd rfl hne
  | [last] =>
    rw [linesOfPieces]
    split
    · rename_i he
      rw [isEmpty_iff.mp he]
      exact .inl rfl
    · exact .inl rfl
  | [p, q] =>
    rw [linesOfPieces, linesOfPieces, chomp_eq_self (h p mem_cons_self), unlines_cons_cons,
      unlines_singleton]
    split
    · rename_i he
      rw [isEmpty_iff.mp he, unlines_singleton]
      exact .inr rfl
    · rw [unlines_cons_cons, unlines_singleton]
      exact .inl rfl
  | p :: q :: x :: r =>
    have ih := unlines_linesOfPieces (cons_ne_nil q (x :: r)) (forall_mem_cons.mp h).2
    rw [linesOfPieces, chomp_eq_self (h p mem_cons_self), unlines_cons_cons]
    rw [linesOfPieces] at ih ⊢
    rw [unlines_cons_cons p (chomp q), append_assoc, cons_append]
    exact ih.imp (congrArg (p ++ '\n' :: ·)) (congrArg (p ++ '\n' :: ·))

theorem eq_unlines_lines (h : '\r' ∉ s) : s = unlines (lines s) ∨ s = unlines (lines s) ++ ['\n'] := by
  have := unlines_linesOfPieces (pieces_ne_nil (· == '\n') s) fun p hp hr =>
    h (unlines_pieces s ▸ mem_joinWith_of_mem hp hr)
  rwa [unlines_pieces] at this

end Text

open Text

/-! ## 3. Places at top level -/

theorem topIndexFrom?_blank {needle : Char} (hn : isBlank needle = false) (hv : Blank v) (l : Lexer) (d : Int) :
    topIndexFrom? needle l d v = none := by
  induction v generalizing l d with
  | nil => rfl
  | cons c v ih =>
    have hc : (c == needle) = false := by
      have hb := hv c mem_cons_self
      refine beq_eq_false_iff_ne.mpr fun e => ?_
      rw [e, hn] at hb
      cases hb
    rw [topIndexFrom?, hc, Bool.and_false, Bool.false_and, if_neg Bool.false_ne_true,
      ih (forall_mem_cons.mp hv).2]
    rfl

theorem Lexer.Anew.topIndexFrom?_eq {l : Lexer} (h : l.Anew s) (needle : Char) (d : Int) :
    topIndexFrom? needle l d s = topIndexFrom? needle start d s := by
  cases s with
  | nil => rfl
  | cons c r => rw [topIndexFrom?, topIndexFrom?, h.isCode_eq, h.step_eq, h.nesting_eq]

theorem topIndex?_around {needle : Char} (hn : isBlank needle = false) {u : Text} (hu : Blank u)
    (hv : Blank v) (s : Text) : topIndex? needle (u ++ (s ++ v)) = (topIndex? needle s).map (· + u.length) := by
  unfold topIndex?
  rw [topIndexFrom?_append, topIndexFrom?_blank hn hu, (bare_of_blank hu).level_eq, Option.none_or,
    (fresh_start.run_blank hu).anew.topIndexFrom?_eq, topIndexFrom?_append, topIndexFrom?_blank hn hv]
  simp

/-! ## 4. Parts at top level -/

/-- A text put in front of the first part. -/
def onFront (p : Text) : List Text → List Text
  | [] => [p]
  | q :: qs => (p ++ q) :: qs

/-- A text put behind the last part. -/
def onBack (p : Text) : List Text → List Text
  | [] => [p]
  | [q] => [q ++ p]
  | q :: q' :: qs => q :: onBack p (q' :: qs)

theorem cutsFrom_ne_nil (sep : Char) (l : Lexer) (d : Int) (s : Text) : cutsFrom sep l d s ≠ [] := by
  cases s with
  | nil => exact cons_ne_nil _ _
  | cons c r =>
    rw [cutsFrom]
    split
    · exact cons_ne_nil _ _
    · cases cutsFrom sep (l.step c) (d + l.nesting c) r <;> exact cons_ne_nil _ _

theorem Lexer.Anew.cutsFrom_eq {l : Lexer} (h : l.Anew s) (sep : Char) (d : Int) :
    cutsFrom sep l d s = cutsFrom sep start d s := by
  cases s with
  | nil => rfl
  | cons c r => rw [cutsFrom, cutsFrom, h.isCode_eq, h.step_eq, h.nesting_eq]

theorem cutsFrom_append (hsep : isBracket sep = false) {l : Lexer} {d : Int}
    (h : topIndexFrom? sep l d a = none) (b : Text) :
    cutsFrom sep l d (a ++ b) = onFront a (cutsFrom sep (l.run a) (d + l.level a) b) := by
  induction a generalizing l d with
  | nil =>
    rw [nil_append, run_nil, level, Int.add_zero]
    cases hc : cutsFrom sep l d b with
    | nil => exact absurd hc (cutsFrom_ne_nil sep l d b)
    | cons q qs => rfl
  | cons c a ih =>
    rw [topIndexFrom?] at h
    split at h
    · cases h
    · rename_i hno
      have hcut : (l.isCode c && c == sep && d + l.nesting c == 0) = false := by
        refine Bool.eq_false_iff.mpr fun hc => hno ?_
        simp only [Bool.and_eq_true, beq_iff_eq] at hc ⊢
        obtain ⟨⟨hcode, rfl⟩, hd⟩ := hc
        have hnest : l.nesting c = 0 := by
          rw [Lexer.nesting, if_pos hcode, nesting_of_not_isBracket hsep]
        rw [hnest, Int.add_zero] at hd
        exact ⟨⟨hcode, rfl⟩, hd⟩
      have ha := ih (Option.map_eq_none_iff.mp h)
      rw [cons_append, cutsFrom, hcut, if_neg Bool.false_ne_true, ha, run_cons, level,
        Int.add_assoc]
      cases cutsFrom sep ((l.step c).run a) (d + (l.nesting c + (l.step c).level a)) b <;> rfl

theorem cutsFrom_of_none (hsep : isBracket sep = false) (h : topIndex? sep s = none) :
    cutsFrom sep start 0 s = [s] := by
  have := cutsFrom_append hsep h []
  rwa [append_nil, cutsFrom, onFront, append_nil] at this

theorem cutsFrom_append_cons (hsep : Bare [sep]) (hR : sep ≠ 'R') (h : topIndex? sep a = none)
    (hm : (start.run a).mode = .code) (hl : start.level a = 0) (b : Text) :
    cutsFrom sep start 0 (a ++ sep :: b) = a :: cutsFrom sep start 0 b := by
  have hcode := isCode_of_mode hm hsep.head.2
  rw [cutsFrom_append hsep.head.1 h, hl, cutsFrom, hcode, hsep.nesting_eq, (fresh_step hcode hR).anew.cutsFrom_eq]
  simp [onFront]

theorem cutsFrom_blank (hn : isBlank sep = false) (hv : Blank v) (s : Text) (l : Lexer) (d : Int) :
    cutsFrom sep l d (s ++ v) = onBack v (cutsFrom sep l d s) := by
  induction s generalizing l d with
  | nil =>
    induction v generalizing l d with
    | nil => rfl
    | cons c v ih =>
      have hc : (c == sep) = false := by
        have hb := hv c mem_cons_self
        refine beq_eq_false_iff_ne.mpr fun e => ?_
        rw [e, hn] at hb
        cases hb
      have ih := ih (forall_mem_cons.mp hv).2 (l.step c) (d + l.nesting c)
      rw [nil_append] at ih
      show (if l.isCode c && c == sep && d + l.nesting c == 0 then _
        else onHead c (cutsFrom sep (l.step c) (d + l.nesting c) v)) = _
      rw [hc, Bool.and_false, Bool.false_and, if_neg Bool.false_ne_true, ih]
      rfl
  | cons c s ih =>
    rw [cons_append, cutsFrom, cutsFrom, ih]
    cases hcuts : cutsFrom sep (l.step c) (d + l.nesting c) s with
    | nil => exact absurd hcuts (cutsFrom_ne_nil _ _ _ _)
    | cons q qs =>
      split
      · rfl
      · cases qs <;> rfl

theorem map_trim_onFront {u : Text} (hu : Blank u) (hne : ps ≠ []) : (onFront u ps).map trim = ps.map trim := by
  cases ps with
  | nil => exact absurd rfl hne
  | cons q qs => rw [onFront, map_cons, map_cons, trim_blank_append hu]

theorem map_trim_onBack (hv : Blank v) (hne : ps ≠ []) : (onBack v ps).map trim = ps.map trim := by
  induction ps with
  | nil => exact absurd rfl hne
  | cons q qs ih =>
    cases qs with
    | nil => rw [onBack, map_singleton, map_singleton, trim_append_blank hv]
    | cons q' qs => exact congrArg (trim q :: ·) (ih (cons_ne_nil _ _))

theorem splitTop_trim (hsep : isBracket sep = false) (hn : isBlank sep = false) (s : Text) :
    splitTop sep (trim s) = splitTop sep s := by
  obtain ⟨u, v, hs, hu, hv⟩ := eq_append_trim s
  have hblank : isAllBlank (trim s) = isAllBlank s := by
    rw [Bool.eq_iff_iff, isAllBlank_iff, isAllBlank_iff, ← trim_eq_nil_iff, trim_trim, trim_eq_nil_iff]
  have hcuts : (cutsFrom sep start 0 s).map trim = (cutsFrom sep start 0 (trim s)).map trim := by
    have hfront := cutsFrom_append hsep (topIndexFrom?_blank hn hu start 0) (trim s ++ v)
    rw [← hs, (bare_of_blank hu).level_eq, (fresh_start.run_blank hu).anew.cutsFrom_eq,
      cutsFrom_blank hn hv] at hfront
    have hne := cutsFrom_ne_nil sep start (0 + 0) (trim s)
    have hback : onBack v (cutsFrom sep start (0 + 0) (trim s)) ≠ [] := by
      intro he
      have := map_trim_onBack hv hne
      rw [he] at this
      exact hne (map_eq_nil_iff.mp this.symm)
    rw [hfront, map_trim_onFront hu hback, map_trim_onBack hv hne]
    rfl
  unfold splitTop
  rw [hblank, hcuts]

/-- A part between separators: well nested, with none of them at top level. -/
@[mk_iff] structure IsPart (sep : Char) (p : Text) : Prop where
  wellNested : WellNested p
  whole : topIndex? sep p = none

instance (sep : Char) (p : Text) : Decidable (IsPart sep p) := decidable_of_iff _ (isPart_iff ..).symm

section Joined

variable {sep : Char} (hbare : Bare [sep]) (hR : sep ≠ 'R')

include hbare hR

theorem wellNested_joinWith (h : ∀ p ∈ parts, IsPart sep p) :
    WellNested (joinWith [sep] parts) := by
  induction parts with
  | nil => exact wellNested_nil
  | cons p ps ih =>
    have hp := (h p mem_cons_self).wellNested
    cases ps with
    | nil => rwa [joinWith_singleton]
    | cons q qs =>
      rw [joinWith_cons_cons, ← append_assoc]
      exact (hbare.append_wellNested hp).append (ih (forall_mem_cons.mp h).2) (by simpa using hR)

theorem cutsFrom_joinWith (hne : parts ≠ []) (h : ∀ p ∈ parts, IsPart sep p) :
    cutsFrom sep start 0 (joinWith [sep] parts) = parts := by
  induction parts with
  | nil => exact absurd rfl hne
  | cons p ps ih =>
    obtain ⟨hp, hwhole⟩ := h p mem_cons_self
    cases ps with
    | nil => rw [joinWith_singleton, cutsFrom_of_none hbare.head.1 hwhole]
    | cons q qs =>
      rw [joinWith_cons_cons, singleton_append, cutsFrom_append_cons hbare hR hwhole hp.literals hp.level_eq,
        ih (cons_ne_nil _ _) (forall_mem_cons.mp h).2]

theorem splitTop_joinWith (h : ∀ p ∈ parts, IsPart sep p)
    (hsolid : isAllBlank (joinWith [sep] parts) = false) :
    splitTop sep (joinWith [sep] parts) = parts.map trim := by
  have hne : parts ≠ [] := by
    rintro rfl
    cases hsolid
  unfold splitTop
  rw [hsolid, if_neg Bool.false_ne_true, cutsFrom_joinWith hbare hR hne h]

end Joined

end Linewise
