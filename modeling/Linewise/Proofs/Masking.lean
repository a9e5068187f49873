/-
  A line read character by character, and the same line cut into segments.

  The machine of `Lexer` remembers one character, `segments` looks ahead for the end of each literal.
  On a line without comments both see the same literals, as long as an `R` with a double quote behind
  it starts a raw literal for both.
-/
import Linewise.Proofs.Balance
import Linewise.Proofs.Segments

namespace Linewise

open Text List Lexer

variable {before : Option Char} {l : Lexer} {c : Char} {a b pattern r s : Text} {n : Nat}

/-! ## 1. Literals passed by the machine -/

namespace Lexer

theorem maskFrom_append (l : Lexer) (a b : Text) :
    l.maskFrom (a ++ b) = l.maskFrom a ++ (l.run a).maskFrom b := by
  induction a generalizing l with
  | nil => rfl
  | cons c a ih => exact congrArg _ (ih (l.step c))

/-- The machine masks the first `n` characters, and is fresh behind them unless the text is over. -/
structure Skips (l : Lexer) (s : Text) (n : Nat) : Prop where
  masked : l.maskFrom (s.take n) = replicate (s.take n).length ' '
  behind : (l.run (s.take n)).Fresh ∨ s.drop n = []

namespace Skips

theorem nil (l : Lexer) (n : Nat) : l.Skips [] n := by
  refine ⟨?_, .inr drop_nil⟩
  rw [take_nil]
  rfl

theorem zero (h : l.Fresh) (s : Text) : l.Skips s 0 := ⟨rfl, .inl h⟩

theorem cons (hc : l.isCode c = false) (h : (l.step c).Skips s n) : l.Skips (c :: s) (n + 1) := by
  refine ⟨?_, h.behind⟩
  rw [take_succ_cons, maskFrom, hc, if_neg Bool.false_ne_true, h.masked, length_cons,
    replicate_succ]

end Skips

/-- A quoted literal ends where the look-ahead says. -/
theorem skips_quoted {q : Char} (hq : q = '"' ∨ q = '\'') (hn : '\n' ∉ s) (last : Char) :
    (⟨.quoted q, last⟩ : Lexer).Skips s (Segment.quotedLength q s) := by
  have hback : q ≠ '\\' ∧ q ≠ '\x60' ∧ q ≠ 'R' := by rcases hq with rfl | rfl <;> decide
  have escapes (last : Char) : (⟨.quoted q, last⟩ : Lexer).step '\\' = ⟨.escaped q, '\\'⟩ := by
    have hne : (q != '\x60') = true := bne_iff_ne.mpr hback.2.1
    rw [step, Mode.next, hne]
    rfl
  induction s using Segment.quotedLength.induct q generalizing last with
  | case1 => exact .nil _ _
  | case2 d r ih =>
    have hr : '\n' ∉ r := fun h => hn (mem_cons_of_mem _ (mem_cons_of_mem _ h))
    refine .cons rfl ?_
    rw [escapes]
    exact .cons rfl (ih hr d)
  | case3 r => exact absurd mem_cons_self hn
  | case4 c r hesc hnl hc =>
    obtain rfl : c = q := beq_iff_eq.mp hc
    rw [Segment.quotedLength_cons hback.1 hnl, if_pos hc]
    refine .cons rfl (.zero ⟨?_, hback.2.2⟩ r)
    have hslash : (c == '\\') = false := beq_eq_false_iff_ne.mpr hback.1
    rw [step, Mode.next, hslash, hc]
    rfl
  | case5 c r hesc hnl hc ih =>
    have hr : '\n' ∉ r := fun h => hn (mem_cons_of_mem _ h)
    rw [Segment.quotedLength.eq_4 q c r hesc hnl, if_neg hc]
    refine .cons rfl ?_
    by_cases hb : c = '\\'
    · -- a backslash with nothing behind it
      cases r with
      | nil => exact .nil _ _
      | cons d r => exact absurd rfl (hesc d r hb)
    · have hstep : (⟨.quoted q, last⟩ : Lexer).step c = ⟨.quoted q, c⟩ := by
        have hslash : (c == '\\') = false := beq_eq_false_iff_ne.mpr hb
        rw [step, Mode.next, hslash, Bool.eq_false_iff.mpr hc]
        rfl
      rw [hstep]
      exact ih hr c

/-- A raw literal ends where the look-ahead says. -/
theorem skips_raw {last : Char} (hlast : last = ')' → s.head? ≠ some '"') :
    (⟨.raw, last⟩ : Lexer).Skips s (Segment.lengthThrough ")\"" s) := by
  induction s generalizing last with
  | nil => exact .nil _ _
  | cons c r ih =>
    have stays : (⟨.raw, last⟩ : Lexer).step c = ⟨.raw, c⟩ := by
      have hno : (c == '"' && last == ')') = false := by
        refine Bool.eq_false_iff.mpr fun h => ?_
        obtain ⟨hc, hl⟩ := Bool.and_eq_true_iff.mp h
        exact hlast (beq_iff_eq.mp hl) (congrArg some (beq_iff_eq.mp hc))
      rw [step, Mode.next, hno]
      rfl
    rw [Segment.lengthThrough_cons]
    by_cases hclose : startsWith (c :: r) ")\"" = true
    · rw [if_pos hclose]
      obtain ⟨t, ht⟩ := startsWith_iff.mp hclose
      obtain ⟨rfl, rfl⟩ := cons.inj ht
      refine .cons rfl ?_
      rw [stays]
      exact .cons rfl (.zero ⟨rfl, by decide⟩ t)
    · rw [if_neg hclose]
      refine .cons rfl ?_
      rw [stays]
      refine ih fun hc hhead => hclose ?_
      obtain ⟨t, rfl⟩ := head?_eq_some_iff.mp hhead
      rw [hc]
      exact startsWith_append ")\"" t

end Lexer

/-! ## 2. Lines and marks -/

namespace Text

theorem includes_behind (a : Text) (h : includes (a ++ b) pattern = false) : includes b pattern = false := by
  induction a with
  | nil => exact h
  | cons c a ih =>
    refine ih ?_
    unfold includes at h ⊢
    rw [cons_append, indexOf?] at h
    split at h
    · cases h
    · rwa [Option.isSome_map] at h

theorem startsWith_of_not_includes (h : includes (c :: r) pattern = false) :
    startsWith (c :: r) pattern = false := by
  refine Bool.eq_false_iff.mpr fun hs => ?_
  rw [includes, indexOf?, if_pos hs] at h
  cases h

end Text

/-- One line of a program without comments, its literals between backquotes converted. -/
@[mk_iff] structure BareLine (s : Text) : Prop where
  newline : '\n' ∉ s
  backquote : '\x60' ∉ s
  lineComment : includes s "//" = false
  blockComment : includes s "/*" = false

instance (s : Text) : Decidable (BareLine s) := decidable_of_iff _ (bareLine_iff ..).symm

theorem BareLine.behind (h : BareLine (a ++ b)) : BareLine b where
  newline hm := h.newline (mem_append_right a hm)
  backquote hm := h.backquote (mem_append_right a hm)
  lineComment := includes_behind a h.lineComment
  blockComment := includes_behind a h.blockComment

/-- **Every `R"` outside literals is the head of a raw literal**: a parenthesis follows, and no word
    is in front. -/
def MarksRaw (s : Text) : Prop :=
  ∀ i, i < s.length → startsWith (s.drop i) "R\"" = true →
    (start.run (s.take i)).mode = .code →
      startsWith (s.drop i) "R\"(" = true ∧ (s.take i).getLast?.any isWordChar = false

instance (s : Text) : Decidable (MarksRaw s) :=
  inferInstanceAs (Decidable (∀ i, i < s.length → _))

/-- The same from a machine on, which stands behind the character `before`. -/
def Lexer.MarksRaw (l : Lexer) (before : Option Char) (s : Text) : Prop :=
  ∀ a b, s = a ++ 'R' :: '"' :: b → (l.run a).mode = .code →
    b.head? = some '(' ∧ (a.getLast?.or before).any isWordChar = false

theorem MarksRaw.fromStart (h : MarksRaw s) : Lexer.start.MarksRaw none s := by
  rintro a b rfl hm
  have hlen : a.length < (a ++ 'R' :: '"' :: b).length := by
    rw [length_append, length_cons]
    omega
  have hat := h a.length hlen
  rw [drop_left, take_left] at hat
  obtain ⟨hs, hw⟩ := hat (startsWith_append "R\"" b) hm
  obtain ⟨t, ht⟩ := startsWith_iff.mp hs
  refine ⟨?_, by rwa [Option.or_none]⟩
  rw [show b = '(' :: t from (cons.inj (cons.inj ht).2).2]
  rfl

theorem Lexer.MarksRaw.behind (h : l.MarksRaw before (a ++ s)) :
    (l.run a).MarksRaw (a.getLast?.or before) s := by
  rintro a' b rfl hm
  obtain ⟨hb, hw⟩ := h (a ++ a') b (append_assoc _ _ _).symm (by rw [run_append]; exact hm)
  refine ⟨hb, ?_⟩
  rwa [getLast?_append, Option.or_assoc] at hw

/-! ## 3. Segments masked -/

namespace Segment

/-- What masking makes of a segment: code stays, a literal becomes spaces, and of a raw one the `R`
    stays. -/
def masked (seg : Segment) : Text :=
  match seg.kind with
  | .code => seg.text
  | .literal =>
    if startsWith seg.text "R\"(" then 'R' :: replicate (seg.text.length - 1) ' '
    else replicate seg.text.length ' '
  | .comment => []

theorem masked_onCode (c : Char) (segs : List Segment) :
    (onCode c segs).flatMap masked = c :: segs.flatMap masked := by
  match segs with
  | [] => rfl
  | ⟨.code, _⟩ :: _ => rfl
  | ⟨.literal, _⟩ :: _ => rfl
  | ⟨.comment, _⟩ :: _ => rfl

theorem not_comment_of_opening? {k : SegmentKind} (hline : BareLine (c :: r))
    (h : opening? before (c :: r) = some (k, n)) :
    (∃ r', c = 'R' ∧ r = '"' :: '(' :: r' ∧ k = .literal ∧ n = lengthThrough ")\"" r' + 2)
      ∨ ((c = '"' ∨ c = '\'') ∧ k = .literal ∧ n = quotedLength c r) := by
  rcases opening?_cases h with ⟨r', rfl, rfl, _⟩ | ⟨r', rfl, rfl, _⟩ | ⟨r', hc, hr, _, hk, hn⟩ | hquote
  · cases startsWith_of_not_includes hline.lineComment
  · cases startsWith_of_not_includes hline.blockComment
  · exact .inl ⟨r', hc, hr, hk, hn⟩
  · exact .inr hquote

theorem kind_ne_comment (h : BareLine s) : ∀ seg ∈ scan before s, seg.kind ≠ .comment := by
  fun_induction scan before s with
  | case1 before => exact forall_mem_nil _
  | case2 before c r k n hopen ih =>
    have hline : BareLine ((c :: r.take n) ++ r.drop n) := by
      rw [cons_append, take_append_drop]
      exact h
    intro seg hseg
    rcases mem_cons.mp hseg with rfl | hseg
    · rcases not_comment_of_opening? h hopen with ⟨_, _, _, rfl, _⟩ | ⟨_, rfl, _⟩ <;> rintro ⟨⟩
    · exact ih hline.behind seg hseg
  | case3 before c r hopen ih =>
    have ih := ih (BareLine.behind (a := [c]) h)
    generalize scan (some c) r = segs at ih
    intro seg hseg
    cases segs with
    | nil =>
      rw [mem_singleton.mp hseg]
      rintro ⟨⟩
    | cons first rest =>
      obtain ⟨kind, text⟩ := first
      cases kind with
      | code =>
        rcases mem_cons.mp hseg with rfl | hseg
        · rintro ⟨⟩
        · exact ih seg (mem_cons_of_mem _ hseg)
      | literal =>
        rcases mem_cons.mp hseg with rfl | hseg
        · rintro ⟨⟩
        · exact ih seg hseg
      | comment => exact absurd rfl (ih _ mem_cons_self)

theorem maskFrom_literal (hm : l.mode = .code) {k : SegmentKind} (hq : l.last = 'R' → c ≠ '"')
    (hline : BareLine (c :: r)) (h : opening? before (c :: r) = some (k, n)) :
    l.maskFrom (c :: r.take n) = masked ⟨k, c :: r.take n⟩ ∧
      ((l.run (c :: r.take n)).Fresh ∨ r.drop n = []) := by
  rcases not_comment_of_opening? hline h with ⟨r', rfl, rfl, rfl, rfl⟩ | ⟨hc, rfl, rfl⟩
  · -- the `R` is code to the machine, the quote behind it opens the literal
    have hcode : l.isCode 'R' = true := isCode_of_mode hm rfl
    have hskips : ((l.step 'R').step '"').Skips ('(' :: r') (lengthThrough ")\"" r' + 1) := by
      rw [step_eq_of_isCode hcode]
      refine .cons rfl ?_
      exact skips_raw fun hlast => absurd hlast (by decide)
    refine ⟨?_, hskips.behind⟩
    have hopen : (l.step 'R').isCode '"' = false := by rw [Lexer.isCode, show Lexer.isQuote '"' = true from rfl]; simp
    have hmasked := hskips.masked
    rw [take_succ_cons] at hmasked
    rw [take_succ_cons, take_succ_cons, maskFrom, maskFrom, hcode, hopen, hmasked]
    rfl
  · have hquote : isQuote c = true := by rcases hc with rfl | rfl <;> rfl
    have hopen : l.isCode c = false := by rw [isCode, hquote, Bool.not_true, Bool.and_false]
    have hstep : l.step c = ⟨.quoted c, c⟩ := by
      have hraw : (c == '"' && l.last == 'R') = false := by
        refine Bool.eq_false_iff.mpr fun hb => ?_
        obtain ⟨h1, h2⟩ := Bool.and_eq_true_iff.mp hb
        exact hq (beq_iff_eq.mp h2) (beq_iff_eq.mp h1)
      rw [Lexer.step, hm, Lexer.Mode.next, hraw, hquote]
      rfl
    have hskips : (l.step c).Skips r (quotedLength c r) := by
      rw [hstep]
      exact Lexer.skips_quoted hc (fun hn => hline.newline (mem_cons_of_mem _ hn)) c
    refine ⟨?_, hskips.behind⟩
    have hhead : startsWith (c :: r.take (quotedLength c r)) "R\"(" = false := by
      rcases hc with rfl | rfl <;> rfl
    rw [maskFrom, hopen, hskips.masked, masked, hhead]
    rfl

/-- **A line masked from a machine in code on.** The induction goes over the segments: behind each of
    them the machine is in code again, and where it stands behind an `R`, no double quote follows. -/
theorem maskFrom_scan (hm : l.mode = .code) (hq : l.last = 'R' → s.head? ≠ some '"')
    (hline : BareLine s) (hraw : l.MarksRaw before s) : l.maskFrom s = (scan before s).flatMap masked := by
  fun_induction scan before s generalizing l with
  | case1 before => rfl
  | case2 before c r k n hopen ih =>
    have hs : c :: r = (c :: r.take n) ++ r.drop n := by
      rw [cons_append, take_append_drop]
    obtain ⟨hmasked, hbehind⟩ := maskFrom_literal hm (fun hl hc => hq hl (congrArg some hc)) hline hopen
    rw [hs, Lexer.maskFrom_append, hmasked, flatMap_cons]
    refine congrArg _ ?_
    rcases hbehind with hfresh | hend
    · rw [hs] at hline hraw
      have hraw := hraw.behind
      rw [getLast?_cons_or, show (r.take n).getLast?.or (some c) = some ((r.take n).getLast?.getD c) by
        cases (r.take n).getLast? <;> rfl] at hraw
      exact ih hfresh.mode (fun hl => absurd hl hfresh.last) hline.behind hraw
    · rw [hend, scan]
      rfl
  | case3 before c r hopen ih =>
    have hnoquote : Lexer.isQuote c = false := by
      have hback : c ≠ '\x60' := fun hc => hline.backquote (hc ▸ mem_cons_self)
      have hsingle : ∀ q, q = '"' ∨ q = '\'' → c ≠ q := by
        rintro q hq rfl
        rw [opening?] at hopen
        rcases hq with rfl | rfl <;> cases hopen
      simp [isQuote, hback, hsingle '"' (.inl rfl), hsingle '\'' (.inr rfl)]
    have hcode : l.isCode c = true := Lexer.isCode_of_mode hm hnoquote
    have hnext := ih (Lexer.step_mode_of_isCode hcode) ?_
      (BareLine.behind (a := [c]) hline) (Lexer.MarksRaw.behind (a := [c]) hraw)
    · rw [masked_onCode, Lexer.maskFrom, hcode, if_pos rfl, hnext]
    · -- an `R` in front of a double quote would start a raw literal
      rintro rfl hhead
      obtain ⟨t, rfl⟩ := head?_eq_some_iff.mp hhead
      obtain ⟨hparen, hword⟩ := hraw [] t rfl hm
      obtain ⟨u, rfl⟩ := head?_eq_some_iff.mp hparen
      cases (opening?_rawLiteral hword u).symm.trans hopen

end Segment

/-- **The two readings of a line agree.** On a line without comments in which every `R"` outside
    literals is the head of a raw literal, masking is masking the segments, whether or not the
    literals are closed. -/
theorem mask_eq_segments {s : Text} (hline : BareLine s) (hraw : MarksRaw s) :
    mask s = (segments s).flatMap Segment.masked ∧ ∀ seg ∈ segments s, seg.kind ≠ .comment :=
  ⟨Segment.maskFrom_scan rfl (fun h => absurd h (by decide)) hline hraw.fromStart,
    Segment.kind_ne_comment hline⟩

/-- A raw literal with quotes, escapes of a quote and of a wide character, and a literal left open. -/
def mixedLine : Text := "f(R\"(a \"b\" c)\", \"q\\\"R\\é\", 'R', \"\")+R\"()\"*'\\'\\"

theorem mask_eq_segments_mixedLine :
    BareLine mixedLine ∧ MarksRaw mixedLine ∧
      (segments mixedLine).flatMap Segment.masked = "f(R           ,         ,    ,   )+R    *    " := by
  have hline : BareLine mixedLine := by decide +kernel
  have hraw : MarksRaw mixedLine := by decide +kernel
  refine ⟨hline, hraw, ?_⟩
  rw [← (mask_eq_segments hline hraw).1]
  decide +kernel

end Linewise
