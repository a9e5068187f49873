/-
  The segments of a text with one more blank in front of a line.

  Wherever the newline in front stands, the blank joins the segment it stands in, and every other
  segment is the one it was.
-/
import Linewise.Proofs.CodeText

namespace Linewise

open Text List Segment

variable {c d w : Char} {b b' before : Option Char} {segs : List Segment} {a r s t y code : Text}

/-! ## 1. Margins -/

/-- A character that indents a line. -/
def isMargin (c : Char) : Bool := c == ' ' || c == '\t'

theorem isMargin_elim {p : Char → Prop} (hspace : p ' ') (htab : p '\t') (hw : isMargin w = true) : p w := by
  unfold isMargin at hw
  rw [Bool.or_eq_true, beq_iff_eq, beq_iff_eq] at hw
  rcases hw with rfl | rfl
  · exact hspace
  · exact htab

theorem isBlank_of_isMargin (hw : isMargin w = true) : isBlank w = true :=
  isMargin_elim (p := (isBlank · = true)) rfl rfl hw

theorem ne_newline_of_isMargin (hw : isMargin w = true) : w ≠ '\n' :=
  isMargin_elim (p := (· ≠ '\n')) (by decide) (by decide) hw

namespace Segment

/-! ## 2. Lengths -/

theorem lengthThrough_margin {closing : Text} (hne : closing ≠ []) (hn : '\n' ∉ closing) (hc : w ∉ closing)
    (h : a.length < lengthThrough closing (a ++ '\n' :: y)) :
    lengthThrough closing (a ++ '\n' :: w :: y) = lengthThrough closing (a ++ '\n' :: y) + 1 := by
  -- no closing text starts with a character it does not hold
  have hskip {d : Char} (hd : d ∉ closing) (t : Text) :
      lengthThrough closing (d :: t) = lengthThrough closing t + 1 := by
    rw [lengthThrough_cons, startsWith_of_not_mem hne hd, if_neg Bool.false_ne_true]
  induction a with
  | nil => rw [nil_append, nil_append, hskip hn, hskip hn, hskip hc]
  | cons c a ih =>
    rw [cons_append, lengthThrough_cons, ← cons_append, startsWith_append_cons hn] at h
    rw [cons_append, lengthThrough_cons, cons_append, lengthThrough_cons, ← cons_append,
      ← cons_append, startsWith_append_cons hn, startsWith_append_cons hn]
    by_cases hs : startsWith (c :: a) closing = true
    · -- the closing text stands in front of the newline
      rw [if_pos hs] at h
      obtain ⟨r, hr⟩ := startsWith_iff.mp hs
      rw [hr, length_append] at h
      omega
    · rw [if_neg hs, length_cons] at h
      rw [if_neg hs, if_neg hs, ih (by omega)]

section

variable {w : Char} (hw : isMargin w = true)

include hw

theorem opening?_of_isMargin (before : Option Char) (r : Text) : opening? before (w :: r) = none :=
  opening?_of_not_mem (not_mark_of_isBlank (isBlank_of_isMargin hw)) before r

theorem sameSide_margin : SameSide (some '\n') (some w) :=
  isMargin_elim (p := fun w => SameSide (some '\n') (some w)) (by unfold SameSide; decide)
    (by unfold SameSide; decide) hw

theorem quotedLength_margin {q : Char} (hq : q ≠ w) (hb : '\\' ≠ w) (a y : Text)
    (h : a.length < quotedLength q (a ++ '\n' :: y)) :
    quotedLength q (a ++ '\n' :: w :: y) = quotedLength q (a ++ '\n' :: y) + 1 := by
  have hblank (t : Text) : quotedLength q (w :: t) = quotedLength q t + 1 := by
    rw [quotedLength_cons hb.symm (ne_newline_of_isMargin hw)]
    exact if_neg (by simpa using hq.symm)
  cases a with
  | nil => cases h
  | cons c a =>
    by_cases hc : c = '\\'
    · subst hc
      cases a with
      | nil =>
        show quotedLength q (w :: y) + 2 = quotedLength q y + 2 + 1
        rw [hblank]
      | cons d a =>
        have hlt : a.length < quotedLength q (a ++ '\n' :: y) := by
          have : a.length + 2 < quotedLength q (a ++ '\n' :: y) + 2 := h
          omega
        show quotedLength q (a ++ '\n' :: w :: y) + 2 = quotedLength q (a ++ '\n' :: y) + 2 + 1
        rw [quotedLength_margin hq hb a y hlt]
    · by_cases hn : c = '\n'
      · subst hn
        cases h
      · rw [cons_append, length_cons, quotedLength_cons hc hn] at h
        rw [cons_append, cons_append, quotedLength_cons hc hn, quotedLength_cons hc hn]
        split at h
        · omega
        · rename_i hcq
          rw [if_neg hcq, if_neg hcq, quotedLength_margin hq hb a y (by omega)]
termination_by a.length

end

theorem lineLength_le (a y : Text) : lineLength (a ++ '\n' :: y) ≤ a.length := by
  unfold lineLength
  induction a with
  | nil => exact Nat.le_refl _
  | cons c a ih =>
    rw [cons_append, takeWhile_cons]
    split
    · exact Nat.succ_le_succ ih
    · exact Nat.zero_le _

theorem opening?_margin (hw : isMargin w = true) {k : SegmentKind} {n : Nat}
    (h : opening? before (c :: (a ++ '\n' :: y)) = some (k, n)) (hn : a.length < n) :
    opening? before (c :: (a ++ '\n' :: w :: y)) = some (k, n + 1) := by
  have hstar : w ∉ ("*/" : Text) := isMargin_elim (p := (· ∉ ("*/" : Text))) (by decide) (by decide) hw
  have hraw : w ∉ (")\"" : Text) := isMargin_elim (p := (· ∉ (")\"" : Text))) (by decide) (by decide) hw
  rcases opening?_cases h with ⟨r, rfl, he, rfl, rfl⟩ | ⟨r, rfl, he, rfl, rfl⟩ | ⟨r, rfl, he, hb, rfl, rfl⟩
    | ⟨hc, rfl, rfl⟩
  · exact absurd hn (Nat.not_lt.mpr (lineLength_le a y))
  · cases a with
    | nil => cases he
    | cons d a =>
      rw [cons_append] at he
      obtain ⟨rfl, rfl⟩ := cons.inj he
      have hlt : a.length < lengthThrough "*/" (a ++ '\n' :: y) := Nat.lt_of_succ_lt_succ hn
      show some (SegmentKind.comment, lengthThrough "*/" (a ++ '\n' :: w :: y) + 1) = _
      rw [lengthThrough_margin (by decide) (by decide) hstar hlt]
  · match a, he with
    | [], he => cases he
    | [d], he => cases (cons.inj he).2
    | d :: e :: a, he =>
      rw [cons_append, cons_append] at he
      obtain ⟨rfl, htail⟩ := cons.inj he
      obtain ⟨rfl, rfl⟩ := cons.inj htail
      have hlt : a.length < lengthThrough ")\"" (a ++ '\n' :: y) :=
        Nat.lt_of_succ_lt_succ (Nat.lt_of_succ_lt_succ hn)
      rw [cons_append, cons_append, opening?_rawLiteral hb,
        lengthThrough_margin (by decide) (by decide) hraw hlt]
  · have hquote : c ≠ w ∧ '\\' ≠ w := by
      rcases hc with rfl | rfl
      · exact isMargin_elim (p := fun w => '"' ≠ w ∧ '\\' ≠ w) (by decide) (by decide) hw
      · exact isMargin_elim (p := fun w => '\'' ≠ w ∧ '\\' ≠ w) (by decide) (by decide) hw
    rw [opening?_quote hc, quotedLength_margin hw hquote.1 hquote.2 a y hn]

/-! ## 3. Code in front of a line -/

theorem opening?_append_isSome (h : (opening? before (c :: r)).isSome = true) (t : Text) :
    (opening? before (c :: (r ++ t))).isSome = true := by
  obtain ⟨⟨k, n⟩, hp⟩ := Option.isSome_iff_exists.mp h
  rcases opening?_cases hp with ⟨u, rfl, rfl, _⟩ | ⟨u, rfl, rfl, _⟩ | ⟨u, rfl, rfl, hb, _⟩ | ⟨rfl | rfl, _⟩
  · rfl
  · rfl
  · rw [cons_append, cons_append, opening?_rawLiteral hb]
    rfl
  · rfl
  · rfl

theorem opening?_cons_congr (hd : d ∉ ("/*\"(" : Text)) (h : opening? before (c :: (r ++ d :: t)) = none)
    (t' : Text) : opening? before (c :: (r ++ d :: t')) = none := by
  refine opening?_append_cons hd ?_ t'
  cases ho : opening? before (c :: r) with
  | none => rfl
  | some p =>
    have := opening?_append_isSome (by rw [ho]; rfl) (d :: t)
    rw [h] at this
    cases this

theorem isCode_cons_congr (hd : d ∉ ("/*\"(" : Text)) (h : IsCode before code (r ++ d :: t)) (t' : Text) :
    IsCode before code (r ++ d :: t') := by
  induction code generalizing before with
  | nil => trivial
  | cons c code ih =>
    refine ⟨?_, ih h.2⟩
    have hopen := h.1
    rw [← append_assoc] at hopen ⊢
    exact opening?_cons_congr hd hopen t'

theorem isCode_congr (hb : SameSide b b') {rest : Text} (h : IsCode b code rest) : IsCode b' code rest := by
  cases code with
  | nil => trivial
  | cons c code => exact ⟨opening?_congr hb _ ▸ h.1, h.2⟩

theorem Cut.of_opening? (h : Cut b s segs) (hb : opening? b s = opening? b' s) : Cut b' s segs := by
  cases h with
  | nil => exact .nil b'
  | @code _ code rest _ hne hcode hstop hrest =>
    cases code with
    | nil => exact absurd rfl hne
    | cons c code => exact .code hne ⟨hb ▸ hcode.1, hcode.2⟩ hstop hrest
  | mark hopen hrest => exact .mark (hb ▸ hopen) hrest

theorem Cut.congr (h : Cut b s segs) (hb : SameSide b b') : Cut b' s segs :=
  h.of_opening? (opening?_congr hb s)

theorem scan_congr (hb : SameSide b b') (s : Text) : scan b s = scan b' s :=
  ((cut_scan b s).congr hb).eq_scan.symm

/-! ## 4. The segments -/

/-- The same segments, with the blank `w` behind a newline of one of them. -/
inductive Widened (w : Char) : List Segment → List Segment → Prop where
  | here (k : SegmentKind) (x y : Text) (segs : List Segment) :
    Widened w (⟨k, x ++ '\n' :: y⟩ :: segs) (⟨k, x ++ '\n' :: w :: y⟩ :: segs)
  | there (seg : Segment) {segs segs' : List Segment} (h : Widened w segs segs') :
    Widened w (seg :: segs) (seg :: segs')

theorem Widened.kind_head {segs' : List Segment} (h : Widened w segs segs') :
    segs'.head?.map (·.kind) = segs.head?.map (·.kind) := by
  cases h <;> rfl

theorem sameSide_getLast? (hw : isMargin w = true) (x y : Text) :
    SameSide (x ++ '\n' :: y).getLast? (x ++ '\n' :: w :: y).getLast? := by
  rw [getLast?_append_cons, getLast?_append_cons, getLast?_cons]
  cases y.getLast? with
  | none => exact sameSide_margin hw
  | some c => rfl

/-- A blank behind a newline widens one segment. -/
theorem Cut.margin (hw : isMargin w = true) (h : Cut before s segs) {b : Text} (hs : s = a ++ '\n' :: b) :
    ∃ segs', Cut before (a ++ '\n' :: w :: b) segs' ∧ Widened w segs segs' := by
  induction h generalizing a with
  | nil => simp at hs
  | @code before code rest segs hne hcode hstop hrest ih =>
    -- the newline stands in this stretch of code, or behind it
    rcases append_eq_append_iff.mp hs with ⟨m, rfl, hm⟩ | ⟨m, rfl, hm⟩
    · obtain ⟨segs', hcut, hwide⟩ := ih hm
      have hstop' := hrest.stops_of_kinds hstop hcut hwide.kind_head
      rw [hm] at hcode
      rw [append_assoc]
      exact ⟨_, .code hne (isCode_cons_congr (by decide) hcode _) hstop' hcut, .there _ hwide⟩
    · cases m with
      | nil =>
        rw [nil_append] at hm
        rw [← hm] at hstop
        rcases hstop with hstop | hstop
        · cases hstop
        · rw [opening?_of_not_mem (by decide)] at hstop
          cases hstop
      | cons d m =>
        obtain ⟨rfl, rfl⟩ := cons.inj hm
        obtain ⟨hfront, hnewline, hbehind⟩ := isCode_append.mp hcode
        have hside := sameSide_getLast? hw a m
        have hcode' : IsCode before (a ++ '\n' :: w :: m) rest := by
          refine isCode_append.mpr ⟨isCode_cons_congr (by decide) (r := []) hfront (w :: m ++ rest), ?_,
            opening?_of_isMargin hw _ _, ?_⟩
          · exact opening?_of_not_mem (by decide) _ _
          · exact isCode_congr (sameSide_margin hw) hbehind
        have hstop' : Stops (a ++ '\n' :: w :: m).getLast? rest := by
          unfold Stops
          rw [← opening?_congr hside]
          exact hstop
        have hcut := Cut.code (append_cons_ne_nil a) hcode' hstop'
          (hrest.congr hside)
        rw [append_assoc] at hcut
        exact ⟨_, hcut, .here _ _ _ _⟩
  | @mark before c r k n segs hopen hrest ih =>
    cases a with
    | nil =>
      obtain ⟨rfl, _⟩ := cons.inj hs
      exact absurd (head_of_opening? hopen) (by decide)
    | cons d a =>
      rw [cons_append] at hs
      obtain ⟨rfl, rfl⟩ := cons.inj hs
      by_cases hn : n ≤ a.length
      · -- the newline stands behind the literal or comment
        have hdrop : (a ++ '\n' :: b).drop n = a.drop n ++ '\n' :: b := drop_append_of_le_length hn
        have htake : ∀ t, (a ++ '\n' :: t).take n = a.take n := fun t => take_append_of_le_length hn
        obtain ⟨segs', hcut, hwide⟩ := ih hdrop
        obtain ⟨follow, _, hallows, hstable, _⟩ := exists_follow hopen
        have hallows' : follow.Allows (a.drop n ++ '\n' :: w :: b) := by
          rw [hdrop] at hallows
          cases follow with
          | anything => trivial
          | lineEnd =>
            refine .inr ?_
            rcases hallows with hallows | hallows
            · simp at hallows
            · rw [head?_append] at hallows ⊢
              exact hallows
          | nothing => simp [Follow.Allows] at hallows
        have hopen' := hstable _ hallows'
        rw [htake, ← append_assoc, take_append_drop] at hopen'
        rw [htake] at hcut ⊢
        have hmark := @Cut.mark _ _ _ _ _ segs' hopen'
        rw [htake, drop_append_of_le_length hn] at hmark
        exact ⟨_, hmark hcut, .there _ hwide⟩
      · -- it stands inside
        obtain ⟨j, rfl⟩ : ∃ j, n = a.length + (j + 1) := ⟨n - a.length - 1, by omega⟩
        have hopen' := opening?_margin hw hopen (by omega)
        have htake : (a ++ '\n' :: b).take (a.length + (j + 1)) = a ++ '\n' :: b.take j := by
          rw [take_length_add_append, take_succ_cons]
        have htake' : (a ++ '\n' :: w :: b).take (a.length + (j + 1) + 1) = a ++ '\n' :: w :: b.take j := by
          rw [Nat.add_assoc, take_length_add_append, take_succ_cons, take_succ_cons]
        have hdrop : (a ++ '\n' :: b).drop (a.length + (j + 1)) = b.drop j := by
          rw [drop_length_add_append, drop_succ_cons]
        have hdrop' : (a ++ '\n' :: w :: b).drop (a.length + (j + 1) + 1) = b.drop j := by
          rw [Nat.add_assoc, drop_length_add_append, drop_succ_cons, drop_succ_cons]
        have hside : SameSide (some ((a ++ '\n' :: b.take j).getLast?.getD c))
            (some ((a ++ '\n' :: w :: b.take j).getLast?.getD c)) := by
          have := sameSide_getLast? hw a (b.take j)
          rw [getLast?_append_cons, getLast?_append_cons] at this ⊢
          exact this
        have hmark := @Cut.mark _ _ _ _ _ segs hopen'
        rw [htake', hdrop'] at hmark
        rw [htake, hdrop] at hrest
        rw [htake]
        exact ⟨_, hmark (hrest.congr hside), .here k (c :: a) (b.take j) segs⟩

end Segment

theorem segments_margin (hw : isMargin w = true) (a b : Text) :
    Widened w (segments (a ++ '\n' :: b)) (segments (a ++ '\n' :: w :: b)) := by
  obtain ⟨segs, hcut, hwide⟩ := (cut_scan none (a ++ '\n' :: b)).margin hw rfl
  rw [segments, segments, hcut.eq_scan]
  exact hwide

theorem segments_margin_cons (hw : isMargin w = true) (s : Text) :
    segments (w :: s) = onCode w (segments s) := by
  have hside : SameSide (some w) none :=
    isMargin_elim (p := fun w => SameSide (some w) none) (by unfold SameSide; decide)
      (by unfold SameSide; decide) hw
  rw [segments, segments, scan, opening?_of_isMargin hw, scan_congr hside]

end Linewise
