/-
  The code of a program that is put together from parts.

  What the passes find in the code of a whole program is what they find in its parts.
-/
import Linewise.Proofs.Lines
import Linewise.Proofs.Symbols

namespace Linewise

open Text List

variable {c : Char} {a r s word : Text} {before : Option Char}

/-! ## 1. Words -/

/-- A symbol with a path for its spelling. -/
def IsWord (word : Text) : Prop := word ≠ [] ∧ IsPath word

instance (word : Text) : Decidable (IsWord word) := inferInstanceAs (Decidable (_ ∧ _))

/-- The word stands somewhere in the text, apart from its neighbours. -/
def Stands (word s : Text) : Prop :=
  ∃ a b, s = a ++ (word ++ b) ∧ standsAlone word a.getLast? b.head? = true

theorem containsFrom_iff (hw : IsWord word) (skip : Nat) (before : Option Char) (s : Text)
    (hskip : IsPath (s.take skip)) (hbefore : skip ≠ 0 → ∃ c, before = some c ∧ isPathChar c = true) :
    containsFrom word skip before s = true ↔
      ∃ a b, s = a ++ (word ++ b) ∧ standsAlone word (a.getLast?.or before) b.head? = true := by
  induction s generalizing skip before with
  | nil =>
    have hne := hw.1
    cases skip <;> simp [containsFrom, hne]
  | cons c r ih =>
    -- what is found behind `c` is found in the whole
    have behind : (∃ a b, c :: r = a ++ (word ++ b) ∧ standsAlone word (a.getLast?.or before) b.head? = true) ↔
        (∃ b, c :: r = word ++ b ∧ standsAlone word before b.head? = true) ∨
          ∃ a b, r = a ++ (word ++ b) ∧ standsAlone word (a.getLast?.or (some c)) b.head? = true := by
      constructor
      · intro ⟨a, b, hr, hs⟩
        cases a with
        | nil => exact .inl ⟨b, hr, hs⟩
        | cons d a =>
          obtain ⟨hd, hr⟩ := cons.inj hr
          rw [getLast?_cons_or, ← hd] at hs
          exact .inr ⟨a, b, hr, hs⟩
      · intro h
        rcases h with ⟨b, hr, hs⟩ | ⟨a, b, hr, hs⟩
        · exact ⟨[], b, hr, hs⟩
        · exact ⟨c :: a, b, by rw [hr]; rfl, by rw [getLast?_cons_or]; exact hs⟩
    rw [behind]
    cases skip with
    | succ skip =>
      have hc : isPathChar c = true := hskip c (by simp)
      rw [containsFrom, ih skip (some c) (fun d hd => hskip d (by simp [hd])) fun _ => ⟨c, rfl, hc⟩]
      obtain ⟨d, rfl, hd⟩ := hbefore (Nat.succ_ne_zero skip)
      simp [standsAlone_of_path hd]
    | zero =>
      rw [containsFrom]
      split
      · rename_i hs
        obtain ⟨t, ht⟩ := startsWith_iff.mp hs
        obtain ⟨d, p, rfl⟩ := exists_cons_of_ne_nil hw.1
        obtain ⟨rfl, hr⟩ : c = d ∧ r = p ++ t := cons.inj ht
        have hpath : IsPath (r.take p.length) := by
          rw [hr, take_left]
          exact (forall_mem_cons.mp hw.2).2
        have hhead : (∃ b, c :: r = (c :: p) ++ b ∧ standsAlone (c :: p) before b.head? = true) ↔
            standsAlone (c :: p) before t.head? = true := by
          simp [hr]
        rw [hhead, Bool.or_eq_true, ht, drop_left, length_cons, Nat.add_sub_cancel,
          ih p.length (some c) hpath fun _ => ⟨c, rfl, hw.2 c mem_cons_self⟩]
      · rename_i hs
        rw [ih 0 (some c) (fun d hd => absurd hd (by simp)) fun h => absurd rfl h]
        have hno : ¬ ∃ b, c :: r = word ++ b ∧ standsAlone word before b.head? = true :=
          fun ⟨b, hb, _⟩ => hs (startsWith_iff.mpr ⟨b, hb⟩)
        simp [hno]

/-- A word is found where it stands, and only there. -/
theorem containsWord_iff (hw : IsWord word) (s : Text) : containsWord s word = true ↔ Stands word s := by
  have := containsFrom_iff hw 0 none s (fun c hc => absurd hc (by simp)) fun h => absurd rfl h
  simp only [Option.or_none] at this
  exact this

theorem not_stands_nil (hw : IsWord word) : ¬ Stands word [] := by
  intro ⟨a, b, he, _⟩
  simp [hw.1] at he

theorem mem_of_stands (h : Stands word s) (hc : c ∈ word) : c ∈ s := by
  obtain ⟨a, b, rfl, _⟩ := h
  simp [hc]

theorem newline_not_path : isPathChar '\n' = false := rfl

theorem not_isBlank_of_isPathChar (h : isPathChar c = true) : isBlank c = false := by
  unfold isPathChar at h
  rw [Bool.or_eq_true, Bool.or_eq_true, beq_iff_eq, beq_iff_eq] at h
  rcases h with (h | rfl) | rfl
  · exact not_isBlank_of_isWordChar h
  · decide
  · decide

section

variable {d : Char} (hd : isPathChar d = false)

include hd

theorem standsAlone_behind (word : Text) (before : Option Char) (b t : Text) :
    standsAlone word before (b ++ d :: t).head? = standsAlone word before b.head? := by
  cases b with
  | cons c b => rfl
  | nil =>
    unfold isPathChar at hd
    rw [Bool.or_eq_false_iff, Bool.or_eq_false_iff] at hd
    unfold standsAlone
    rw [nil_append, head?_cons, Option.all_some, hd.1.1]
    rfl

theorem standsAlone_before (word : Text) (s a : Text) (after : Option Char) :
    standsAlone word (s ++ d :: a).getLast? after = standsAlone word a.getLast? after := by
  rw [getLast?_append, getLast?_cons_or]
  cases a.getLast? with
  | none => exact standsAlone_of_not_path hd word after
  | some c => rfl

theorem stands_append (hw : IsWord word) (s t : Text) :
    Stands word (s ++ d :: t) ↔ Stands word s ∨ Stands word t := by
  have hn : d ∉ word := fun h => Bool.false_ne_true (hd.symm.trans (hw.2 d h))
  constructor
  · intro ⟨a, b, he, hs⟩
    rcases append_eq_append_iff.mp he with ⟨m, rfl, hm⟩ | ⟨m, rfl, hm⟩
    · -- the word begins behind the character
      cases m with
      | nil =>
        obtain ⟨c, p, rfl⟩ := exists_cons_of_ne_nil hw.1
        exact absurd (by rw [(cons.inj hm).1]; exact mem_cons_self) hn
      | cons c m =>
        obtain ⟨rfl, rfl⟩ := cons.inj hm
        rw [standsAlone_before hd] at hs
        exact .inr ⟨m, b, rfl, hs⟩
    · obtain ⟨x, rfl⟩ := prefix_of_append_cons hn ⟨b, hm⟩
      rw [append_assoc] at hm
      obtain rfl := append_cancel_left hm
      rw [standsAlone_behind hd] at hs
      exact .inl ⟨a, x, rfl, hs⟩
  · intro h
    rcases h with ⟨a, b, rfl, hs⟩ | ⟨a, b, rfl, hs⟩
    · exact ⟨a, b ++ d :: t, by simp, by rwa [standsAlone_behind hd]⟩
    · exact ⟨s ++ d :: a, b, by simp, by rwa [standsAlone_before hd]⟩

end

/-! ## 2. The code of a text, read character by character -/

namespace Segment

/-- The code of a text behind the character `before`, the first `skip` characters passed over. -/
def codeFrom : Option Char → Nat → Text → Text
  | _, _, [] => []
  | _, skip + 1, c :: r => codeFrom (some c) skip r
  | before, 0, c :: r =>
    match opening? before (c :: r) with
    | some (_, n) => ' ' :: codeFrom (some c) n r
    | none => c :: codeFrom (some c) 0 r

theorem codeFrom_skip (before : Option Char) (n : Nat) (s : Text) :
    codeFrom before n s = codeFrom ((s.take n).getLast?.or before) 0 (s.drop n) := by
  induction n generalizing before s with
  | zero => rfl
  | succ n ih =>
    cases s with
    | nil => rfl
    | cons c r => rw [codeFrom, ih, take_succ_cons, drop_succ_cons, getLast?_cons_or]

/-- What a segment adds to the code. -/
def shown (seg : Segment) : Text := if seg.kind == .code then seg.text else [' ']

theorem shown_onCode (c : Char) (segs : List Segment) :
    ((onCode c segs).map shown).flatten = c :: (segs.map shown).flatten := by
  match segs with
  | [] => rfl
  | ⟨.code, _⟩ :: _ => rfl
  | ⟨.literal, _⟩ :: _ => rfl
  | ⟨.comment, _⟩ :: _ => rfl

theorem shown_scan (before : Option Char) (s : Text) :
    ((scan before s).map shown).flatten = codeFrom before 0 s := by
  fun_induction scan before s with
  | case1 before => rfl
  | case2 before c r k n hopen ih =>
    have hmark : shown ⟨k, c :: r.take n⟩ = [' '] := by
      have := kind_of_opening? hopen
      simp [shown, this]
    have hlast : some ((r.take n).getLast?.getD c) = (r.take n).getLast?.or (some c) := by
      cases (r.take n).getLast? <;> rfl
    rw [map_cons, flatten_cons, ih, hmark, hlast, ← codeFrom_skip, codeFrom, hopen]
    rfl
  | case3 before c r hopen ih => rw [shown_onCode, ih, codeFrom, hopen]

theorem codeFrom_congr {b b' : Option Char} (h : SameSide b b') (s : Text) : codeFrom b 0 s = codeFrom b' 0 s := by
  cases s with
  | nil => rfl
  | cons c r => rw [codeFrom, codeFrom, opening?_congr h]

theorem opening?_of_not_mem (h : c ∉ ("/R\"'" : Text)) (before : Option Char) (r : Text) :
    opening? before (c :: r) = none := by
  cases ho : opening? before (c :: r) with
  | none => rfl
  | some p => exact absurd (head_of_opening? ho) h

theorem codeFrom_newline (before : Option Char) (s : Text) :
    codeFrom before 0 ('\n' :: s) = '\n' :: codeFrom none 0 s := by
  rw [codeFrom, opening?_of_not_mem (by decide)]
  exact congrArg _ (codeFrom_congr (by show isWordChar '\n' = false; decide) s)

theorem opening?_append_cons {d : Char} (hd : d ∉ ("/*\"(" : Text)) (h : opening? before (c :: r) = none)
    (t : Text) : opening? before (c :: (r ++ d :: t)) = none := by
  cases ho : opening? before (c :: (r ++ d :: t)) with
  | none => rfl
  | some p =>
    rcases opening?_cases ho with ⟨u, rfl, he, _⟩ | ⟨u, rfl, he, _⟩ | ⟨u, rfl, he, hb, _⟩ | ⟨rfl | rfl, _⟩
    · cases r with
      | nil => exact absurd (by rw [(cons.inj he).1]; decide) hd
      | cons e r =>
        rw [(cons.inj he).1] at h
        cases h
    · cases r with
      | nil => exact absurd (by rw [(cons.inj he).1]; decide) hd
      | cons e r =>
        rw [(cons.inj he).1] at h
        cases h
    · match r, he with
      | [], he => exact absurd (by rw [(cons.inj he).1]; decide) hd
      | [e], he => exact absurd (by rw [(cons.inj (cons.inj he).2).1]; decide) hd
      | e :: x :: r, he =>
        obtain ⟨hx, he⟩ := cons.inj he
        rw [hx, (cons.inj he).1, opening?_rawLiteral hb] at h
        cases h
    · cases h
    · cases h

theorem opening?_append_newline (h : opening? before (c :: r) = none) (t : Text) :
    opening? before (c :: (r ++ '\n' :: t)) = none :=
  opening?_append_cons (by decide) h t

/-- Every literal and comment of the text ends in it, also when a line follows. -/
def closes : Option Char → Nat → Text → Bool
  | _, skip, [] => skip == 0
  | _, skip + 1, c :: r => closes (some c) skip r
  | before, 0, c :: r =>
    match opening? before (c :: r) with
    | some (k, n) => opening? before (c :: (r.take n ++ ['\n'])) == some (k, n) && closes (some c) n r
    | none => closes (some c) 0 r

theorem opening?_append {k : SegmentKind} {n : Nat} (h : opening? before (c :: r) = some (k, n))
    (hn : opening? before (c :: (r.take n ++ ['\n'])) = some (k, n)) (t : Text) :
    opening? before (c :: (r ++ '\n' :: t)) = some (k, n) := by
  obtain ⟨w, hle, hw, hstable, _⟩ := exists_follow h
  cases hr : r.drop n with
  | cons d u =>
    -- what ended it is in the text
    have hallows : w.Allows (r.drop n ++ '\n' :: t) := by
      rw [hr] at hw ⊢
      cases w with
      | anything => trivial
      | lineEnd => exact .inr (hw.resolve_left (cons_ne_nil d u))
      | nothing => cases hw
    have := hstable _ hallows
    rwa [← append_assoc, take_append_drop] at this
  | nil =>
    have hlen : r.length = n := Nat.le_antisymm (drop_eq_nil_iff.mp hr) hle
    obtain ⟨w', _, hw', hstable', _⟩ := exists_follow hn
    rw [← hlen, take_length] at hw' hstable'
    rw [drop_left] at hw'
    have hallows : w'.Allows ('\n' :: t) := by
      cases w' with
      | anything => trivial
      | lineEnd => exact .inr rfl
      | nothing => cases hw'
    have := hstable' _ hallows
    rwa [take_left, hlen] at this

theorem codeFrom_append {skip : Nat} (h : closes before skip a = true) (b : Text) :
    codeFrom before skip (a ++ '\n' :: b) = codeFrom before skip a ++ '\n' :: codeFrom none 0 b := by
  induction a generalizing before skip with
  | nil =>
    cases skip with
    | zero => exact codeFrom_newline before b
    | succ skip => cases h
  | cons c r ih =>
    cases skip with
    | succ skip => exact ih h
    | zero =>
      rw [closes] at h
      rw [cons_append, codeFrom, codeFrom]
      cases ho : opening? before (c :: r) with
      | none =>
        rw [ho] at h
        rw [opening?_append_newline ho]
        exact congrArg _ (ih h)
      | some p =>
        obtain ⟨k, n⟩ := p
        rw [ho] at h
        obtain ⟨hn, hrest⟩ := Bool.and_eq_true_iff.mp h
        rw [opening?_append ho (beq_iff_eq.mp hn)]
        exact congrArg _ (ih hrest)

theorem codeFrom_concat_newline (before : Option Char) (skip : Nat) (s : Text) (h : skip ≤ s.length) :
    codeFrom before skip (s ++ ['\n']) = codeFrom before skip s ∨
      codeFrom before skip (s ++ ['\n']) = codeFrom before skip s ++ ['\n'] := by
  induction s generalizing before skip with
  | nil =>
    obtain rfl : skip = 0 := Nat.le_zero.mp h
    exact .inr (codeFrom_newline before [])
  | cons c r ih =>
    cases skip with
    | succ skip => exact ih (some c) skip (Nat.le_of_succ_le_succ h)
    | zero =>
      rw [cons_append, codeFrom, codeFrom]
      cases ho : opening? before (c :: r) with
      | none =>
        rw [opening?_append_newline ho]
        exact (ih (some c) 0 (Nat.zero_le _)).imp (congrArg _) (congrArg _)
      | some p =>
        obtain ⟨k, n⟩ := p
        obtain ⟨w, hle, hw, hstable, hopen⟩ := exists_follow ho
        have hstays (hallows : w.Allows (r.drop n ++ ['\n'])) :
            opening? before (c :: (r ++ ['\n'])) = some (k, n) := by
          have := hstable _ hallows
          rwa [← append_assoc, take_append_drop] at this
        cases w with
        | anything =>
          rw [hstays trivial]
          exact (ih (some c) n hle).imp (congrArg _) (congrArg _)
        | lineEnd =>
          have hallows : Follow.lineEnd.Allows (r.drop n ++ ['\n']) := by
            refine .inr ?_
            rcases hw with hw | hw
            · rw [hw]
              rfl
            · rw [head?_append, hw]
              rfl
          rw [hstays hallows]
          exact (ih (some c) n hle).imp (congrArg _) (congrArg _)
        | nothing =>
          have hlen : r.length ≤ n := drop_eq_nil_iff.mp hw
          rw [hopen rfl]
          refine .inl (congrArg (' ' :: ·) ?_)
          rw [codeFrom_skip, codeFrom_skip _ n, drop_eq_nil_iff.mpr hlen,
            drop_eq_nil_iff.mpr (by rw [length_append, length_singleton]; omega), codeFrom,
            codeFrom]

end Segment

open Segment

theorem codeText_eq (s : Text) : codeText s = codeFrom none 0 s := shown_scan none s

theorem not_mark_of_isBlank (h : isBlank c = true) : c ∉ ("/R\"'" : Text) := by
  have hmarks : ∀ d ∈ ("/R\"'" : Text), isBlank d = false := by decide
  intro hm
  rw [hmarks c hm] at h
  cases h

theorem codeText_of_blank (h : Blank s) : codeText s = s := by
  rw [codeText_eq]
  generalize (none : Option Char) = before
  induction s generalizing before with
  | nil => rfl
  | cons c r ih =>
    rw [codeFrom, opening?_of_not_mem (not_mark_of_isBlank (h c mem_cons_self))]
    exact congrArg _ (ih (forall_mem_cons.mp h).2 (some c))

/-! ## 3. Parts -/

/-- **The text leaves nothing open**: what follows on the next line is read as on its own. -/
def Complete (a : Text) : Prop := ∀ b, codeText (a ++ '\n' :: b) = codeText a ++ '\n' :: codeText b

theorem complete_of_closes (h : closes none 0 a = true) : Complete a := by
  intro b
  simp only [codeText_eq]
  exact codeFrom_append h b

theorem complete_of_blank (h : Blank a) : Complete a := by
  refine complete_of_closes ?_
  generalize (none : Option Char) = before
  induction a generalizing before with
  | nil => rfl
  | cons c r ih =>
    rw [closes, opening?_of_not_mem (not_mark_of_isBlank (h c mem_cons_self))]
    exact ih (forall_mem_cons.mp h).2 (some c)

theorem Complete.append {b : Text} (ha : Complete a) (hb : Complete b) : Complete (a ++ '\n' :: b) := by
  intro c
  rw [append_assoc, cons_append, ha, hb, ha, append_assoc, cons_append]

/-- The word stands in the code of the text. -/
def Mentions (s word : Text) : Prop := Stands word (codeText s)

section

variable {word : Text} (hw : IsWord word)

include hw

theorem mentions_iff (s : Text) : Mentions s word ↔ containsWord (codeText s) word = true :=
  (containsWord_iff hw _).symm

theorem mentions_append (ha : Complete a) (b : Text) :
    Mentions (a ++ '\n' :: b) word ↔ Mentions a word ∨ Mentions b word := by
  unfold Mentions
  rw [ha b]
  exact stands_append newline_not_path hw _ _

theorem not_mentions_of_blank (h : Blank s) : ¬ Mentions s word := by
  intro hm
  obtain ⟨c, p, rfl⟩ := exists_cons_of_ne_nil hw.1
  have hc := mem_of_stands hm mem_cons_self
  rw [codeText_of_blank h] at hc
  have hblank := h c hc
  rw [not_isBlank_of_isPathChar (hw.2 c mem_cons_self)] at hblank
  cases hblank

theorem mentions_concat_newline (s : Text) : Mentions (s ++ ['\n']) word ↔ Mentions s word := by
  unfold Mentions
  rw [codeText_eq, codeText_eq]
  rcases codeFrom_concat_newline none 0 s (Nat.zero_le _) with h | h
  · rw [h]
  · rw [h, stands_append newline_not_path hw]
    exact or_iff_left (not_stands_nil hw)

end

/-! ## 4. Lines -/

theorem complete_unlines {parts : List Text} (h : ∀ a ∈ parts, Complete a) : Complete (unlines parts) := by
  induction parts with
  | nil => exact complete_of_blank blank_nil
  | cons a parts ih =>
    have ha := h a mem_cons_self
    cases parts with
    | nil =>
      rw [unlines_singleton]
      exact ha
    | cons b parts =>
      rw [unlines_cons_cons]
      exact ha.append (ih (forall_mem_cons.mp h).2)

theorem mentions_unlines (hw : IsWord word) {parts : List Text} (h : ∀ a ∈ parts, Complete a) :
    Mentions (unlines parts) word ↔ ∃ a ∈ parts, Mentions a word := by
  induction parts with
  | nil =>
    have hnil : ¬ Mentions (unlines []) word := not_mentions_of_blank hw blank_nil
    simp [hnil]
  | cons a parts ih =>
    cases parts with
    | nil => simp [unlines_singleton]
    | cons b parts =>
      rw [unlines_cons_cons, mentions_append hw (h a mem_cons_self),
        ih (forall_mem_cons.mp h).2]
      simp

end Linewise
