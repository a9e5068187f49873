/-
  Where the head of a range loop is cut.

  The word ` range ` is searched for in the masked head, which has one byte for every character of a
  literal. So the cut goes wrong in two ways:

      m["日本"] = range xs    the cut lies four bytes in front of the word
      i := range"abc"         the quote is taken for the blank behind the word
-/
import Linewise.Proofs.Bytes
import Linewise.Proofs.Masking

namespace Linewise

open Text List Lexer Utf8

variable {l : Lexer} {s w head : Text} {c : Char}

/-! ## 1. Bytes that masking takes away -/

namespace Utf8

theorem splitAt?_eq_some_iff {n : Nat} {a b : Text} : splitAt? n s = some (a, b) ↔ s = a ++ b ∧ size a = n := by
  constructor
  · intro h
    induction s generalizing n a with
    | nil =>
      cases n with
      | zero =>
        cases h
        exact ⟨rfl, rfl⟩
      | succ n => cases h
    | cons c r ih =>
      cases n with
      | zero =>
        cases h
        exact ⟨rfl, rfl⟩
      | succ n =>
        unfold splitAt? at h
        split at h
        · rename_i hle
          obtain ⟨⟨a', b'⟩, hrest, heq⟩ := Option.map_eq_some_iff.mp h
          cases heq
          obtain ⟨rfl, hsize⟩ := ih hrest
          refine ⟨rfl, ?_⟩
          show c.utf8Size + size a' = n + 1
          omega
        · cases h
  · rintro ⟨rfl, rfl⟩
    have hcut := splitAt?_offset (a ++ b) a.length
    rwa [offset, take_left, drop_left] at hcut

end Utf8

namespace Lexer

/-- What the characters of literals take beyond one byte each, from a machine on. -/
def excess (l : Lexer) : Text → Nat
  | [] => 0
  | c :: r => (if l.isCode c then 0 else c.utf8Size - 1) + (l.step c).excess r

theorem size_maskFrom (l : Lexer) (s : Text) : size (l.maskFrom s) + l.excess s = size s := by
  induction s generalizing l with
  | nil => rfl
  | cons c r ih =>
    have hrest := ih (l.step c)
    have hpos := c.utf8Size_pos
    have hc : (if l.isCode c then c else ' ').utf8Size + (if l.isCode c then 0 else c.utf8Size - 1)
        = c.utf8Size := by
      cases l.isCode c with
      | true => rfl
      | false =>
        show 1 + (c.utf8Size - 1) = c.utf8Size
        omega
    show (if l.isCode c then c else ' ').utf8Size + size ((l.step c).maskFrom r)
        + ((if l.isCode c then 0 else c.utf8Size - 1) + (l.step c).excess r) = c.utf8Size + size r
    omega

theorem excess_eq_zero_iff : l.excess s = 0 ↔ l.AsciiLiterals s := by
  rw [← asciiLiterals_iff]
  induction s generalizing l with
  | nil => exact ⟨fun _ => rfl, fun _ => rfl⟩
  | cons c r ih =>
    unfold excess asciiLiterals
    rw [Nat.add_eq_zero_iff, ih, Bool.and_eq_true]
    refine and_congr_left' ?_
    cases l.isCode c with
    | true => exact ⟨fun _ => rfl, fun _ => rfl⟩
    | false =>
      have hpos := c.utf8Size_pos
      have hone : c.utf8Size = 1 ↔ c.toNat < 128 := by
        rw [Char.utf8Size_eq_one_iff, UInt32.le_iff_toNat_le]
        exact Nat.lt_succ_iff.symm
      rw [if_neg Bool.false_ne_true, Bool.false_or, decide_eq_true_iff, ← hone]
      omega

theorem take_maskFrom (l : Lexer) (s : Text) (i : Nat) : (l.maskFrom s).take i = l.maskFrom (s.take i) := by
  induction s generalizing l i with
  | nil => rw [take_nil, maskFrom, take_nil]
  | cons c r ih =>
    cases i with
    | zero => rfl
    | succ i => exact congrArg _ (ih (l.step c) i)

theorem drop_maskFrom (l : Lexer) (s : Text) (i : Nat) :
    (l.maskFrom s).drop i = (l.run (s.take i)).maskFrom (s.drop i) := by
  induction s generalizing l i with
  | nil => rw [drop_nil, maskFrom, drop_nil, maskFrom]
  | cons c r ih =>
    cases i with
    | zero => rfl
    | succ i => exact ih (l.step c) i

end Lexer

theorem offset_mask_add_excess (s : Text) (i : Nat) :
    offset (mask s) i + start.excess (s.take i) = size (s.take i) := by
  unfold offset mask
  rw [take_maskFrom, size_maskFrom]

/-! ## 2. The word in code -/

/-- Every character of the text is code, from a machine on. -/
def Lexer.allCode (l : Lexer) : Text → Bool
  | [] => true
  | c :: r => l.isCode c && (l.step c).allCode r

theorem Lexer.allCode_append (l : Lexer) (a b : Text) :
    l.allCode (a ++ b) = (l.allCode a && (l.run a).allCode b) := by
  induction a generalizing l with
  | nil => rfl
  | cons c a ih => rw [cons_append, allCode, ih, allCode, Bool.and_assoc, run_cons]

/-- What stands behind a text is code. -/
def CodeBehind (before word : Text) : Prop := (start.run before).allCode word = true

instance (before word : Text) : Decidable (CodeBehind before word) := inferInstanceAs (Decidable (_ = _))

/-- A blank in code, or a quote. -/
def IsEdge (l : Lexer) (c : Char) : Prop := l.isCode c = true ∧ c = ' ' ∨ isQuote c = true

/-- **The word `range` in a head**: it is code, and a blank or a quote stands on either side. -/
structure RangePlace (head before : Text) (left right : Char) (behind : Text) : Prop where
  eq : head = before ++ (left :: ("range" ++ (right :: behind)))
  code : CodeBehind (before ++ [left]) "range"
  left_edge : IsEdge (start.run before) left
  right_edge : IsEdge (start.run (before ++ (left :: "range"))) right

namespace Lexer

theorem cons_of_maskFrom (hc : c ≠ ' ') (h : l.maskFrom s = c :: w) :
    ∃ r, s = c :: r ∧ l.isCode c = true ∧ (l.step c).maskFrom r = w := by
  cases s with
  | nil => cases h
  | cons d r =>
    obtain ⟨hhead, htail⟩ := cons.inj h
    split at hhead
    · rename_i hcode
      subst hhead
      exact ⟨r, rfl, hcode, htail⟩
    · exact absurd hhead.symm hc

theorem word_of_maskFrom {word : Text} (hword : ' ' ∉ word) (h : l.maskFrom s = word ++ w) :
    ∃ r, s = word ++ r ∧ (l.run word).maskFrom r = w ∧ l.allCode word = true := by
  induction word generalizing l s with
  | nil => exact ⟨s, rfl, h, rfl⟩
  | cons d word ih =>
    obtain ⟨hd, hword⟩ := ne_and_not_mem_of_not_mem_cons hword
    obtain ⟨r, rfl, hcode, hrest⟩ := cons_of_maskFrom hd.symm h
    obtain ⟨r, rfl, hbehind, hcodes⟩ := ih hword hrest
    exact ⟨r, rfl, hbehind, Bool.and_eq_true_iff.mpr ⟨hcode, hcodes⟩⟩

theorem blank_of_maskFrom (h : l.maskFrom s = ' ' :: w) :
    ∃ c r, s = c :: r ∧ (l.isCode c = true ∧ c = ' ' ∨ l.isCode c = false) ∧ (l.step c).maskFrom r = w := by
  cases s with
  | nil => cases h
  | cons c r =>
    obtain ⟨hhead, htail⟩ := cons.inj h
    refine ⟨c, r, rfl, ?_, htail⟩
    split at hhead
    · rename_i hcode
      exact .inl ⟨hcode, hhead⟩
    · rename_i hcode
      exact .inr (Bool.eq_false_iff.mpr hcode)

theorem isQuote_of_not_isCode (hl : l.Quotes) (hcode : l.isCode c = false)
    (hm : l.mode = .code ∨ (l.step c).mode = .code) : isQuote c = true := by
  cases hq : isQuote c with
  | true => rfl
  | false =>
    have hmode : l.mode = .code := hm.elim id (mode_of_step hl hq)
    rw [isCode_of_mode hmode hq] at hcode
    cases hcode

end Lexer

/-- What the masked head shows is the word in code. -/
theorem rangePlace_of_indexOf? {i : Nat} (h : indexOf? Lower.rangeWord (mask head) = some i) :
    ∃ before left right behind, RangePlace head before left right behind ∧ before.length = i := by
  obtain ⟨hat, hle⟩ := startsWith_of_indexOf? h
  obtain ⟨w, hw⟩ := startsWith_iff.mp hat
  have hlen : (mask head).length = head.length := length_maskFrom _ head
  rw [mask, drop_maskFrom] at hw
  generalize hbefore : head.take i = before at hw
  have hmasked : (start.run before).maskFrom (head.drop i) = ' ' :: ("range" ++ (' ' :: w)) := hw
  -- one step over the blank, five over the word, one over the blank behind it
  obtain ⟨left, r, hdrop, hleft, hrest⟩ := blank_of_maskFrom hmasked
  obtain ⟨r, rfl, hbehind, hcodes⟩ := word_of_maskFrom (by decide) hrest
  obtain ⟨right, behind, rfl, hright, _⟩ := blank_of_maskFrom hbehind
  have hquotes : (start.run before).Quotes := quotes_start.run before
  have hfirst : ((start.run before).step left).isCode 'r' = true := (Bool.and_eq_true_iff.mp hcodes).1
  have hlast : (((start.run before).step left).run "rang").isCode 'e' = true := by
    have hparts := allCode_append ((start.run before).step left) "rang" "e"
    rw [show ("rang" : Text) ++ "e" = "range" from rfl, hcodes] at hparts
    exact (Bool.and_eq_true_iff.mp (Bool.and_eq_true_iff.mp hparts.symm).2).1
  have hend : start.run (before ++ (left :: "range"))
      = ((start.run before).step left).run "range" := run_append _ _ _
  refine ⟨before, left, right, behind, ⟨?_, ?_, ?_, ?_⟩, ?_⟩
  · rw [← hdrop, ← hbefore, take_append_drop]
  · rw [CodeBehind, run_append]
    exact hcodes
  · refine hleft.imp_right fun hnot => ?_
    exact isQuote_of_not_isCode hquotes hnot (.inr (mode_of_isCode hfirst))
  · rw [IsEdge, hend]
    refine hright.imp_right fun hnot => ?_
    exact isQuote_of_not_isCode ((hquotes.step left).run _) hnot
      (.inl (step_mode_of_isCode hlast))
  · rw [← hbefore, length_take]
    omega

/-! ## 3. The cut -/

namespace Lower

/-- What is made of the two sides of a cut. -/
def rangeParts (before behind : Text) : Text × Text := (trim (stripSign (trim before)), trim behind)

/-- **The head is cut at its word**: in code with blanks around it, between the variables and the
    container. -/
def CutAtWord (head : Text) (parts : Text × Text) : Prop :=
  ∃ before behind, head = before ++ (rangeWord ++ behind) ∧ CodeBehind before rangeWord ∧
    parts = rangeParts before behind

/-- The parts a head is cut into where a stretch as long as the word lies `excess` bytes in front of it. -/
def CutShort (head before : Text) (excess : Nat) (parts : Text × Text) : Prop :=
  ∃ a stretch b, head = a ++ (stretch ++ b) ∧ size a + excess = size before ∧
    size stretch = size rangeWord ∧ parts = rangeParts a b

theorem cut_iff (head : Text) (start width : Nat) (parts : Text × Text) :
    (match splitAt? start head, splitAt? (start + width) head with
      | some (before, _), some (_, after) => some (rangeParts before after)
      | _, _ => none) = some parts ↔
    ∃ a stretch b, head = a ++ (stretch ++ b) ∧ size a = start ∧ size stretch = width ∧
      parts = rangeParts a b := by
  constructor
  · intro h
    split at h
    · rename_i a r q b hstart hend
      obtain ⟨rfl, ha⟩ := splitAt?_eq_some_iff.mp hstart
      obtain ⟨hq, hsize⟩ := splitAt?_eq_some_iff.mp hend
      -- the first cut lies in front of the second
      have hprefix : a <+: q := by
        refine prefix_of_prefix_length_le ⟨r, rfl⟩ ⟨b, hq.symm⟩ (Nat.not_lt.mp fun hlt => ?_)
        have hback : q <+: a := prefix_of_prefix_length_le ⟨b, hq.symm⟩ ⟨r, rfl⟩ (Nat.le_of_lt hlt)
        obtain ⟨t, rfl⟩ := hback
        rw [size_append] at ha
        cases t with
        | nil => simp at hlt
        | cons c t =>
          have hpos := c.utf8Size_pos
          have : size (c :: t) = c.utf8Size + size t := rfl
          omega
      obtain ⟨stretch, rfl⟩ := hprefix
      rw [size_append] at hsize
      refine ⟨a, stretch, b, by rw [hq, append_assoc], ha, by omega, (Option.some.inj h).symm⟩
    · cases h
  · rintro ⟨a, stretch, b, rfl, rfl, rfl, rfl⟩
    have hstart : splitAt? (size a) (a ++ (stretch ++ b)) = some (a, stretch ++ b) :=
      splitAt?_eq_some_iff.mpr ⟨rfl, rfl⟩
    have hend : splitAt? (size a + size stretch) (a ++ (stretch ++ b)) = some (a ++ stretch, b) :=
      splitAt?_eq_some_iff.mpr ⟨(append_assoc a stretch b).symm, size_append a stretch⟩
    rw [hstart, hend]

theorem splitRange?_search {i : Nat} (hhead : stripStart? "range " head = none)
    (hi : indexOf? rangeWord (mask head) = some i) :
    splitRange? head = some (match splitAt? (offset (mask head) i) head,
        splitAt? (offset (mask head) i + size rangeWord) head with
      | some (before, _), some (_, after) => some (rangeParts before after)
      | _, _ => none) := by
  unfold splitRange?
  rw [hhead, hi]
  rfl

theorem size_range (left right : Char) (hl : left.utf8Size = 1) (hr : right.utf8Size = 1) :
    size (left :: ("range" ++ [right])) = size rangeWord := by
  show left.utf8Size + (1 + (1 + (1 + (1 + (1 + (right.utf8Size + 0)))))) = 7
  omega

theorem utf8Size_of_isEdge (h : IsEdge l c) : c.utf8Size = 1 := by
  rcases h with ⟨_, rfl⟩ | h
  · rfl
  · unfold isQuote at h
    simp only [Bool.or_eq_true, beq_iff_eq] at h
    rcases h with (rfl | rfl) | rfl <;> rfl

theorem cutAtWord_of_rangePlace {before behind : Text} (h : RangePlace head before ' ' ' ' behind) :
    CutAtWord head (rangeParts before behind) := by
  have hblank {l : Lexer} (hedge : IsEdge l ' ') : l.isCode ' ' = true :=
    hedge.elim (·.1) fun hquote => absurd hquote (by decide)
  have hword : CodeBehind before ([' '] ++ ("range" ++ [' '])) := by
    have hcode := h.code
    have hright := hblank h.right_edge
    unfold CodeBehind at hcode ⊢
    rw [run_append] at hcode hright
    have hleft := hblank h.left_edge
    rw [allCode_append, allCode_append, hcode, Bool.true_and]
    exact Bool.and_eq_true_iff.mpr ⟨Bool.and_eq_true_iff.mpr ⟨hleft, rfl⟩, Bool.and_eq_true_iff.mpr ⟨hright, rfl⟩⟩
  exact ⟨before, behind, h.eq, hword, rfl⟩

/-- **Where a head is cut**, for every head in which the word is searched for and found. The word
    stands in code, a blank or a quote on either side. The cut lies in front of it by the bytes that
    masking takes away before it; there are no parts if it would fall inside a character. So the
    head is cut around the word if the literals before it are ASCII, and at ` range ` unless a quote
    stands beside the word. -/
theorem rangeHead_cut {head : Text} {i : Nat} (hhead : stripStart? "range " head = none)
    (hi : indexOf? rangeWord (mask head) = some i) :
    ∃ before left right behind, RangePlace head before left right behind ∧ before.length = i ∧
      ∃ answer, splitRange? head = some answer ∧
        (∀ parts, answer = some parts ↔ CutShort head before (Lexer.start.excess before) parts) ∧
        (Lexer.start.excess before = 0 ↔ AsciiLiterals before) ∧
        (AsciiLiterals before → answer = some (rangeParts before behind) ∧
          (left = ' ' → right = ' ' → CutAtWord head (rangeParts before behind))) := by
  obtain ⟨before, left, right, behind, hplace, hlen⟩ := rangePlace_of_indexOf? hi
  have htake : head.take i = before := by rw [hplace.eq, ← hlen, take_left]
  have hoffset := offset_mask_add_excess head i
  rw [htake] at hoffset
  have hcut := cut_iff head (Utf8.offset (mask head) i) (Utf8.size rangeWord)
  refine ⟨before, left, right, behind, hplace, hlen, _, splitRange?_search hhead hi, fun parts => ?_,
    Lexer.excess_eq_zero_iff, fun hascii => ⟨?_, ?_⟩⟩
  · rw [hcut]
    constructor
    · rintro ⟨a, stretch, b, heq, ha, hs, hparts⟩
      exact ⟨a, stretch, b, heq, by omega, hs, hparts⟩
    · rintro ⟨a, stretch, b, heq, ha, hs, hparts⟩
      exact ⟨a, stretch, b, heq, by omega, hs, hparts⟩
  · have hnone : Lexer.start.excess before = 0 := Lexer.excess_eq_zero_iff.mpr hascii
    have hsize := size_range left right (utf8Size_of_isEdge hplace.left_edge) (utf8Size_of_isEdge hplace.right_edge)
    refine (hcut _).mpr ⟨before, left :: ("range" ++ [right]), behind, ?_, by omega, hsize, rfl⟩
    rw [hplace.eq]
    rfl
  · rintro rfl rfl
    exact cutAtWord_of_rangePlace hplace

/-- Two variables, the first with characters of three bytes in its index. -/
def wideKey : Text := "m[\"日本\"], k = range xs"

/-- Four bytes are taken away: the second variable is lost, and the container starts inside the word. -/
theorem rangeHead_cut_wideKey :
    stripStart? "range " wideKey = none ∧ indexOf? rangeWord (mask wideKey) = some 12 ∧
      splitRange? wideKey = some (some (("m[\"日本\"]," : Text), ("nge xs" : Text))) ∧
      ∃ before left right behind, RangePlace wideKey before left right behind ∧ before.length = 12 ∧
        Lexer.start.excess before ≠ 0 := by
  have hhead : stripStart? "range " wideKey = none := rfl
  have hi : indexOf? rangeWord (mask wideKey) = some 12 := rfl
  obtain ⟨before, left, right, behind, hplace, hlen, _, _, _, _, _⟩ := rangeHead_cut hhead hi
  refine ⟨hhead, hi, by decide +kernel, before, left, right, behind, hplace, hlen, ?_⟩
  have hbefore : before = wideKey.take 12 := by rw [hplace.eq, ← hlen, take_left]
  rw [hbefore]
  decide

/-- **A cut inside a character.** The word stands in code with blanks around it, and there is no head to
    go on with. -/
theorem wideIndex_torn :
    splitRange? "m[\"日本語\"] = range xs" = some none ∧
      ("m[\"日本語\"] = range xs" : Text) = "m[\"日本語\"] =" ++ (rangeWord ++ "xs") ∧
      CodeBehind "m[\"日本語\"] =" rangeWord := by
  exact ⟨by decide +kernel, rfl, rfl⟩

end Lower

end Linewise
