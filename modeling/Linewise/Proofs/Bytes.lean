/-
  Cuts at characters and cuts at bytes.

  A place between two characters has a byte offset. One that is computed stays good as long as it
  steps over whole characters.
-/
import Linewise.Lower.Loop
import Linewise.Proofs.Balance

namespace Linewise

open Text List Lexer

variable {s : Text} {i j : Nat} {c : Char}

namespace Utf8

/-! ## 1. Slices -/

/-- The text between two byte offsets, if these are in order and between characters. -/
def slice? (s : Text) (a b : Nat) : Option Text :=
  if a ≤ b then (splitAt? b s).bind fun parts => (splitAt? a parts.1).map (·.2) else none

theorem size_append (a b : Text) : size (a ++ b) = size a + size b := by
  induction a with
  | nil => exact (Nat.zero_add _).symm
  | cons c a ih =>
    show c.utf8Size + size (a ++ b) = c.utf8Size + size a + size b
    rw [ih, Nat.add_assoc]

theorem offset_zero (s : Text) : offset s 0 = 0 := rfl

theorem offset_length (s : Text) : offset s s.length = size s := by
  unfold offset
  rw [take_length]

theorem splitAt?_offset (s : Text) (i : Nat) : splitAt? (offset s i) s = some (s.take i, s.drop i) := by
  induction s generalizing i with
  | nil => cases i <;> rfl
  | cons c r ih =>
    cases i with
    | zero => rfl
    | succ i =>
      have hpos := c.utf8Size_pos
      have hoff : offset (c :: r) (i + 1) = c.utf8Size + offset r i := rfl
      obtain ⟨n, hn⟩ : ∃ n, c.utf8Size + offset r i = n + 1 := ⟨c.utf8Size + offset r i - 1, by omega⟩
      have hle : c.utf8Size ≤ n + 1 := by omega
      have hrest : n + 1 - c.utf8Size = offset r i := by omega
      rw [hoff, hn, splitAt?, if_pos hle, hrest, ih]
      rfl

theorem offset_mono (s : Text) (h : i ≤ j) : offset s i ≤ offset s j := by
  unfold offset
  have hsplit : s.take j = s.take i ++ (s.take j).drop i := by
    have hparts := (take_append_drop i (s.take j)).symm
    rwa [take_take, Nat.min_eq_left h] at hparts
  rw [hsplit, size_append]
  exact Nat.le_add_right _ _

theorem slice?_offset (s : Text) (h : i ≤ j) : slice? s (offset s i) (offset s j) = some ((s.take j).drop i) := by
  have hi : offset s i = offset (s.take j) i := by
    unfold offset
    rw [take_take, Nat.min_eq_left h]
  unfold slice?
  rw [if_pos (offset_mono s h), splitAt?_offset, Option.bind_some, hi, splitAt?_offset]
  rfl

theorem slice?_take (s : Text) (i : Nat) : slice? s 0 (offset s i) = some (s.take i) :=
  slice?_offset s (Nat.zero_le i)

theorem slice?_drop (h : i ≤ s.length) : slice? s (offset s i) (size s) = some (s.drop i) := by
  rw [← offset_length, slice?_offset s h, take_length]

/-! ## 2. Computed offsets -/

theorem offset_succ (h : s[i]? = some c) : offset s (i + 1) = offset s i + c.utf8Size := by
  obtain ⟨hlt, hget⟩ := List.getElem?_eq_some_iff.mp h
  unfold offset
  rw [take_succ_eq_append_getElem hlt, size_append, hget]
  rfl

theorem offset_pred (h : s[i - 1]? = some c) (hi : 0 < i) : offset s (i - 1) = offset s i - c.utf8Size := by
  have hs := offset_succ h
  rw [Nat.sub_add_cancel hi] at hs
  omega

theorem size_pred (h : s.getLast? = some c) : offset s (s.length - 1) = size s - c.utf8Size := by
  rw [getLast?_eq_getElem?] at h
  have hpos : 0 < s.length := by
    have := (List.getElem?_eq_some_iff.mp h).1
    omega
  rw [offset_pred h hpos, offset_length]

theorem offset_add (s : Text) (i n : Nat) : offset s (i + n) = offset s i + offset (s.drop i) n := by
  unfold offset
  rw [take_add, size_append]

theorem offset_add_size {pattern : Text} (h : startsWith (s.drop i) pattern = true) :
    offset s (i + pattern.length) = offset s i + size pattern := by
  rw [offset_add]
  obtain ⟨r, hr⟩ := startsWith_iff.mp h
  unfold offset
  rw [hr, take_left]

end Utf8

/-! ## 3. Masking -/

/-- From a machine on, every character that is not code takes one byte. -/
def Lexer.AsciiLiterals (l : Lexer) (s : Text) : Prop :=
  ∀ a c b, s = a ++ c :: b → (l.run a).isCode c = false → c.toNat < 128

/-- **No literal of the text has a character outside of ASCII.** -/
def AsciiLiterals (s : Text) : Prop := start.AsciiLiterals s

/-- Whether the literals are ASCII, character by character. -/
def Lexer.asciiLiterals (l : Lexer) : Text → Bool
  | [] => true
  | c :: s => (l.isCode c || c.toNat < 128) && (l.step c).asciiLiterals s

theorem utf8Size_of_lt (h : c.toNat < 128) : c.utf8Size = 1 := by
  rw [Char.utf8Size_eq_one_iff, UInt32.le_iff_toNat_le]
  exact Nat.le_of_lt_succ h

namespace Lexer

variable {l : Lexer}

theorem AsciiLiterals.tail (h : l.AsciiLiterals (c :: s)) : (l.step c).AsciiLiterals s := by
  intro a d b hs hd
  exact h (c :: a) d b (by rw [hs]; rfl) hd

theorem asciiLiterals_iff : l.asciiLiterals s = true ↔ l.AsciiLiterals s := by
  induction s generalizing l with
  | nil =>
    refine ⟨fun _ a c b hs => ?_, fun _ => rfl⟩
    exact absurd hs.symm (append_cons_ne_nil a)
  | cons d s ih =>
    unfold asciiLiterals
    rw [Bool.and_eq_true, Bool.or_eq_true, decide_eq_true_iff, ih]
    constructor
    · intro ⟨hd, hs⟩ a c b heq hc
      cases a with
      | nil =>
        obtain ⟨rfl, rfl⟩ := cons.inj heq
        exact hd.resolve_left (Bool.eq_false_iff.mp hc)
      | cons e a =>
        obtain ⟨rfl, htail⟩ := cons.inj heq
        exact hs a c b htail hc
    · intro h
      refine ⟨?_, h.tail⟩
      cases hd : l.isCode d with
      | true => exact .inl rfl
      | false => exact .inr (h [] d s rfl hd)

theorem length_maskFrom (l : Lexer) (s : Text) : (l.maskFrom s).length = s.length := by
  induction s generalizing l with
  | nil => rfl
  | cons c s ih => exact congrArg (· + 1) (ih (l.step c))

theorem offset_maskFrom (h : l.AsciiLiterals s) (i : Nat) : Utf8.offset (l.maskFrom s) i = Utf8.offset s i := by
  induction s generalizing l i with
  | nil => rfl
  | cons c s ih =>
    cases i with
    | zero => rfl
    | succ i =>
      have hc : (if l.isCode c then c else ' ').utf8Size = c.utf8Size := by
        by_cases hcode : l.isCode c = true
        · rw [if_pos hcode]
        · rw [if_neg hcode, utf8Size_of_lt (h [] c s rfl (Bool.eq_false_iff.mpr hcode))]
          rfl
      show (if l.isCode c then c else ' ').utf8Size + Utf8.offset ((l.step c).maskFrom s) i
        = c.utf8Size + Utf8.offset s i
      rw [hc, ih h.tail]

theorem AsciiLiterals.drop {a : Text} (h : AsciiLiterals start (a ++ s)) (ha : (start.run a).Fresh) :
    AsciiLiterals start s := by
  intro b c r hs hc
  refine h (a ++ b) c r (by rw [hs, append_assoc]) ?_
  rw [run_append, ← hc]
  unfold isCode
  rw [ha.anew.run_mode]

theorem AsciiLiterals.take {r : Text} (h : l.AsciiLiterals (s ++ r)) : l.AsciiLiterals s := by
  intro a c b hs hc
  exact h a c (b ++ r) (by rw [hs, append_assoc, cons_append]) hc

end Lexer

instance (s : Text) : Decidable (AsciiLiterals s) := decidable_of_iff _ asciiLiterals_iff

/-- Where literals are ASCII, masking moves no offset. -/
theorem offset_mask (h : AsciiLiterals s) (i : Nat) : Utf8.offset (mask s) i = Utf8.offset s i :=
  offset_maskFrom h i

theorem AsciiLiterals.trim (h : AsciiLiterals s) : AsciiLiterals (trim s) := by
  obtain ⟨u, v, hs, hu, _⟩ := eq_append_trim s
  have hall := h
  rw [hs] at hall
  have hfresh : (start.run u).Fresh := fresh_start.run_blank hu
  exact (AsciiLiterals.drop hall hfresh).take

theorem AsciiLiterals.stripEnd (h : AsciiLiterals s) (t : Text) : AsciiLiterals (stripEnd t s) := by
  unfold Text.stripEnd
  cases hs : stripEnd? t s with
  | none => exact h
  | some r =>
    rw [eq_append_of_stripEnd? hs] at h
    exact AsciiLiterals.take h

theorem AsciiLiterals.stripStart {t : Text} (h : AsciiLiterals s) (ht : (start.run t).Fresh) :
    AsciiLiterals (stripStart t s) := by
  unfold Text.stripStart
  cases hs : stripStart? t s with
  | none => exact h
  | some r =>
    rw [eq_append_of_stripStart? hs] at h
    exact AsciiLiterals.drop h ht

end Linewise
