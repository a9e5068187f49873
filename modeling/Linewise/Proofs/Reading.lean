/-
  Reading a text in parts.

  A fact about `a ++ b` is a fact about `a` and one about `b` read by the machine that `a` leaves
  behind.
-/
import Linewise.Binding

namespace Linewise

open Text

variable {l : Lexer} {c : Char}

namespace Lexer

/-! ## 1. Two parts -/

@[simp] theorem run_nil (l : Lexer) : l.run [] = l := rfl

@[simp] theorem run_cons (l : Lexer) (c : Char) (s : Text) : l.run (c :: s) = (l.step c).run s := rfl

theorem run_append (l : Lexer) (a b : Text) : l.run (a ++ b) = (l.run a).run b :=
  List.foldl_append

@[simp] theorem step_last (l : Lexer) (c : Char) : (l.step c).last = c := rfl

theorem mode_of_isCode (h : l.isCode c = true) : l.mode = .code := by
  unfold isCode at h
  simp only [Bool.and_eq_true, beq_iff_eq] at h
  exact h.1

theorem ne_of_isQuote_eq_false (h : isQuote c = false) : (c == '"') = false := by
  unfold isQuote at h
  simp only [Bool.or_eq_false_iff] at h
  exact h.1.1

theorem step_mode_of_isCode (h : l.isCode c = true) : (l.step c).mode = .code := by
  have hq : isQuote c = false := by
    simpa using (Bool.and_eq_true_iff.mp h).2
  simp [step, Mode.next, mode_of_isCode h, hq, ne_of_isQuote_eq_false hq]

theorem step_eq_of_isCode (h : l.isCode c = true) : l.step c = ⟨.code, c⟩ :=
  congrArg (Lexer.mk · c) (step_mode_of_isCode h)

theorem isCode_of_mode (hm : l.mode = .code) (hq : isQuote c = false) : l.isCode c = true := by
  simp [isCode, hm, hq]

/-! ## 2. Reading on as from the start -/

/-- The machine reads the text as from the start. -/
structure Anew (l : Lexer) (s : Text) : Prop where
  mode : l.mode = .code
  joint : l.last ≠ 'R' ∨ s.head? ≠ some '"'

/-- The machine stands in code and not right behind an `R`. -/
structure Fresh (l : Lexer) : Prop where
  mode : l.mode = .code
  last : l.last ≠ 'R'

theorem fresh_start : start.Fresh := ⟨rfl, by decide⟩

theorem fresh_step (h : l.isCode c = true) (hc : c ≠ 'R') : (l.step c).Fresh :=
  ⟨step_mode_of_isCode h, hc⟩

theorem Fresh.anew {s : Text} (h : l.Fresh) : l.Anew s := ⟨h.mode, .inl h.last⟩

namespace Anew

variable {r s : Text}

theorem isCode_eq (h : l.Anew s) (c : Char) : l.isCode c = start.isCode c := by
  simp only [isCode, h.mode, fresh_start.mode]

theorem step_eq (h : l.Anew (c :: r)) : l.step c = start.step c := by
  have hs : (start.last == 'R') = false := rfl
  have hc : (c == '"' && l.last == 'R') = false := by
    rcases h.joint with hl | hc
    · rw [beq_eq_false_iff_ne.mpr hl, Bool.and_false]
    · rw [beq_eq_false_iff_ne.mpr fun e => hc (by rw [e]; rfl), Bool.false_and]
  simp only [step, Mode.next, h.mode, fresh_start.mode, hc, hs, Bool.and_false]

theorem nesting_eq (h : l.Anew s) (c : Char) : l.nesting c = start.nesting c := by
  simp only [Lexer.nesting, h.isCode_eq]

theorem run_mode (h : l.Anew s) : (l.run s).mode = (start.run s).mode := by
  cases s with
  | nil => exact h.mode
  | cons c r => rw [run_cons, run_cons, h.step_eq]

theorem commentIndex?_eq (h : l.Anew s) : l.commentIndex? s = start.commentIndex? s := by
  cases s with
  | nil => rfl
  | cons c r => rw [commentIndex?, commentIndex?, h.isCode_eq, h.step_eq]

theorem maskFrom_eq (h : l.Anew s) : l.maskFrom s = mask s := by
  cases s with
  | nil => rfl
  | cons c r => rw [mask, maskFrom, maskFrom, h.isCode_eq, h.step_eq]

end Anew

/-! ## 3. Nesting depth -/

/-- What a text adds to the nesting depth. -/
def level (l : Lexer) : Text → Int
  | [] => 0
  | c :: r => l.nesting c + (l.step c).level r

end Lexer

theorem topIndexFrom?_append (needle : Char) (l : Lexer) (d : Int) (a b : Text) :
    topIndexFrom? needle l d (a ++ b)
      = (topIndexFrom? needle l d a).or
          ((topIndexFrom? needle (l.run a) (d + l.level a) b).map (· + a.length)) := by
  induction a generalizing l d with
  | nil => simp [topIndexFrom?, Lexer.level]
  | cons c a ih =>
    simp only [List.cons_append, topIndexFrom?, Lexer.run_cons, Lexer.level]
    split
    · simp
    · rw [ih, ← Int.add_assoc]
      cases topIndexFrom? needle (l.step c) (d + l.nesting c) a with
      | some i => simp
      | none => simp [Function.comp_def, Nat.add_assoc]

theorem eq_append_of_topIndexFrom? {needle : Char} {s : Text} :
    ∀ {l : Lexer} {d : Int} {i : Nat}, topIndexFrom? needle l d s = some i →
      ∃ a b, s = a ++ needle :: b ∧ a.length = i ∧ (l.run a).isCode needle = true
        ∧ d + l.level a = 0 := by
  induction s with
  | nil => intro l d i h; simp [topIndexFrom?] at h
  | cons c r ih =>
    intro l d i h
    simp only [topIndexFrom?] at h
    split at h
    · rename_i hc
      simp only [Bool.and_eq_true, beq_iff_eq] at hc
      obtain ⟨⟨hcode, rfl⟩, rfl⟩ := hc
      cases h
      exact ⟨[], r, rfl, rfl, hcode, rfl⟩
    · obtain ⟨j, hj, rfl⟩ := Option.map_eq_some_iff.mp h
      obtain ⟨a, b, rfl, rfl, hcode, hd⟩ := ih hj
      refine ⟨c :: a, b, rfl, rfl, hcode, ?_⟩
      rw [Lexer.level, ← Int.add_assoc]
      exact hd

namespace Binding

theorem eq_append_of_signFrom? {s : Text} :
    ∀ {l : Lexer} {d : Int} {i : Nat} {k : Kind}, signFrom? l d s = some (i, k) →
      ∃ a b, s = a ++ '=' :: b ∧ a.length = i ∧ (l.run a).isCode '=' = true
        ∧ d + l.level a = 0 := by
  induction s with
  | nil => intro l d i k h; simp [signFrom?] at h
  | cons c r ih =>
    intro l d i k h
    -- every way on but the last one goes into the rest
    have later (h' : (signFrom? (l.step c) (d + l.nesting c) r).map (fun p => (p.1 + 1, p.2))
        = some (i, k)) : ∃ a b, c :: r = a ++ '=' :: b ∧ a.length = i
          ∧ (l.run a).isCode '=' = true ∧ d + l.level a = 0 := by
      obtain ⟨⟨j, k'⟩, hj, he⟩ := Option.map_eq_some_iff.mp h'
      simp only [Prod.mk.injEq] at he
      obtain ⟨rfl, rfl⟩ := he
      obtain ⟨a, b, rfl, rfl, hcode, hd⟩ := ih hj
      refine ⟨c :: a, b, rfl, rfl, hcode, ?_⟩
      rw [Lexer.level, ← Int.add_assoc]
      exact hd
    simp only [signFrom?] at h
    split at h
    · rename_i hc
      simp only [Bool.and_eq_true, beq_iff_eq] at hc
      obtain ⟨⟨hcode, rfl⟩, rfl⟩ := hc
      split at h
      · exact later h
      · split at h
        · cases h
        · cases h
          exact ⟨[], r, rfl, rfl, hcode, rfl⟩
    · exact later h

end Binding

end Linewise
