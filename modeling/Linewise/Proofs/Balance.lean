/-
  Well-nested text, and the cuts that keep it well nested.

  A text is well nested if its brackets pair up by shape and its literals are closed. A cut at top
  level gives well-nested parts, and so does a pair of brackets.
-/
import Mathlib.Tactic.MkIffOfInductiveProp
import Linewise.Composite
import Linewise.Proofs.Reading
import Linewise.Proofs.Trim

namespace Linewise

open Text List Lexer

variable {T a b s v : Text} {c k o sep : Char} {l : Lexer} {p p' : List Char} {i : Nat}

/-! ## 1. Open brackets -/

/-- A closing bracket. -/
def isCloser (c : Char) : Bool := c == ')' || c == ']' || c == '}'

/-- What a code character does to the open brackets, each given by its closer; nothing if it closes
    another than the innermost. -/
def bracketStep (c : Char) (pending : List Char) : Option (List Char) :=
  match closer? c with
  | some k => some (k :: pending)
  | none =>
    if isCloser c then
      match pending with
      | k :: rest => if c = k then some rest else none
      | [] => none
    else some pending

/-- What the next character does to the open brackets: nothing inside a literal. -/
def Lexer.bracketStep (l : Lexer) (c : Char) (pending : List Char) : Option (List Char) :=
  if l.isCode c then Linewise.bracketStep c pending else some pending

/-- The brackets a text leaves open, on top of those that are. -/
def Lexer.unclosed? (l : Lexer) (pending : List Char) : Text → Option (List Char)
  | [] => some pending
  | c :: r => (l.bracketStep c pending).bind fun p => (l.step c).unclosed? p r

/-- Brackets pair up by shape, and every literal is closed. -/
@[mk_iff] structure WellNested (s : Text) : Prop where
  brackets : start.unclosed? [] s = some []
  literals : (start.run s).mode = .code

instance (s : Text) : Decidable (WellNested s) := decidable_of_iff _ (wellNested_iff ..).symm

theorem wellNested_nil : WellNested [] := ⟨rfl, rfl⟩

/-- A bracket of any shape, opening or closing. -/
def isBracket (c : Char) : Bool := (closer? c).isSome || isCloser c

theorem closer?_cases (h : closer? c = some k) :
    (c = '(' ∧ k = ')') ∨ (c = '[' ∧ k = ']') ∨ (c = '{' ∧ k = '}') := by
  unfold closer? at h
  split at h
  · rename_i hc
    cases h
    exact .inl ⟨by simpa using hc, rfl⟩
  · split at h
    · rename_i hc
      cases h
      exact .inr (.inl ⟨by simpa using hc, rfl⟩)
    · split at h
      · rename_i hc
        cases h
        exact .inr (.inr ⟨by simpa using hc, rfl⟩)
      · cases h

theorem isCloser_cases (h : isCloser c = true) : c = ')' ∨ c = ']' ∨ c = '}' := by
  unfold isCloser at h
  simp only [Bool.or_eq_true, beq_iff_eq] at h
  rcases h with (h | h) | h
  · exact .inl h
  · exact .inr (.inl h)
  · exact .inr (.inr h)

theorem bracketStep_cases (h : bracketStep c p = some p') :
    (∃ k, closer? c = some k ∧ p' = k :: p) ∨ (isCloser c = true ∧ p = c :: p')
      ∨ (isBracket c = false ∧ p' = p) := by
  unfold bracketStep at h
  split at h
  · rename_i k hk
    cases h
    exact .inl ⟨k, hk, rfl⟩
  · rename_i hk
    split at h
    · rename_i hc
      split at h
      · split at h
        · rename_i he
          cases h
          exact .inr (.inl ⟨hc, by rw [he]⟩)
        · cases h
      · cases h
    · rename_i hc
      cases h
      exact .inr (.inr ⟨by simp [isBracket, hk, hc], rfl⟩)

theorem bracketStep_of_not_isBracket (h : isBracket c = false) (p : List Char) : bracketStep c p = some p := by
  unfold isBracket at h
  simp only [Bool.or_eq_false_iff, Option.isSome_eq_false_iff, Option.isNone_iff_eq_none] at h
  simp [bracketStep, h.1, h.2]

theorem nesting_of_closer? (h : closer? c = some k) : nesting c = 1 := by
  rcases closer?_cases h with ⟨rfl, _⟩ | ⟨rfl, _⟩ | ⟨rfl, _⟩ <;> rfl

theorem nesting_of_isCloser (h : isCloser c = true) : nesting c = -1 := by
  rcases isCloser_cases h with rfl | rfl | rfl <;> rfl

theorem nesting_of_not_isBracket (h : isBracket c = false) : nesting c = 0 := by
  have ho : (c == '(' || c == '[' || c == '{') = false := by
    refine Bool.eq_false_iff.mpr fun hc => ?_
    simp only [Bool.or_eq_true, beq_iff_eq] at hc
    rcases hc with (rfl | rfl) | rfl <;> cases h
  have hk : (c == ')' || c == ']' || c == '}') = false := by
    unfold isBracket isCloser at h
    simp only [Bool.or_eq_false_iff] at h ⊢
    exact h.2
  unfold nesting
  rw [if_neg (by simp [ho]), if_neg (by simp [hk])]

theorem length_bracketStep (h : bracketStep c p = some p') : (p'.length : Int) = p.length + nesting c := by
  rcases bracketStep_cases h with ⟨k, hk, rfl⟩ | ⟨hc, rfl⟩ | ⟨hc, rfl⟩
  · rw [nesting_of_closer? hk]
    simp
  · rw [nesting_of_isCloser hc]
    simp only [length_cons]
    omega
  · rw [nesting_of_not_isBracket hc]
    omega

namespace Lexer

theorem bracketStep_of_isCode (h : l.isCode c = true) (p : List Char) :
    l.bracketStep c p = Linewise.bracketStep c p := if_pos h

theorem bracketStep_of_not_isCode (h : ¬ l.isCode c = true) (p : List Char) : l.bracketStep c p = some p := if_neg h

theorem bracketStep_eq_self (h : isBracket c = false) (p : List Char) : l.bracketStep c p = some p := by
  unfold bracketStep
  split
  · exact bracketStep_of_not_isBracket h p
  · rfl

theorem length_bracketStep (h : l.bracketStep c p = some p') : (p'.length : Int) = p.length + l.nesting c := by
  unfold nesting
  by_cases hc : l.isCode c = true
  · rw [bracketStep_of_isCode hc] at h
    rw [if_pos hc]
    exact Linewise.length_bracketStep h
  · rw [bracketStep_of_not_isCode hc] at h
    cases h
    rw [if_neg hc]
    omega

/-! ## 2. Two parts -/

theorem unclosed?_append (l : Lexer) (p : List Char) (a b : Text) :
    l.unclosed? p (a ++ b) = (l.unclosed? p a).bind fun p' => (l.run a).unclosed? p' b := by
  induction a generalizing l p with
  | nil => rfl
  | cons c a ih =>
    simp only [cons_append, unclosed?, run_cons]
    cases l.bracketStep c p with
    | none => rfl
    | some p' => exact ih _ _

theorem length_unclosed? :
    ∀ {l : Lexer} {p p' : List Char}, l.unclosed? p s = some p' →
      (p'.length : Int) = p.length + l.level s := by
  induction s with
  | nil => intro l p p' h; cases h; simp [level]
  | cons c r ih =>
    intro l p p' h
    obtain ⟨q, hq, h⟩ := Option.bind_eq_some_iff.mp h
    have h1 := length_bracketStep hq
    have h2 := ih h
    simp only [level]
    omega

theorem Anew.unclosed?_eq (h : l.Anew s) (p : List Char) : l.unclosed? p s = start.unclosed? p s := by
  cases s with
  | nil => rfl
  | cons c r => simp only [unclosed?, bracketStep, h.isCode_eq, h.step_eq]

theorem Anew.wellNested (hl : l.Anew s) (h : l.unclosed? [] s = some []) (hm : (l.run s).mode = .code) :
    WellNested s :=
  ⟨(hl.unclosed?_eq []).symm.trans h, hl.run_mode.symm.trans hm⟩

end Lexer

theorem WellNested.before_top (h : WellNested (a ++ c :: b)) (hl : start.level a = 0) :
    start.unclosed? [] a = some [] ∧ (start.run a).unclosed? [] (c :: b) = some [] := by
  have hu := h.brackets
  rw [unclosed?_append] at hu
  obtain ⟨p, hp, hu⟩ := Option.bind_eq_some_iff.mp hu
  have hlen := length_unclosed? hp
  have hnil : p = [] := eq_nil_of_length_eq_zero (by simp at hlen; omega)
  subst hnil
  exact ⟨hp, hu⟩

/-- A cut at top level gives well-nested parts. -/
theorem WellNested.cut (h : WellNested (a ++ c :: b)) (hc : (start.run a).isCode c = true)
    (hb : isBracket c = false) (hR : c ≠ 'R') (hl : start.level a = 0) : WellNested a ∧ WellNested b := by
  obtain ⟨hu, hrest⟩ := h.before_top hl
  have hm := h.literals
  rw [run_append] at hm
  rw [unclosed?, bracketStep_eq_self hb, Option.bind_some] at hrest
  exact ⟨⟨hu, mode_of_isCode hc⟩, (fresh_step hc hR).anew.wellNested hrest hm⟩

theorem WellNested.topIndex {needle : Char} (h : WellNested s) (hi : topIndex? needle s = some i)
    (hb : isBracket needle = false) (hR : needle ≠ 'R') : WellNested (s.take i) ∧ WellNested (s.drop (i + 1)) := by
  obtain ⟨a, b, rfl, rfl, hcode, hd⟩ := eq_append_of_topIndexFrom? hi
  have hl : start.level a = 0 := by omega
  rw [take_left, drop_length_add_append]
  exact h.cut hcode hb hR hl

/-! ## 3. Ends of a text -/

namespace Lexer

/-- Only a quote opens a literal. -/
def Quotes (l : Lexer) : Prop := ∀ q, l.mode = .quoted q ∨ l.mode = .escaped q → isQuote q = true

theorem quotes_start : start.Quotes := by
  intro q h
  rcases h with h | h <;> cases h

theorem Quotes.step (h : l.Quotes) (c : Char) : (l.step c).Quotes := by
  intro q hq
  cases hl : l.mode with
  | code =>
    simp only [Lexer.step, Mode.next, hl] at hq
    split at hq
    · rcases hq with hq | hq <;> cases hq
    · split at hq
      · rename_i hc
        rcases hq with hq | hq <;> cases hq
        exact hc
      · rcases hq with hq | hq <;> cases hq
  | quoted q' =>
    have hq' : isQuote q' = true := h q' (.inl hl)
    simp only [Lexer.step, Mode.next, hl] at hq
    split at hq
    · rcases hq with hq | hq <;> cases hq
      exact hq'
    · split at hq <;> rcases hq with hq | hq <;> cases hq
      exact hq'
  | escaped q' =>
    simp only [Lexer.step, Mode.next, hl] at hq
    rcases hq with hq | hq <;> cases hq
    exact h q (.inr hl)
  | raw =>
    simp only [Lexer.step, Mode.next, hl] at hq
    split at hq <;> rcases hq with hq | hq <;> cases hq

theorem Quotes.run (h : l.Quotes) (s : Text) : (l.run s).Quotes := by
  induction s generalizing l with
  | nil => exact h
  | cons c r ih => exact ih (h.step c)

theorem mode_of_step (hl : l.Quotes) (hc : isQuote c = false) (hm : (l.step c).mode = .code) : l.mode = .code := by
  cases h : l.mode with
  | code => rfl
  | quoted q =>
    have hq := hl q (.inl h)
    simp only [step, Mode.next, h] at hm
    split at hm
    · cases hm
    · split at hm
      · rename_i he
        have he : c = q := by simpa using he
        rw [he, hq] at hc
        cases hc
      · cases hm
  | escaped q => simp [step, Mode.next, h] at hm
  | raw => simp [step, Mode.next, h, ne_of_isQuote_eq_false hc] at hm

theorem run_last (l : Lexer) (s : Text) : (l.run s).last = s.getLast?.getD l.last := by
  rcases eq_nil_or_concat' s with rfl | ⟨r, c, rfl⟩
  · rfl
  · rw [run_append]
    simp

end Lexer

theorem not_isQuote_of_closer? (h : closer? o = some k) : Lexer.isQuote o = false ∧ Lexer.isQuote k = false := by
  rcases closer?_cases h with ⟨rfl, rfl⟩ | ⟨rfl, rfl⟩ | ⟨rfl, rfl⟩ <;> decide

theorem ne_of_closer? (h : closer? o = some k) : o ≠ 'R' ∧ k ≠ 'R' := by
  rcases closer?_cases h with ⟨rfl, rfl⟩ | ⟨rfl, rfl⟩ | ⟨rfl, rfl⟩ <;> decide

theorem closer?_ne (h : closer? o = some k) : o ≠ k := by
  rcases closer?_cases h with ⟨rfl, rfl⟩ | ⟨rfl, rfl⟩ | ⟨rfl, rfl⟩ <;> decide

theorem isCode_of_closer? (h : closer? o = some k) : start.isCode o = true :=
  isCode_of_mode rfl (not_isQuote_of_closer? h).1

theorem fresh_opened (h : closer? o = some k) : (start.step o).Fresh :=
  fresh_step (isCode_of_closer? h) (ne_of_closer? h).1

theorem bracketStep_open (h : closer? o = some k) (hcode : l.isCode o = true) (p : List Char) :
    l.bracketStep o p = some (k :: p) := by
  simp only [bracketStep_of_isCode hcode, bracketStep, h]

theorem WellNested.closer?_last (h : WellNested s) (hc : s.getLast? = some c) : closer? c = none := by
  rcases eq_nil_or_concat' s with rfl | ⟨r, d, rfl⟩
  · cases hc
  · obtain rfl : d = c := by simpa using hc
    cases hk : closer? d with
    | none => rfl
    | some k =>
      have hq := (not_isQuote_of_closer? hk).1
      have hm := h.literals
      have hb := h.brackets
      rw [run_append] at hm
      have hcode := isCode_of_mode (mode_of_step (quotes_start.run r) hq hm) hq
      rw [unclosed?_append] at hb
      obtain ⟨p, _, hb⟩ := Option.bind_eq_some_iff.mp hb
      simp [unclosed?, bracketStep_open hk hcode] at hb

theorem WellNested.not_endsWith (h : WellNested s) (hc : closer? c = some k) : endsWith s [c] = false := by
  refine endsWith_of_getLast? fun hlast => ?_
  cases hc.symm.trans (h.closer?_last hlast)

theorem WellNested.not_startsWith {t : Text} (h : WellNested s) (hc : isCloser c = true) :
    startsWith s (c :: t) = false := by
  refine startsWith_of_head fun he => ?_
  obtain ⟨r, rfl⟩ := head?_eq_some_iff.mp he
  have hb := h.brackets
  have hnone : start.bracketStep c [] = none := by
    rcases isCloser_cases hc with rfl | rfl | rfl <;> rfl
  rw [unclosed?, hnone] at hb
  cases hb

/-! ## 4. White space, heads and tails -/

/-- Brackets and quotes. -/
def specials : Text := "()[]\x7b\x7d\"'\x60"

theorem not_special_of_class {p : Char → Bool} (hp : ∀ d ∈ specials, p d = false) (h : p c = true) :
    isBracket c = false ∧ Lexer.isQuote c = false := by
  have key : ∀ d ∈ specials, c ≠ d := fun d hd e => by rw [e, hp d hd] at h; cases h
  refine ⟨Bool.eq_false_iff.mpr fun hb => ?_, Bool.eq_false_iff.mpr fun hb => ?_⟩
  · unfold isBracket at hb
    rcases Bool.or_eq_true_iff.mp hb with hb | hb
    · obtain ⟨k, hk⟩ := Option.isSome_iff_exists.mp hb
      rcases closer?_cases hk with ⟨e, _⟩ | ⟨e, _⟩ | ⟨e, _⟩ <;> exact key _ (by decide) e
    · rcases isCloser_cases hb with e | e | e <;> exact key _ (by decide) e
  · unfold Lexer.isQuote at hb
    simp only [Bool.or_eq_true, beq_iff_eq] at hb
    rcases hb with (e | e) | e <;> exact key _ (by decide) e

theorem not_special_of_isBlank (h : isBlank c = true) :
    isBracket c = false ∧ Lexer.isQuote c = false ∧ c ≠ 'R' := by
  obtain ⟨hb, hq⟩ := not_special_of_class (by decide) h
  exact ⟨hb, hq, fun e => by rw [e] at h; exact absurd h (by decide)⟩

/-- Neither brackets nor quotes. -/
def Bare (s : Text) : Prop := ∀ c ∈ s, isBracket c = false ∧ Lexer.isQuote c = false

instance (s : Text) : Decidable (Bare s) :=
  inferInstanceAs (Decidable (∀ c ∈ s, isBracket c = false ∧ Lexer.isQuote c = false))

theorem bare_of_blank (h : Blank s) : Bare s := fun c hc =>
  ⟨(not_special_of_isBlank (h c hc)).1, (not_special_of_isBlank (h c hc)).2.1⟩

namespace Bare

theorem head (h : Bare (c :: s)) : isBracket c = false ∧ Lexer.isQuote c = false := h c mem_cons_self

theorem tail (h : Bare (c :: s)) : Bare s :=
  (forall_mem_cons.mp h).2

theorem append (ha : Bare a) (hb : Bare b) : Bare (a ++ b) :=
  forall_mem_append.mpr ⟨ha, hb⟩

theorem unclosed?_eq (h : Bare s) (l : Lexer) (p : List Char) : l.unclosed? p s = some p := by
  induction s generalizing l with
  | nil => rfl
  | cons c s ih =>
    rw [unclosed?, bracketStep_eq_self h.head.1, Option.bind_some]
    exact ih h.tail _

theorem nesting_eq (h : Bare (c :: s)) (l : Lexer) : l.nesting c = 0 := by
  unfold Lexer.nesting
  split
  · exact nesting_of_not_isBracket h.head.1
  · rfl

theorem level_eq (h : Bare s) (l : Lexer) : l.level s = 0 := by
  induction s generalizing l with
  | nil => rfl
  | cons c s ih => rw [level, h.nesting_eq, ih h.tail, Int.add_zero]

end Bare

namespace Lexer

theorem mode_of_run_blank (h : Blank v) (hl : l.Quotes) (hm : (l.run v).mode = .code) : l.mode = .code := by
  induction v generalizing l with
  | nil => exact hm
  | cons c v ih =>
    have hc := not_special_of_isBlank (h c mem_cons_self)
    exact mode_of_step hl hc.2.1 (ih (forall_mem_cons.mp h).2 (hl.step c) hm)

theorem Fresh.run_blank (hl : l.Fresh) (h : Blank v) : (l.run v).Fresh := by
  induction v generalizing l with
  | nil => exact hl
  | cons c v ih =>
    have hc := not_special_of_isBlank (h c mem_cons_self)
    exact ih (fresh_step (isCode_of_mode hl.mode hc.2.1) hc.2.2)
      (forall_mem_cons.mp h).2

end Lexer

/-- No raw literal starts where the texts meet. -/
def Joins (a b : Text) : Prop := a.getLast? ≠ some 'R' ∨ b.head? ≠ some '"'

theorem WellNested.anew (ha : WellNested a) (h : Joins a b) : (Lexer.start.run a).Anew b := by
  refine ⟨ha.literals, h.imp_left fun hR hl => ?_⟩
  rw [Lexer.run_last] at hl
  cases hs : a.getLast? with
  | none =>
    rw [hs] at hl
    cases hl
  | some c =>
    rw [hs] at hl hR
    exact hR (congrArg some hl)

theorem WellNested.join (ha : WellNested a) (hb : WellNested b) (h : Joins a b) : WellNested (a ++ b) := by
  have hanew := ha.anew h
  refine ⟨?_, ?_⟩
  · rw [Lexer.unclosed?_append, ha.brackets, Option.bind_some, hanew.unclosed?_eq]
    exact hb.brackets
  · rw [Lexer.run_append, hanew.run_mode]
    exact hb.literals

theorem WellNested.append (ha : WellNested a) (hb : WellNested b) (hR : a.getLast? ≠ some 'R') :
    WellNested (a ++ b) := ha.join hb (.inl hR)

theorem WellNested.of_append (h : WellNested (a ++ b)) (ha : WellNested a) (hR : a.getLast? ≠ some 'R') :
    WellNested b := by
  have hu := h.brackets
  have hm := h.literals
  rw [Lexer.unclosed?_append, ha.brackets, Option.bind_some] at hu
  rw [Lexer.run_append] at hm
  exact (ha.anew (.inl hR)).wellNested hu hm

theorem WellNested.of_blank_append (hu : Blank a) (h : WellNested (a ++ b)) : WellNested b := by
  have hb := h.brackets
  have hm := h.literals
  rw [Lexer.unclosed?_append, (bare_of_blank hu).unclosed?_eq, Option.bind_some] at hb
  rw [Lexer.run_append] at hm
  exact (Lexer.fresh_start.run_blank hu).anew.wellNested hb hm

theorem WellNested.stripStart {head : Text} (h : WellNested s) (hh : WellNested head)
    (hR : head.getLast? ≠ some 'R') : WellNested (stripStart head s) := by
  unfold Text.stripStart
  cases hs : stripStart? head s with
  | none => exact h
  | some r =>
    have he := eq_append_of_stripStart? hs
    rw [he] at h
    exact h.of_append hh hR

theorem WellNested.trim (h : WellNested s) : WellNested (trim s) := by
  obtain ⟨u, v, hs, hu, hv⟩ := eq_append_trim s
  rw [hs] at h
  obtain ⟨hb, hm⟩ := h.of_blank_append hu
  rw [Lexer.unclosed?_append] at hb
  obtain ⟨p, hp, hb⟩ := Option.bind_eq_some_iff.mp hb
  rw [(bare_of_blank hv).unclosed?_eq] at hb
  cases hb
  rw [Lexer.run_append] at hm
  exact ⟨hp, Lexer.mode_of_run_blank hv (Lexer.quotes_start.run _) hm⟩

theorem WellNested.trimStart (h : WellNested s) : WellNested (trimStart s) := by
  have hs : indentation s ++ Text.trimStart s = s := takeWhile_append_dropWhile
  rw [← hs] at h
  exact h.of_blank_append (blank_indentation s)

/-! ## 5. Parts at top level -/

theorem cutsFrom_wellNested (hb : isBracket sep = false) (hR : sep ≠ 'R') :
    ∀ {l : Lexer} {p : List Char}, l.unclosed? p s = some [] → (l.run s).mode = .code →
      ∃ first rest, cutsFrom sep l p.length s = first :: rest ∧ l.unclosed? p first = some []
        ∧ (l.run first).mode = .code ∧ ∀ q ∈ rest, WellNested q := by
  induction s with
  | nil =>
    intro l p hu hm
    exact ⟨[], [], rfl, hu, hm, fun q hq => absurd hq not_mem_nil⟩
  | cons c r ih =>
    intro l p hu hm
    obtain ⟨p', hp, hu⟩ := Option.bind_eq_some_iff.mp hu
    obtain ⟨first, rest, hcuts, hfu, hfm, hrest⟩ := ih hu hm
    have hlen := Lexer.length_bracketStep hp
    rw [hlen] at hcuts
    simp only [cutsFrom, hcuts]
    split
    · rename_i hc
      simp only [Bool.and_eq_true, beq_iff_eq] at hc
      obtain ⟨⟨hcode, rfl⟩, hzero⟩ := hc
      -- a separator is no bracket, so nothing is open before it
      rw [Lexer.bracketStep_eq_self hb] at hp
      cases hp
      have hp : p = [] := eq_nil_of_length_eq_zero (by omega)
      subst hp
      refine ⟨[], _, rfl, rfl, Lexer.mode_of_isCode hcode, fun q hq => ?_⟩
      rcases mem_cons.mp hq with rfl | hq
      · exact (Lexer.fresh_step hcode hR).anew.wellNested hfu hfm
      · exact hrest q hq
    · refine ⟨c :: first, rest, rfl, ?_, hfm, hrest⟩
      rw [Lexer.unclosed?, hp, Option.bind_some]
      exact hfu

/-- The parts between separators are well nested. -/
theorem wellNested_of_mem_splitTop {q : Text} (h : WellNested s) (hb : isBracket sep = false) (hR : sep ≠ 'R')
    (hq : q ∈ splitTop sep s) : WellNested q := by
  unfold splitTop at hq
  split at hq
  · cases hq
  · obtain ⟨p, hp, rfl⟩ := mem_map.mp hq
    obtain ⟨first, rest, hcuts, hu, hm, hrest⟩ := cutsFrom_wellNested hb hR h.brackets h.literals
    rw [show ((([] : List Char).length : Nat) : Int) = 0 from rfl] at hcuts
    rw [hcuts] at hp
    rcases mem_cons.mp hp with rfl | hp
    · exact (WellNested.mk hu hm).trim
    · exact (hrest p hp).trim

theorem WellNested.binding_rhs {b : Binding} (h : WellNested s) (hb : Binding.split? s = some b) :
    WellNested b.rhs := by
  obtain ⟨⟨i, k⟩, hi, rfl⟩ := Option.map_eq_some_iff.mp hb
  obtain ⟨a, r, rfl, rfl, hcode, hd⟩ := Binding.eq_append_of_signFrom? hi
  have hl : Lexer.start.level a = 0 := by omega
  have hr := (h.cut hcode rfl (by decide) hl).2.trim
  cases k <;>
  · show WellNested (Text.trim _)
    rw [drop_length_add_append]
    exact hr

/-! ## 6. Partners -/

theorem isCloser_of_closer? (h : closer? o = some k) : isCloser k = true := by
  rcases closer?_cases h with ⟨_, rfl⟩ | ⟨_, rfl⟩ | ⟨_, rfl⟩ <;> rfl

theorem closer?_injective {o' : Char} (h : closer? o = some k) (h' : closer? o' = some k) : o = o' := by
  rcases closer?_cases h with ⟨rfl, rfl⟩ | ⟨rfl, rfl⟩ | ⟨rfl, rfl⟩ <;>
  rcases closer?_cases h' with ⟨rfl, _⟩ | ⟨rfl, _⟩ | ⟨rfl, _⟩ <;> simp_all

theorem closer?_of_isCloser (h : isCloser c = true) : closer? c = none := by
  rcases isCloser_cases h with rfl | rfl | rfl <;> rfl

/-- **Where everything open is closed in the end, the search for a partner finds it**: what stands
    before it closes all that was opened later, and what follows closes the rest. Brackets of other
    shapes do not mislead a search that counts one shape alone. -/
theorem matchingFrom?_eq (hk : closer? o = some k) (t : List Char) :
    ∀ {l : Lexer} {p : List Char}, l.unclosed? (p ++ k :: t) s = some [] →
      ∃ a b, s = a ++ k :: b ∧ matchingFrom? o k l (p.count k + 1) s = some a.length
        ∧ l.unclosed? p a = some [] ∧ (l.run a).isCode k = true
        ∧ ((l.run a).step k).unclosed? t b = some [] := by
  have hko := (closer?_ne hk).symm
  induction s with
  | nil =>
    intro l p h
    simp [Lexer.unclosed?] at h
  | cons c r ih =>
    intro l p h
    obtain ⟨p', hp, h⟩ := Option.bind_eq_some_iff.mp h
    -- one character further on, `q` standing for what is open above the bracket looked for
    have next {q : List Char} (hq : p' = q ++ k :: t) (hqp : l.bracketStep c p = some q)
        (hm : matchingFrom? o k l (p.count k + 1) (c :: r)
          = (matchingFrom? o k (l.step c) (q.count k + 1) r).map (· + 1)) :
        ∃ a b, c :: r = a ++ k :: b ∧ matchingFrom? o k l (p.count k + 1) (c :: r) = some a.length
          ∧ l.unclosed? p a = some [] ∧ (l.run a).isCode k = true
          ∧ ((l.run a).step k).unclosed? t b = some [] := by
      rw [hq] at h
      obtain ⟨a, b, rfl, hfind, ha, hcode, hb⟩ := ih h
      refine ⟨c :: a, b, rfl, ?_, ?_, hcode, hb⟩
      · rw [hm, hfind]
        rfl
      · rw [Lexer.unclosed?, hqp, Option.bind_some]
        exact ha
    by_cases hc : l.isCode c = true
    · have hstep := hp
      rw [Lexer.bracketStep_of_isCode hc] at hstep
      rcases bracketStep_cases hstep with ⟨k', hk', rfl⟩ | ⟨hcl, heq⟩ | ⟨hnb, rfl⟩
      · -- an opening bracket, of this shape or of another
        refine next rfl (bracketStep_open hk' hc p) ?_
        · by_cases hco : c = o
          · have hkk : k' = k := by rw [hco, hk] at hk'; exact (Option.some.inj hk').symm
            simp [matchingFrom?, hco ▸ hc, hco, hkk]
          · have hkk : k' ≠ k := fun e => hco (closer?_injective (e ▸ hk') hk)
            have hck : c ≠ k := fun e => by
              rw [e, closer?_of_isCloser (isCloser_of_closer? hk)] at hk'
              cases hk'
            simp [matchingFrom?, hc, hco, hck, hkk]
      · -- a closing bracket, of something opened later or of the bracket looked for
        have hco : c ≠ o := fun e => by
          have := closer?_of_isCloser hcl
          rw [e, hk] at this
          cases this
        cases p with
        | nil =>
          simp only [nil_append, cons.injEq] at heq
          obtain ⟨rfl, rfl⟩ := heq
          refine ⟨[], r, rfl, ?_, rfl, hc, h⟩
          simp [matchingFrom?, hc, hco]
        | cons x q =>
          simp only [cons_append, cons.injEq] at heq
          obtain ⟨rfl, rfl⟩ := heq
          refine next rfl ?_ ?_
          · simp [Lexer.bracketStep, hc, bracketStep, hcl, closer?_of_isCloser hcl]
          · by_cases hck : x = k
            · simp [matchingFrom?, hck ▸ hc, hck, hko]
            · simp [matchingFrom?, hc, hco, hck]
      · refine next rfl (Lexer.bracketStep_eq_self hnb p) ?_
        have hco : c ≠ o := fun e => by simp [isBracket, e, hk] at hnb
        have hck : c ≠ k := fun e => by simp [isBracket, e, isCloser_of_closer? hk] at hnb
        simp [matchingFrom?, hc, hco, hck]
    · rw [Lexer.bracketStep_of_not_isCode hc] at hp
      refine next (Option.some.inj hp).symm (Lexer.bracketStep_of_not_isCode hc p) ?_
      simp [matchingFrom?, hc]

theorem matching?_cons (hk : closer? o = some k) (r : Text) :
    matching? (o :: r) = (matchingFrom? o k ⟨.code, o⟩ 1 r).map (· + 1) := by
  have hcode := isCode_of_closer? hk
  simp [matching?, hk, matchingFrom?, hcode, Lexer.step_eq_of_isCode hcode]

theorem matching?_eq (hk : closer? o = some k) (hcode : l.isCode o = true) {t : List Char}
    (h : l.unclosed? t (o :: s) = some []) :
    ∃ a b, s = a ++ k :: b ∧ matching? (o :: s) = some (a.length + 1)
      ∧ (⟨.code, o⟩ : Lexer).unclosed? [] a = some []
      ∧ ((⟨.code, o⟩ : Lexer).run a).isCode k = true
      ∧ (((⟨.code, o⟩ : Lexer).run a).step k).unclosed? t b = some [] := by
  rw [Lexer.unclosed?, bracketStep_open hk hcode, Option.bind_some, Lexer.step_eq_of_isCode hcode] at h
  obtain ⟨a, b, rfl, hfind, hrest⟩ := matchingFrom?_eq (p := []) hk t h
  refine ⟨a, b, rfl, ?_, hrest⟩
  rw [matching?_cons hk]
  exact congrArg (Option.map (· + 1)) hfind

theorem WellNested.enclosed (hk : closer? o = some k) (h : WellNested (o :: s)) :
    ∃ a b, s = a ++ k :: b ∧ enclosed? (o :: s) = some (a, b) ∧ WellNested a ∧ WellNested b := by
  have hcode := isCode_of_closer? hk
  obtain ⟨hoR, hkR⟩ := ne_of_closer? hk
  obtain ⟨a, b, rfl, hmatch, ha, hak, hb⟩ := matching?_eq hk hcode h.brackets
  have hm := h.literals
  rw [Lexer.run_cons, Lexer.step_eq_of_isCode hcode, Lexer.run_append, Lexer.run_cons] at hm
  refine ⟨a, b, rfl, ?_, Lexer.Anew.wellNested ⟨rfl, .inl hoR⟩ ha (Lexer.mode_of_isCode hak),
    (Lexer.fresh_step hak hkR).anew.wellNested hb hm⟩
  rw [enclosed?, hmatch, Option.map_some, take_succ_cons, take_left, drop_one,
    tail_cons, drop_succ_cons, drop_length_add_append]
  rfl

theorem bracketStep_frame {q : List Char} (h : bracketStep c p = some q) (t : List Char) :
    bracketStep c (p ++ t) = some (q ++ t) := by
  rcases bracketStep_cases h with ⟨k, hk, rfl⟩ | ⟨hc, rfl⟩ | ⟨hc, rfl⟩
  · simp [bracketStep, hk]
  · simp [bracketStep, closer?_of_isCloser hc, hc]
  · exact bracketStep_of_not_isBracket hc _

theorem Lexer.unclosed?_frame :
    ∀ {l : Lexer} {p q : List Char}, l.unclosed? p s = some q → ∀ t, l.unclosed? (p ++ t) s = some (q ++ t) := by
  induction s with
  | nil =>
    intro l p q h t
    cases h
    rfl
  | cons c r ih =>
    intro l p q h t
    obtain ⟨p', hp, h⟩ := Option.bind_eq_some_iff.mp h
    have hstep : l.bracketStep c (p ++ t) = some (p' ++ t) := by
      by_cases hc : l.isCode c = true
      · rw [bracketStep_of_isCode hc] at hp ⊢
        exact bracketStep_frame hp t
      · rw [bracketStep_of_not_isCode hc] at hp ⊢
        cases hp
        rfl
    rw [Lexer.unclosed?, hstep, Option.bind_some]
    exact ih h t

theorem WellNested.bracketed (hk : closer? o = some k) (h : WellNested s) : WellNested (o :: (s ++ [k])) := by
  have hanew : (Lexer.start.step o).Anew s := (fresh_opened hk).anew
  have hend : ((Lexer.start.step o).run s).isCode k = true := by
    refine Lexer.isCode_of_mode ?_ (not_isQuote_of_closer? hk).2
    rw [hanew.run_mode]
    exact h.literals
  have hinside : (Lexer.start.step o).unclosed? [k] s = some [k] :=
    Lexer.unclosed?_frame ((hanew.unclosed?_eq []).trans h.brackets) [k]
  have hclose : ((Lexer.start.step o).run s).bracketStep k [k] = some [] := by
    have hc := isCloser_of_closer? hk
    simp [Lexer.bracketStep, hend, bracketStep, closer?_of_isCloser hc, hc]
  refine ⟨?_, ?_⟩
  · rw [Lexer.unclosed?, bracketStep_open hk (isCode_of_closer? hk), Option.bind_some, Lexer.unclosed?_append,
      hinside, Option.bind_some, Lexer.unclosed?, hclose]
    rfl
  · rw [Lexer.run_cons, Lexer.run_append]
    exact Lexer.step_mode_of_isCode hend

theorem WellNested.composite_closed {lit : Composite} (h : WellNested s) (hl : Composite.split? s = some lit) :
    lit.closed = true := by
  simp only [Composite.split?] at hl
  obtain ⟨i, hi, hl⟩ := Option.bind_eq_some_iff.mp hl
  obtain ⟨a, b, hs, rfl, hcode, hd⟩ := eq_append_of_topIndexFrom? hi
  have ht := h.trim
  rw [hs] at ht
  obtain ⟨u, v, rfl, hmatch, _⟩ :=
    matching?_eq rfl hcode (ht.before_top (by omega)).2
  rw [hs, drop_left, hmatch] at hl
  split at hl
  · cases hl
  · simp only at hl
    split at hl
    · cases hl
      rfl
    · cases hl

theorem eq_append_of_matchingFrom? :
    ∀ {l : Lexer} {d n : Nat}, matchingFrom? o k l d s = some n →
      ∃ a b, s = a ++ k :: b ∧ a.length = n ∧ ∀ t, matchingFrom? o k l d (a ++ k :: t) = some n := by
  induction s with
  | nil =>
    intro l d n h
    cases h
  | cons c r ih =>
    intro l d n h
    -- every way on but one goes into the rest
    have later {l' : Lexer} {d' : Nat} (h' : (matchingFrom? o k l' d' r).map (· + 1) = some n)
        (hstep : ∀ t, matchingFrom? o k l d (c :: t) = (matchingFrom? o k l' d' t).map (· + 1)) :
        ∃ a b, c :: r = a ++ k :: b ∧ a.length = n ∧ ∀ t, matchingFrom? o k l d (a ++ k :: t) = some n := by
      obtain ⟨m, hm, rfl⟩ := Option.map_eq_some_iff.mp h'
      obtain ⟨a, b, rfl, rfl, ht⟩ := ih hm
      exact ⟨c :: a, b, rfl, rfl, fun t => by rw [cons_append, hstep, ht]; rfl⟩
    unfold matchingFrom? at h
    split at h
    · rename_i hc
      exact later h fun t => by rw [matchingFrom?, if_pos hc]
    · rename_i ho
      split at h
      · rename_i hk
        split at h
        · rename_i hd
          cases h
          obtain rfl : c = k := beq_iff_eq.mp (Bool.and_eq_true_iff.mp hk).2
          exact ⟨[], r, rfl, rfl, fun t => by rw [nil_append, matchingFrom?, if_neg ho, if_pos hk, if_pos hd]⟩
        · rename_i hd
          exact later h fun t => by rw [matchingFrom?, if_neg ho, if_pos hk, if_neg hd]
      · rename_i hk
        exact later h fun t => by rw [matchingFrom?, if_neg ho, if_neg hk]

theorem matching?_append {n : Nat} (h : matching? s = some n) (t : Text) : matching? (s ++ t) = some n := by
  cases s with
  | nil => cases h
  | cons c r =>
    simp only [matching?, cons_append, head?_cons, Option.bind_some] at h ⊢
    obtain ⟨k, hk, h⟩ := Option.bind_eq_some_iff.mp h
    obtain ⟨a, b, hs, _, hfind⟩ := eq_append_of_matchingFrom? h
    rw [hk, Option.bind_some, ← cons_append, hs, append_assoc]
    exact hfind (b ++ t)

theorem WellNested.level_eq (h : WellNested s) : Lexer.start.level s = 0 := by
  have := Lexer.length_unclosed? h.brackets
  simp at this
  exact this.symm

theorem WellNested.topIndex?_append_cons (h : WellNested a) (hq : Lexer.isQuote c = false) (b : Text) :
    topIndex? c (a ++ c :: b) = (topIndex? c a).or (some a.length) := by
  have hcode : (Lexer.start.run a).isCode c = true := Lexer.isCode_of_mode h.literals hq
  unfold topIndex?
  rw [topIndexFrom?_append, h.level_eq, topIndexFrom?, hcode]
  simp

namespace Composite

theorem head?_type {lit : Composite} (h : split? s = some lit) : lit.type.head? = (Text.trim s).head? := by
  simp only [split?] at h
  obtain ⟨i, hi, h⟩ := Option.bind_eq_some_iff.mp h
  have htype : lit.type = Text.trim ((Text.trim s).take i) ∧ Text.trim ((Text.trim s).take i) ≠ [] := by
    split at h
    · cases h
    · rename_i hne
      have hne : Text.trim ((Text.trim s).take i) ≠ [] := by simpa using hne
      split at h
      · split at h
        · cases h
          exact ⟨rfl, hne⟩
        · cases h
      · cases h
        exact ⟨rfl, hne⟩
  obtain ⟨he, hne⟩ := htype
  have hsolid := (solid_trim s).1
  rw [he]
  cases ht : Text.trim s with
  | nil =>
    rw [ht, take_nil] at hne
    exact absurd rfl hne
  | cons c r =>
    cases i with
    | zero =>
      rw [take_zero] at hne
      exact absurd rfl hne
    | succ i =>
      exact head?_trim_cons (hsolid c (by rw [ht]; rfl)) _

theorem split?_open (hT : WellNested T) (hh : SolidStart T) (hne : T ≠ [])
    (hno : topIndex? '{' T = none) : split? (T ++ "\x7b") = some ⟨Text.trim T, [], false⟩ := by
  have htrim : Text.trim (T ++ ("\x7b" : Text)) = T ++ "\x7b" :=
    trim_concat_of_solid hh hne rfl
  have htype : (Text.trim T).isEmpty = false := by
    cases T with
    | nil => exact absurd rfl hne
    | cons c r =>
      have hc := mem_trim_of_solid (s := c :: r) mem_cons_self (hh c rfl)
      cases he : Text.trim (c :: r) with
      | nil =>
        rw [he] at hc
        cases hc
      | cons d t => rfl
  have hfirst : topIndex? '{' (T ++ "\x7b") = _ := hT.topIndex?_append_cons rfl []
  simp only [split?, htrim, hfirst, hno, Option.none_or, Option.bind_some, take_left,
    drop_left, htype, Bool.false_eq_true, if_false]
  rw [show matching? ("\x7b" : Text) = none by decide, drop_length_add_append]
  rfl

theorem split?_append_eq_none {x : Text} (hT : WellNested T) (hx : x ≠ []) (htrim : Text.trim (T ++ x) = T ++ x)
    (hi : topIndex? '{' T = some i) : split? (T ++ x) = none := by
  have hopen : topIndex? '{' (T ++ x) = some i := by
    unfold topIndex? at hi ⊢
    rw [topIndexFrom?_append, hi, Option.some_or]
  obtain ⟨a, b, rfl, rfl, hcode, hd⟩ := eq_append_of_topIndexFrom? hi
  obtain ⟨u, v, rfl, hmatch, _⟩ :=
    matching?_eq (o := '{') (k := '}') rfl hcode (hT.before_top (by omega)).2
  have hm := matching?_append hmatch x
  have hpos := length_pos_iff.mpr hx
  simp only [split?, htrim, hopen, Option.bind_some]
  split
  · rfl
  · rw [append_assoc, drop_left, hm]
    simp only
    rw [if_neg]
    simp
    omega

theorem split?_eq_none (hT : WellNested T) (hh : SolidStart T)
    (hi : topIndex? '{' T = some i) : split? (T ++ "\x7b") = none := by
  have hne : T ≠ [] := by
    rintro rfl
    cases hi
  exact split?_append_eq_none hT (by decide) (trim_concat_of_solid hh hne rfl) hi

end Composite

/-! ## 7. Brace counts -/

theorem bracesFrom_append (l : Lexer) (a b : Text) :
    bracesFrom l (a ++ b)
      = ((bracesFrom l a).1 + (bracesFrom (l.run a) b).1,
          (bracesFrom l a).2 + (bracesFrom (l.run a) b).2) := by
  induction a generalizing l with
  | nil => simp [bracesFrom]
  | cons c a ih =>
    simp only [cons_append, bracesFrom, ih, Lexer.run_cons]
    split
    · exact Prod.ext (by simp only; omega) rfl
    · split
      · exact Prod.ext rfl (by simp only; omega)
      · rfl

theorem bracesFrom_of_unclosed? :
    ∀ {l : Lexer} {p q : List Char}, l.unclosed? p s = some q →
      q.count '}' + (bracesFrom l s).2 = p.count '}' + (bracesFrom l s).1 := by
  induction s with
  | nil =>
    intro l p q h
    cases h
    rfl
  | cons c r ih =>
    intro l p q h
    obtain ⟨p', hp, h⟩ := Option.bind_eq_some_iff.mp h
    have hr := ih h
    by_cases hc : l.isCode c = true
    · rw [Lexer.bracketStep_of_isCode hc] at hp
      rcases bracketStep_cases hp with ⟨k, hk, rfl⟩ | ⟨hcl, rfl⟩ | ⟨hnb, rfl⟩
      · rcases closer?_cases hk with ⟨rfl, rfl⟩ | ⟨rfl, rfl⟩ | ⟨rfl, rfl⟩ <;>
        · simp [bracesFrom, hc] at hr ⊢
          omega
      · rcases isCloser_cases hcl with rfl | rfl | rfl <;>
        · simp [bracesFrom, hc] at hr ⊢
          omega
      · have ho : c ≠ '{' := fun e => by rw [e] at hnb; cases hnb
        have hk : c ≠ '}' := fun e => by rw [e] at hnb; cases hnb
        simp [bracesFrom, ho, hk]
        exact hr
    · rw [Lexer.bracketStep_of_not_isCode hc] at hp
      cases hp
      simp [bracesFrom, hc]
      exact hr

/-- As many braces are opened as closed. -/
theorem braces_of_unclosed? (h : Lexer.start.unclosed? [] s = some []) : (braces s).1 = (braces s).2 := by
  have := bracesFrom_of_unclosed? h
  simp at this
  exact this.symm

theorem braceDepth_of_unclosed? (h : Lexer.start.unclosed? [] s = some []) (d : Nat) : braceDepth d s = d := by
  have := braces_of_unclosed? h
  unfold braceDepth
  omega

theorem WellNested.braceDepth_eq (h : WellNested s) (d : Nat) : braceDepth d s = d :=
  braceDepth_of_unclosed? h.brackets d

theorem WellNested.braceDepth_open (h : WellNested s) (d : Nat) : braceDepth d (s ++ "\x7b") = d + 1 := by
  have he := braces_of_unclosed? h.brackets
  have hb : bracesFrom (Lexer.start.run s) "\x7b" = (1, 0) := by
    have hc : (Lexer.start.run s).isCode '{' = true := Lexer.isCode_of_mode h.literals rfl
    simp [bracesFrom, hc]
  unfold braceDepth braces at *
  rw [bracesFrom_append, hb]
  simp only
  omega

theorem Lexer.Anew.bracesFrom_eq (h : l.Anew s) : bracesFrom l s = braces s := by
  unfold braces
  cases s with
  | nil => rfl
  | cons c r => simp only [bracesFrom, h.step_eq, h.isCode_eq]

theorem WellNested.braceDepth_reopen (h : WellNested s) (d : Nat) :
    braceDepth (d + 1) ("\x7d" ++ (s ++ "\x7b")) = d + 1 := by
  have hd := h.braceDepth_open (d + 1)
  have hb : braces ("\x7d" ++ (s ++ "\x7b"))
      = ((braces (s ++ "\x7b")).1, (braces (s ++ "\x7b")).2 + 1) := by
    have hfresh : (Lexer.start.run "\x7d").Fresh := ⟨rfl, by decide⟩
    rw [braces, bracesFrom_append, hfresh.anew.bracesFrom_eq]
    refine Prod.ext ?_ ?_
    · show 0 + _ = _
      omega
    · show 1 + _ = _
      omega
  unfold braceDepth at hd ⊢
  rw [hb]
  simp only
  omega

end Linewise
