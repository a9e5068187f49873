/-
  Text without brackets and quotes: keywords, identifiers, lists of names.

  Such text is read in code throughout and stays at the level it starts on.
-/
import Linewise.Text.Word
import Linewise.Proofs.Balance

namespace Linewise

open Text List Lexer

variable {a p s sep : Text} {c d : Char} {names parts : List Text} {l : Lexer}

/-! ## 1. Bare text -/

namespace Bare

theorem run_mode (h : Bare s) (hl : l.mode = .code) : (l.run s).mode = .code := by
  induction s generalizing l with
  | nil => exact hl
  | cons c s ih =>
    exact ih h.tail (step_mode_of_isCode (isCode_of_mode hl h.head.2))

theorem wellNested (h : Bare s) : WellNested s :=
  ⟨h.unclosed?_eq start [], h.run_mode rfl⟩

theorem append_wellNested (ha : WellNested a) (h : Bare s) : WellNested (a ++ s) := by
  refine ⟨?_, ?_⟩
  · rw [unclosed?_append, ha.brackets, Option.bind_some, h.unclosed?_eq]
  · rw [run_append]
    exact h.run_mode ha.literals

theorem length_cutsFrom {sep : Char} (h : Bare s) (hl : l.mode = .code) :
    (cutsFrom sep l 0 s).length = s.count sep + 1 := by
  induction s generalizing l with
  | nil => rfl
  | cons c s ih =>
    have hc := isCode_of_mode hl h.head.2
    have hs := ih h.tail (step_mode_of_isCode hc)
    simp only [cutsFrom, h.nesting_eq, Int.add_zero, hc, Bool.true_and, beq_self_eq_true,
      Bool.and_true, count_cons]
    split
    · rw [length_cons, hs]
    · cases hcuts : cutsFrom sep (l.step c) 0 s with
      | nil => rw [hcuts] at hs; cases hs
      | cons p ps => rw [hcuts] at hs; exact hs

end Bare

namespace Binding

theorem signFrom?_append (ha : Bare a) (he : '=' ∉ a) (b : Text) :
    ∀ {l : Lexer}, l.mode = .code → signFrom? l 0 (a ++ b)
      = (signFrom? (l.run a) 0 b).map fun p => (p.1 + a.length, p.2) := by
  induction a with
  | nil =>
    intro l _
    simp
  | cons c a ih =>
    intro l hl
    have hc : (c == '=') = false := by
      rw [beq_eq_false_iff_ne]
      exact fun e => he (e ▸ mem_cons_self)
    have hcode := isCode_of_mode hl ha.head.2
    have hrest := ih ha.tail (fun hm => he (mem_cons_of_mem _ hm))
      (step_mode_of_isCode hcode)
    simp only [cons_append, signFrom?, hc, ha.nesting_eq, Bool.and_false, Bool.false_and,
      Bool.false_eq_true, if_false, Int.add_zero, hrest, Option.map_map, run_cons]
    congr 1

theorem signFrom?_bare (ha : Bare a) (he : '=' ∉ a) (hlast : a.getLast? = some c)
    (hc : c ∉ ("=!<>+-*/%&|^" : Text)) (v : Text) :
    signFrom? start 0 (a ++ ("= " ++ v)) = some (a.length, if c == ':' then .define else .assign) := by
  have hcode : (start.run a).isCode '=' = true := isCode_of_mode (ha.run_mode rfl) rfl
  have hl : (start.run a).last = c := by rw [run_last, hlast, Option.getD_some]
  simp at hc
  rw [signFrom?_append ha he _ rfl]
  simp [signFrom?, hcode, hl, hc]

theorem split?_define (ha : Bare a) (he : '=' ∉ a) (v : Text) :
    split? (a ++ (" := " ++ v)) = some ⟨trim a, trim v, .define⟩ := by
  have hb : Blank " " := by decide
  have hsign := signFrom?_bare (ha.append (by decide : Bare " :")) (not_mem_append he (by decide))
    (by rw [getLast?_append]; rfl) (by decide) v
  have hlhs : (a ++ (" := " ++ v)).take (a.length + 1) = a ++ " " := by
    rw [take_length_add_append]
    rfl
  have hrhs : (a ++ (" := " ++ v)).drop (a.length + 3) = " " ++ v := by
    rw [drop_length_add_append]
    rfl
  rw [append_assoc, length_append] at hsign
  refine (congrArg _ hsign).trans ?_
  show some (⟨trim (take (a.length + 1) _), trim (drop (a.length + 3) _), .define⟩ : Binding) = _
  rw [hlhs, hrhs, trim_append_blank hb, trim_blank_append hb]

end Binding

/-! ## 2. Word characters -/

theorem not_inRanges {s t : List (Nat × Nat)} (h : ∀ p ∈ s, ∀ q ∈ t, p.2 < q.1 ∨ q.2 < p.1) {n : Nat}
    (hn : inRanges s n = true) : inRanges t n = false := by
  refine Bool.eq_false_iff.mpr fun ht => ?_
  obtain ⟨p, hp, hpn⟩ := any_eq_true.mp hn
  obtain ⟨q, hq, hqn⟩ := any_eq_true.mp ht
  simp only [Bool.and_eq_true, decide_eq_true_eq] at hpn hqn
  rcases h p hp q hq with hlt | hlt <;> omega

theorem blankRanges_letterRanges : ∀ p ∈ blankRanges, ∀ q ∈ letterRanges, p.2 < q.1 ∨ q.2 < p.1 := by
  decide +kernel

theorem blankRanges_numeralRanges :
    ∀ p ∈ blankRanges, ∀ q ∈ numeralRanges, p.2 < q.1 ∨ q.2 < p.1 := by
  decide +kernel

theorem not_isWordChar_of_isBlank (h : isBlank c = true) : isWordChar c = false := by
  unfold isBlank at h
  by_cases hc : c.toNat < 0x80
  · rw [if_pos hc] at h
    simp only [Bool.or_eq_true, beq_iff_eq, Bool.and_eq_true, decide_eq_true_eq] at h
    rcases h with rfl | ⟨h1, h2⟩
    · decide
    · -- tab to carriage return
      have hcases : c.toNat = 9 ∨ c.toNat = 10 ∨ c.toNat = 11 ∨ c.toNat = 12 ∨ c.toNat = 13 := by omega
      have hof : c = Char.ofNat c.toNat := (Char.ofNat_toNat c).symm
      rcases hcases with e | e | e | e | e <;>
      · rw [e] at hof
        rw [hof]
        decide
  · rw [if_neg hc] at h
    have hl := not_inRanges blankRanges_letterRanges h
    have hn := not_inRanges blankRanges_numeralRanges h
    have hu : c ≠ '_' := fun e => hc (by rw [e]; decide)
    simp [isWordChar, isLetter, isNumeral, hc, hl, hn, hu]

theorem not_isBlank_of_isWordChar (h : isWordChar c = true) : isBlank c = false := by
  refine Bool.eq_false_iff.mpr fun hb => ?_
  rw [not_isWordChar_of_isBlank hb] at h
  cases h

theorem ne_of_isWordChar (hc : isWordChar c = true) (hd : isWordChar d = false) : c ≠ d := by
  intro e
  rw [e, hd] at hc
  cases hc

theorem not_special_of_isWordChar (h : isWordChar c = true) : isBracket c = false ∧ isQuote c = false :=
  not_special_of_class (by decide) h

/-! ## 3. Identifiers -/

theorem isWordChar_of_mem (h : isIdentifier s = true) : ∀ c ∈ s, isWordChar c = true := by
  intro c hc
  cases s with
  | nil => cases hc
  | cons d r =>
    obtain ⟨hd, hr⟩ := Bool.and_eq_true_iff.mp h
    rcases mem_cons.mp hc with rfl | hc
    · rcases Bool.or_eq_true_iff.mp hd with hd | hd
      · simp [isWordChar, hd]
      · simp [isWordChar, hd]
    · exact all_eq_true.mp hr c hc

theorem exists_cons_of_isIdentifier (h : isIdentifier s = true) : ∃ c r, s = c :: r ∧ isWordChar c = true := by
  cases s with
  | nil => cases h
  | cons c r => exact ⟨c, r, rfl, isWordChar_of_mem h c mem_cons_self⟩

theorem bare_of_isIdentifier (h : isIdentifier s = true) : Bare s := fun c hc =>
  not_special_of_isWordChar (isWordChar_of_mem h c hc)

theorem not_mem_of_isIdentifier (h : isIdentifier s = true) (hd : isWordChar d = false) : d ∉ s := fun hm =>
  ne_of_isWordChar (isWordChar_of_mem h d hm) hd rfl

theorem not_startsWith_identifier {x t : Text} (h : isIdentifier x = true) (hd : isWordChar d = false) (s : Text) :
    startsWith (x ++ s) (d :: t) = false := by
  obtain ⟨c, r, rfl, hc⟩ := exists_cons_of_isIdentifier h
  exact startsWith_of_head? rfl rfl (ne_of_isWordChar hc hd)

theorem solid_of_isIdentifier (h : isIdentifier s = true) : Solid s := by
  have hb : ∀ c ∈ s, isBlank c = false := fun c hc =>
    not_isBlank_of_isWordChar (isWordChar_of_mem h c hc)
  exact ⟨fun c hc => hb c (mem_of_head? hc), fun c hc => hb c (mem_of_getLast? hc)⟩

/-! ## 4. Lists of names -/

theorem joinWith_cons_cons (sep p q : Text) (ps : List Text) :
    joinWith sep (p :: q :: ps) = p ++ (sep ++ joinWith sep (q :: ps)) := by
  rw [joinWith, intercalate_cons_cons, append_assoc]
  rfl

theorem joinWith_singleton (sep p : Text) : joinWith sep [p] = p := by
  simp [joinWith]

theorem mem_joinWith (h : c ∈ joinWith sep parts) : c ∈ sep ∨ ∃ q ∈ parts, c ∈ q := by
  induction parts with
  | nil => cases h
  | cons q qs ih =>
    cases qs with
    | nil => exact .inr ⟨q, mem_cons_self, by simpa [joinWith] using h⟩
    | cons r rs =>
      rw [joinWith, intercalate_cons_cons, mem_append, mem_append] at h
      rcases h with (h | h) | h
      · exact .inr ⟨q, mem_cons_self, h⟩
      · exact .inl h
      · rcases ih h with h | ⟨t, ht, h⟩
        · exact .inl h
        · exact .inr ⟨t, mem_cons_of_mem _ ht, h⟩

theorem infix_joinWith (sep : Text) (h : p ∈ parts) : p <:+: joinWith sep parts := by
  induction parts with
  | nil => cases h
  | cons q qs ih =>
    cases qs with
    | nil =>
      rw [joinWith_singleton]
      exact mem_singleton.mp h ▸ infix_rfl
    | cons r rs =>
      rw [joinWith_cons_cons]
      rcases mem_cons.mp h with rfl | h
      · exact (prefix_append _ _).isInfix
      · exact (ih h).trans ((suffix_append _ _).isInfix.trans (suffix_append _ _).isInfix)

theorem mem_joinWith_of_mem (hp : p ∈ parts) (hc : c ∈ p) : c ∈ joinWith sep parts :=
  (infix_joinWith sep hp).subset hc

theorem bare_names (h : ∀ n ∈ names, isIdentifier n = true) : Bare (joinWith ", " names) := by
  intro c hc
  rcases mem_joinWith hc with hc | ⟨n, hn, hc⟩
  · exact (by decide : Bare ", ") c hc
  · exact bare_of_isIdentifier (h n hn) c hc

theorem not_mem_names (h : ∀ n ∈ names, isIdentifier n = true) (hd : isWordChar d = false)
    (hs : d ∉ (", " : Text)) : d ∉ joinWith ", " names := by
  intro hm
  rcases mem_joinWith hm with hm | ⟨n, hn, hm⟩
  · exact hs hm
  · exact not_mem_of_isIdentifier (h n hn) hd hm

theorem two_le_length_splitTop (h : ∀ n ∈ names, isIdentifier n = true) (hlen : 2 ≤ names.length) :
    2 ≤ (splitTop ',' (trim (joinWith ", " names))).length := by
  obtain ⟨a, b, rest, rfl⟩ : ∃ a b rest, names = a :: b :: rest := by
    match names, hlen with
    | a :: b :: rest, _ => exact ⟨a, b, rest, rfl⟩
  have hcomma : ',' ∈ trim (joinWith ", " (a :: b :: rest)) := by
    refine mem_trim_of_solid ?_ rfl
    rw [joinWith, intercalate_cons_cons]
    simp
  have hbare : Bare (trim (joinWith ", " (a :: b :: rest))) :=
    fun c hc => bare_names h c (mem_of_mem_trim hc)
  have hnb : ¬ isAllBlank (trim (joinWith ", " (a :: b :: rest))) = true := by
    intro hb
    exact absurd (isAllBlank_iff.mp hb _ hcomma) (by decide)
  unfold splitTop
  rw [if_neg hnb, length_map, hbare.length_cutsFrom rfl]
  have := count_pos_iff.mpr hcomma
  omega

end Linewise
