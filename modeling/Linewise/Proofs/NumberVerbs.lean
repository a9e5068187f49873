/-
  The verb `%v` on numbers.

  Two readers tell an integer from other numbers. One takes a sign, the underscores and the head of a
  base away; the other, which chooses the verb of C, reads the text as it stands:

      1, -7, 0x1F            integers with %d
      0b101, 0X1F, 1_000     integers with %g
-/
import Linewise.Proofs.FormatVerbs

namespace Linewise

open Text List

variable {c : Char} {s d arg : Text}

namespace Number

/-! ## 1. Kinds of numbers -/

/-- An integer literal of 64 bits: in a base that its head announces, or in decimal. -/
def isInteger (s : Text) : Bool :=
  startsNumeric (magnitude s)
    && match radix? (magnitude s) with
      | some (base, digits) => (int64? base digits).isSome
      | none => (int64? 10 (magnitude s)).isSome

/-- Nothing has to be taken away but a sign: decimal, with no underscore and no white space. -/
structure Plain (s : Text) : Prop where
  trimmed : trim s = s
  joined : '_' ∉ s
  decimal : radix? (magnitude s) = none

/-- The least integer of 64 bits, in decimal. -/
def IsLeast (s : Text) : Prop := ∃ digits, s = '-' :: digits ∧ nat? 10 digits = some int64Bound

/-! ## 2. Decimal digits -/

/-- A run of decimal digits. -/
def Digits (s : Text) : Prop := s ≠ [] ∧ ∀ c ∈ s, c.isDigit = true

theorem digit_plain (h : c.isDigit = true) :
    c.toNat - 48 < 10 ∧ isBlank c = false ∧ c ∉ ("_+-.xXbBoO" : Text) := by
  have hall : ∀ n < 58, (Char.ofNat n).isDigit = true → (Char.ofNat n).toNat - 48 < 10 ∧
      isBlank (Char.ofNat n) = false ∧ Char.ofNat n ∉ ("_+-.xXbBoO" : Text) := by decide
  have hle : c.toNat ≤ 57 := by
    have hrange : 48 ≤ c.toNat ∧ c.toNat ≤ 57 := by simpa [Char.isDigit, UInt32.le_iff_toNat_le] using h
    exact hrange.2
  have hc := hall c.toNat (Nat.lt_succ_of_le hle)
  rw [Char.ofNat_toNat] at hc
  exact hc h

theorem isSome_digit? (c : Char) : (digit? 10 c).isSome = c.isDigit := by
  unfold digit?
  cases h : c.isDigit with
  | true => simp [(digit_plain h).1]
  | false =>
    rw [if_neg Bool.false_ne_true]
    split
    · simp
    · split <;> simp

theorem isSome_natFrom? (s : Text) : ∀ acc, (natFrom? 10 acc s).isSome = s.all Char.isDigit := by
  induction s with
  | nil => intro acc; rfl
  | cons c s ih =>
    intro acc
    rw [natFrom?, all_cons, ← isSome_digit?]
    cases digit? 10 c with
    | none => rfl
    | some v => exact ih _

theorem digits_of_nat? {n : Nat} (h : nat? 10 s = some n) : Digits s := by
  unfold nat? at h
  split at h
  · cases h
  · rename_i hne
    refine ⟨by simpa using hne, all_eq_true.mp ?_⟩
    rw [← isSome_natFrom? s 0, h]
    rfl

namespace Digits

theorem startsNumeric (h : Digits d) : startsNumeric d = true := by
  obtain ⟨c, r, rfl⟩ := exists_cons_of_ne_nil h.1
  have hc := h.2 c mem_cons_self
  have hdot : c ≠ '.' := fun e => (digit_plain hc).2.2 (e ▸ by decide)
  unfold Number.startsNumeric
  split
  · rename_i heq
    exact absurd (cons.inj heq).1 hdot
  · rename_i heq
    rwa [← (cons.inj heq).1]
  · rename_i heq
    cases heq

theorem radix?_eq_none (h : Digits d) : radix? d = none := by
  unfold radix?
  split
  · rename_i c r
    have hc := (digit_plain (h.2 c (mem_cons_of_mem _ mem_cons_self))).2.2
    simp only [String.reduceToList, mem_cons, not_mem_nil, not_or] at hc
    simp [hc]
  · rfl

theorem plain (h : Digits d) {sign : Text} (hs : sign ∈ [[], ['-'], ['+']]) :
    magnitude (sign ++ d) = d ∧ Plain (sign ++ d) := by
  have hmem : ∀ c ∈ sign ++ d, isBlank c = false ∧ c ≠ '_' := by
    intro c hc
    rcases mem_append.mp hc with hc | hc
    · have hsigns : ∀ t ∈ ([[], ['-'], ['+']] : List Text), ∀ c ∈ t, isBlank c = false ∧ c ≠ '_' := by decide
      exact hsigns sign hs c hc
    · obtain ⟨_, hblank, hmark⟩ := digit_plain (h.2 c hc)
      exact ⟨hblank, fun e => hmark (e ▸ by decide)⟩
  have htrim : trim (sign ++ d) = sign ++ d := trim_eq_self_of_solid
    ⟨fun c hc => (hmem c (mem_of_head? hc)).1, fun c hc => (hmem c (mem_of_getLast? hc)).1⟩
  have hfilter : (sign ++ d).filter (· != '_') = sign ++ d :=
    filter_eq_self.mpr fun c hc => by simpa using (hmem c hc).2
  have hmagnitude : magnitude (sign ++ d) = d := by
    unfold magnitude
    rw [htrim, hfilter]
    simp only [mem_cons, not_mem_nil, or_false] at hs
    rcases hs with rfl | rfl | rfl
    · obtain ⟨c, r, rfl⟩ := exists_cons_of_ne_nil h.1
      have hc := (digit_plain (h.2 c mem_cons_self)).2.2
      split
      · rename_i heq
        exact absurd ((cons.inj heq).1 ▸ by decide) hc
      · rename_i heq
        exact absurd ((cons.inj heq).1 ▸ by decide) hc
      · rfl
    · rfl
    · rfl
  exact ⟨hmagnitude, htrim, fun hc => (hmem _ hc).2 rfl, by rw [hmagnitude, h.radix?_eq_none]⟩

end Digits

theorem isSome_int64? : (int64? 10 s).isSome = true ↔
    ∃ sign ∈ ([[], ['-'], ['+']] : List Text), ∃ d n, s = sign ++ d ∧ nat? 10 d = some n ∧
      (n < int64Bound ∨ sign = ['-'] ∧ n = int64Bound) := by
  have hfits (p : Nat → Bool) (f : Nat → Int) (d : Text) : (((nat? 10 d).filter p).map f).isSome = true ↔
      ∃ n, nat? 10 d = some n ∧ p n = true := by
    cases nat? 10 d with
    | none => simp
    | some n => cases hp : p n <;> simp [hp]
  constructor
  · intro h
    unfold int64? at h
    split at h
    · obtain ⟨n, hn, hle⟩ := (hfits _ _ _).mp h
      have hle : n ≤ int64Bound := by simpa using hle
      exact ⟨['-'], by decide, _, n, rfl, hn, (Nat.lt_or_eq_of_le hle).imp_right fun e => ⟨rfl, e⟩⟩
    · obtain ⟨n, hn, hlt⟩ := (hfits _ _ _).mp h
      exact ⟨['+'], by decide, _, n, rfl, hn, .inl (by simpa using hlt)⟩
    · obtain ⟨n, hn, hlt⟩ := (hfits _ _ _).mp h
      exact ⟨[], by decide, _, n, rfl, hn, .inl (by simpa using hlt)⟩
  · rintro ⟨sign, hs, d, n, rfl, hn, hfit⟩
    simp only [mem_cons, not_mem_nil, or_false] at hs
    rcases hs with rfl | rfl | rfl
    · have hlt : n < int64Bound := hfit.resolve_right fun h => cons_ne_nil _ _ h.1.symm
      have hd := digits_of_nat? hn
      obtain ⟨c, r, rfl⟩ := exists_cons_of_ne_nil hd.1
      have hc := (digit_plain (hd.2 c mem_cons_self)).2.2
      have hsign {e : Char} (he : e ∈ ("_+-.xXbBoO" : Text)) (u : Text) : c :: r ≠ e :: u := fun h =>
        hc ((cons.inj h).1 ▸ he)
      rw [nil_append, int64?.eq_3 _ _ (hsign (by decide)) (hsign (by decide))]
      exact (hfits _ _ _).mpr ⟨n, hn, by simpa using hlt⟩
    · have hle : n ≤ int64Bound := hfit.elim Nat.le_of_lt fun h => Nat.le_of_eq h.2
      exact (hfits _ _ _).mpr ⟨n, hn, by simpa using hle⟩
    · have hlt : n < int64Bound := hfit.resolve_right fun h => absurd h.1 (by decide)
      exact (hfits _ _ _).mpr ⟨n, hn, by simpa using hlt⟩

/-! ## 3. The two readers -/

theorem Plain.eq_append (h : Plain s) : ∃ sign ∈ ([[], ['-'], ['+']] : List Text), s = sign ++ magnitude s := by
  have hfilter : s.filter (· != '_') = s :=
    filter_eq_self.mpr fun c hc => by simpa using fun e : c = '_' => h.joined (e ▸ hc)
  unfold magnitude
  rw [h.trimmed, hfilter]
  split
  · exact ⟨['-'], by decide, rfl⟩
  · exact ⟨['+'], by decide, rfl⟩
  · exact ⟨[], by decide, rfl⟩

theorem nat?_of_int64? (hs : startsNumeric s = true) (h : (int64? 10 s).isSome = true) :
    ∃ n, nat? 10 s = some n ∧ n < int64Bound := by
  obtain ⟨sign, hsign, d, n, rfl, hn, hfit⟩ := isSome_int64?.mp h
  simp only [mem_cons, not_mem_nil, or_false] at hsign
  rcases hsign with rfl | rfl | rfl
  · exact ⟨n, hn, hfit.resolve_right fun h => cons_ne_nil _ _ h.1.symm⟩
  · cases hs
  · cases hs

/-- Taken for an integer: plain, or with the head `0x`. -/
theorem isIntegerArgument_iff (h : isInteger arg = true) :
    isIntegerArgument arg = true ↔ startsWith arg "0x" = true ∨ Plain arg := by
  unfold isIntegerArgument
  rw [Bool.or_eq_true, or_comm]
  refine or_congr_right ⟨fun hint => ?_, fun hplain => ?_⟩
  · obtain ⟨sign, hsign, d, n, rfl, hn, _⟩ := isSome_int64?.mp hint
    exact ((digits_of_nat? hn).plain hsign).2
  · unfold isInteger at h
    rw [hplain.decimal, Bool.and_eq_true] at h
    obtain ⟨n, hn, hlt⟩ := nat?_of_int64? h.1 h.2
    obtain ⟨sign, hsign, hs⟩ := hplain.eq_append
    exact isSome_int64?.mpr ⟨sign, hsign, _, n, hs, hn, .inl hlt⟩

theorem isInteger_of_radix? (hn : isNumber arg = true) (h : radix? (magnitude arg) ≠ none) : isInteger arg = true := by
  unfold isNumber at hn
  dsimp only at hn
  unfold isInteger
  cases hr : radix? (magnitude arg) with
  | none => exact absurd hr h
  | some p => rwa [hr] at hn

theorem radix?_of_startsWith (h : startsWith arg "0x" = true) : radix? (magnitude arg) ≠ none := by
  obtain ⟨r, rfl⟩ := startsWith_iff.mp h
  have htrim : trim ("0x" ++ r) = '0' :: 'x' :: trimEnd r := by
    show trimEnd (trimStart ('0' :: 'x' :: r)) = _
    rw [trimStart_cons_of_solid rfl]
    exact trimEnd_append_cons rfl ['0'] r
  unfold magnitude
  rw [htrim]
  exact nofun

theorem isIntegerArgument_iff_isLeast (hn : isNumber arg = true) (h : isInteger arg = false) :
    isIntegerArgument arg = true ↔ IsLeast arg := by
  unfold isIntegerArgument
  rw [Bool.or_eq_true]
  constructor
  · rintro (hint | hhex)
    · obtain ⟨sign, hsign, d, n, rfl, hnat, hfit⟩ := isSome_int64?.mp hint
      have hd := digits_of_nat? hnat
      rcases hfit with hlt | ⟨rfl, rfl⟩
      · -- the digits alone would be an integer
        obtain ⟨hmagnitude, _⟩ := hd.plain hsign
        have hsome := isSome_int64?.mpr ⟨[], by decide, d, n, rfl, hnat, .inl hlt⟩
        unfold isInteger at h
        rw [hmagnitude, hd.startsNumeric, hd.radix?_eq_none, Bool.true_and] at h
        exact absurd hsome (Bool.eq_false_iff.mp h)
      · exact ⟨d, rfl, hnat⟩
    · rw [isInteger_of_radix? hn (radix?_of_startsWith hhex)] at h
      cases h
  · rintro ⟨d, rfl, hnat⟩
    exact .inl (isSome_int64?.mpr ⟨['-'], by decide, d, _, rfl, hnat, .inr ⟨rfl, rfl⟩⟩)

end Number

/-! ## 4. The verb of C -/

theorem CFormat.getElem?_cVerbsFor (vs : List Char) : ∀ (args : List Text) (i : Nat),
    (cVerbsFor args vs)[i]? = vs[i]?.map (cVerb · (args[i]?.getD [])) := by
  induction vs with
  | nil => intro args i; rfl
  | cons v vs ih =>
    intro args i
    cases i with
    | zero => cases args <;> rfl
    | succ i =>
      refine (ih args.tail i).trans ?_
      rw [getElem?_tail]
      rfl

theorem cVerb_number (h : Number.isNumber arg = true) : cVerb 'v' arg = if isIntegerArgument arg then 'd' else 'g' := by
  unfold cVerb
  rw [h]
  rfl

/-- **The verb of C for a number under `%v`**, in every format and at every place. An integer has `%d` if it
    starts with `0x` or is plain, and `%g` otherwise; another number has `%g` unless it is the least
    integer, and `%d` then. -/
theorem numberVerb_iff {f : Text} {args : List Text} {i : Nat} (hverb : (verbs f)[i]? = some 'v')
    (harg : args[i]? = some arg) (hnumber : Number.isNumber arg = true) :
    ∃ v, (verbs (CFormat.ofGo none args f).format)[i]? = some v ∧ (v = 'd' ∨ v = 'g') ∧
      (Number.isInteger arg = true → (v = 'd' ↔ startsWith arg "0x" = true ∨ Number.Plain arg)) ∧
      (Number.isInteger arg = false → (v = 'g' ↔ ¬ Number.IsLeast arg)) := by
  have hout : (verbs (CFormat.ofGo none args f).format)[i]? = some (if isIntegerArgument arg then 'd' else 'g') := by
    rw [CFormat.verbs_ofGo, CFormat.getElem?_cVerbsFor, hverb, harg, ← cVerb_number hnumber]
    rfl
  refine ⟨_, hout, ?_, fun hint => ?_, fun hother => ?_⟩
  · split
    · exact .inl rfl
    · exact .inr rfl
  · rw [← Number.isIntegerArgument_iff hint]
    cases isIntegerArgument arg <;> decide
  · rw [← Number.isIntegerArgument_iff_isLeast hnumber hother]
    cases isIntegerArgument arg <;> decide

theorem numberVerb_iff_fraction :
    Number.isNumber "2.5" = true ∧ Number.isInteger "2.5" = false ∧
      (verbs (CFormat.ofGo none ["1", "2.5", "x"] "\"%v %6.2v %s\"").format)[1]? = some 'g' := by
  have hnumber : Number.isNumber "2.5" = true := rfl
  have hother : Number.isInteger "2.5" = false := rfl
  obtain ⟨v, hv, _, _, hverb⟩ := @numberVerb_iff "2.5" "\"%v %6.2v %s\"" ["1", "2.5", "x"] 1 rfl rfl hnumber
  have hleast : ¬ Number.IsLeast "2.5" := fun ⟨_, h, _⟩ => absurd (cons.inj h).1 (by decide)
  exact ⟨hnumber, hother, (hverb hother).mpr hleast ▸ hv⟩

/-- **An integer in base two, with an underscore, or with a large `X`, is printed as a fraction.** -/
theorem spelledInteger_fraction :
    (["0b101", "1_000", "0X1F", "-0x1F"] : List Text).all (fun arg =>
      Number.isInteger arg && (CFormat.ofGo none [arg] "\"%v\"").format == "\"%g\"") = true := by
  decide

end Linewise
