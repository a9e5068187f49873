/-
  Formats in C: their conversions, and whether they are still string literals.

  A percent sign takes the flags behind it and one character more for its verb, whatever that is:

      "%5.2f%%\n"    %5.2f and %%
      "100%"         %" is widened to %s, and the literal is left open

  Every directive becomes one conversion. The literal is closed as the format is with its directives
  cut down to their percent signs: the quote or backslash that one takes is gone.
-/
import Linewise.Lower.Print
import Linewise.Proofs.Trim

namespace Linewise

open Text List

variable {c : Char} {s flags : Text}

/-! ## 1. Directives -/

/-- A percent sign and what stands behind its flags. -/
structure Directive where
  /-- a backslash outside directives takes the percent sign -/
  escaped : Bool
  verb : Char
  deriving DecidableEq, Repr

/-- The directives from a place on. A backslash before it takes the next character if `escaped`;
    inside a directive, `pending` says so of its percent sign. -/
def directivesFrom (escaped : Bool) (pending : Option Bool) : Text → List Directive
  | [] => []
  | c :: r =>
    match pending with
    | none => directivesFrom (!escaped && c == '\\') (if c == '%' then some escaped else none) r
    | some e =>
      if isFlag c then directivesFrom false (some e) r
      else ⟨e, c⟩ :: directivesFrom false none r

theorem directivesFrom_outside (e : Bool) (c : Char) (r : Text) :
    directivesFrom e none (c :: r) = directivesFrom (!e && c == '\\') (if c == '%' then some e else none) r := rfl

theorem directivesFrom_inside (e p : Bool) (c : Char) (r : Text) :
    directivesFrom e (some p) (c :: r) =
      if isFlag c then directivesFrom false (some p) r else ⟨p, c⟩ :: directivesFrom false none r := rfl

theorem directivesFrom_plain (h : '%' ∉ s) : ∀ e : Bool, directivesFrom e none s = [] := by
  induction s with
  | nil => intro e; rfl
  | cons c r ih =>
    intro e
    obtain ⟨hc, hr⟩ := ne_and_not_mem_of_not_mem_cons h
    rw [directivesFrom_outside, if_neg (by simpa using hc.symm)]
    exact ih hr _

/-- The directives of a format. -/
def directives (s : Text) : List Directive := directivesFrom false none s

/-- The text with its directives cut down to their percent signs, inside a directive or outside. -/
def percents (inside : Bool) : Text → Text
  | [] => if inside then ['%'] else []
  | c :: r =>
    if inside then (if isFlag c then percents true r else '%' :: percents false r)
    else if c == '%' then percents true r
    else c :: percents false r

theorem percent_mem_percents {inside : Bool} (h : inside = true ∨ '%' ∈ s) : '%' ∈ percents inside s := by
  induction s generalizing inside with
  | nil =>
    rw [percents, if_pos (h.resolve_right not_mem_nil)]
    exact mem_cons_self
  | cons c r ih =>
    unfold percents
    split
    · split
      · exact ih (.inl rfl)
      · exact mem_cons_self
    · rename_i hin
      split
      · exact ih (.inl rfl)
      · rename_i hc
        have hmem := (mem_cons.mp (h.resolve_left hin)).resolve_left fun he => hc (beq_iff_eq.mpr he.symm)
        exact mem_cons_of_mem c (ih (.inr hmem))

theorem percents_plain (h : '%' ∉ s) : percents false s = s := by
  induction s with
  | nil => rfl
  | cons c r ih =>
    obtain ⟨hc, hr⟩ := ne_and_not_mem_of_not_mem_cons h
    rw [percents, if_neg Bool.false_ne_true, if_neg (by simpa using hc.symm), ih hr]

/-- A directive that stands for an argument. -/
def Directive.converts (d : Directive) : Bool := d.verb != '%'

/-- How many arguments a format asks for. -/
def conversions (s : Text) : Nat := (directives s).countP Directive.converts

/-- The verbs that stand for arguments. -/
def verbsOf (ds : List Directive) : List Char := (ds.filter Directive.converts).map (·.verb)

theorem verbsOf_cons (e : Bool) (c : Char) (ds : List Directive) :
    verbsOf (⟨e, c⟩ :: ds) = if c = '%' then verbsOf ds else c :: verbsOf ds := by
  unfold verbsOf
  by_cases hc : c = '%'
  · rw [if_pos hc, filter_cons_of_neg (by simp [Directive.converts, hc])]
  · rw [if_neg hc, filter_cons_of_pos (by simp [Directive.converts, hc])]
    rfl

/-- The verbs of a format that stand for arguments. -/
def verbs (s : Text) : List Char := verbsOf (directives s)

/-- The verbs from a place on, inside a directive or outside. -/
def verbsFrom (inside : Bool) (s : Text) : List Char :=
  verbsOf (directivesFrom false (if inside then some false else none) s)

theorem conversions_eq (s : Text) : conversions s = (verbs s).length := by
  unfold conversions verbs verbsOf
  rw [countP_eq_length_filter, length_map]

theorem verbsOf_directivesFrom (s : Text) (e : Bool) (p : Option Bool) :
    verbsOf (directivesFrom e p s) = verbsFrom p.isSome s := by
  have hany : ∀ (e e' : Bool) (p p' : Option Bool), p.isSome = p'.isSome →
      verbsOf (directivesFrom e p s) = verbsOf (directivesFrom e' p' s) := by
    induction s with
    | nil => intro _ _ _ _ _; rfl
    | cons c r ih =>
      intro e e' p p' hp
      cases p with
      | none =>
        obtain rfl : p' = none := by simpa using hp.symm
        exact ih _ _ _ _ (by split <;> rfl)
      | some b =>
        obtain ⟨b', rfl⟩ := Option.isSome_iff_exists.mp hp.symm
        rw [directivesFrom_inside, directivesFrom_inside]
        split
        · exact ih _ _ _ _ rfl
        · rw [verbsOf_cons, verbsOf_cons]
  exact hany e false p _ (by cases p <;> rfl)

theorem verbsFrom_percent (r : Text) : verbsFrom false ('%' :: r) = verbsFrom true r :=
  verbsOf_directivesFrom r _ _

theorem verbsFrom_char (hc : c ≠ '%') (r : Text) : verbsFrom false (c :: r) = verbsFrom false r := by
  show verbsOf (directivesFrom false none (c :: r)) = _
  rw [directivesFrom_outside, if_neg (by simpa using hc), verbsOf_directivesFrom]
  rfl

theorem verbsFrom_flag (hc : isFlag c = true) (r : Text) : verbsFrom true (c :: r) = verbsFrom true r := by
  show verbsOf (directivesFrom false (some false) (c :: r)) = _
  rw [directivesFrom_inside, if_pos hc]
  exact verbsOf_directivesFrom r _ _

theorem verbsFrom_verb (hc : isFlag c = false) (r : Text) :
    verbsFrom true (c :: r) = if c = '%' then verbsFrom false r else c :: verbsFrom false r := by
  show verbsOf (directivesFrom false (some false) (c :: r)) = _
  rw [directivesFrom_inside, if_neg (by simp [hc]), verbsOf_cons, verbsOf_directivesFrom]
  rfl

theorem verbsFrom_flags (h : ∀ c ∈ flags, isFlag c = true) (r : Text) :
    verbsFrom true (flags ++ r) = verbsFrom true r := by
  induction flags with
  | nil => rfl
  | cons c flags ih =>
    obtain ⟨hc, hflags⟩ := forall_mem_cons.mp h
    rw [cons_append, verbsFrom_flag hc, ih hflags]

/-! ## 2. What a verb becomes -/

/-- The verbs of C that a conversion ends with. -/
def cVerbs : Text := "dfFeEgGxXocs"

/-- The verb of C that a verb becomes with its argument. -/
def cVerb (c : Char) (arg : Text) : Char :=
  if isNativeVerb c then c
  else if c == 'v' && Number.isNumber arg then (if isIntegerArgument arg then 'd' else 'g')
  else 's'

theorem cVerb_mem (c : Char) (arg : Text) : cVerb c arg ∈ cVerbs := by
  unfold cVerb
  split
  · rename_i h
    exact mem_append_left ['s'] (contains_iff_mem.mp h)
  · split
    · split <;> decide
    · decide

theorem conversion_text (flags : Text) (c : Char) (arg : Text) :
    c = 'q' ∧ (conversion flags c arg).1 = "\\\"%s\\\"" ∨
    c ≠ 'q' ∧ (conversion flags c arg).1 = '%' :: (flags ++ [cVerb c arg]) := by
  unfold conversion cVerb
  split
  · rename_i h
    exact .inr ⟨fun hq => absurd (hq ▸ h) (by decide), rfl⟩
  · split
    · rename_i h
      obtain rfl : c = 'v' := by simpa using (Bool.and_eq_true_iff.mp h).1
      exact .inr ⟨by decide, rfl⟩
    · split
      · rename_i h
        have hc : c = 'v' ∨ c = 's' := by simpa using (Bool.and_eq_true_iff.mp h).1
        exact .inr ⟨by rcases hc with rfl | rfl <;> decide, rfl⟩
      · split
        · rename_i h
          exact .inl ⟨by simpa using h, rfl⟩
        · rename_i h
          exact .inr ⟨by simpa using h, rfl⟩

theorem cVerbs_plain : ∀ v ∈ cVerbs, isFlag v = false ∧ v ≠ '%' ∧ v ≠ '"' ∧ v ≠ '\\' := by decide

theorem verbsFrom_conversion (h : ∀ c ∈ flags, isFlag c = true) (c : Char) (arg r : Text) :
    verbsFrom false ((conversion flags c arg).1 ++ r) = cVerb c arg :: verbsFrom false r := by
  rcases conversion_text flags c arg with ⟨rfl, ht⟩ | ⟨_, ht⟩
  · rw [ht]
    show verbsFrom false ('\\' :: '"' :: '%' :: 's' :: '\\' :: '"' :: r) = 's' :: verbsFrom false r
    rw [verbsFrom_char (by decide), verbsFrom_char (by decide), verbsFrom_percent, verbsFrom_verb rfl,
      if_neg (by decide), verbsFrom_char (by decide), verbsFrom_char (by decide)]
  · obtain ⟨hflag, hpercent, _, _⟩ := cVerbs_plain _ (cVerb_mem c arg)
    rw [ht, cons_append, verbsFrom_percent, append_assoc, verbsFrom_flags h, singleton_append,
      verbsFrom_verb hflag, if_neg hpercent]

namespace CFormat

/-- An argument that is formatted first. -/
def wrapped (arg : Text) : Text := "_format_string(" ++ arg ++ ").c_str()"

theorem format_verb (hflag : isFlag c = false) (hc : c ≠ '%') (flags : Text) (args : List Text) (r : Text) :
    (ofGo (some flags) args (c :: r)).format
      = (conversion flags c (args.head?.getD [])).1 ++ (ofGo none args.tail r).format := by
  have hpercent : (c == '%') = false := beq_eq_false_iff_ne.mpr hc
  cases args with
  | nil =>
    rw [ofGo.eq_def]
    dsimp only
    rw [hflag, hpercent, if_neg Bool.false_ne_true, if_neg Bool.false_ne_true]
    rfl
  | cons arg rest =>
    rw [ofGo.eq_def]
    dsimp only
    rw [hflag, hpercent, if_neg Bool.false_ne_true, if_neg Bool.false_ne_true]
    rfl

theorem format_percent {args : List Text} (r : Text) :
    (ofGo (some flags) args ('%' :: r)).format = '%' :: '%' :: (ofGo none args r).format := by
  have hflag : isFlag '%' = false := rfl
  simp [ofGo, hflag, prepend]

theorem format_char (hc : c ≠ '%') (args : List Text) (r : Text) :
    (ofGo none args (c :: r)).format = c :: (ofGo none args r).format := by
  simp [ofGo, beq_eq_false_iff_ne.mpr hc, prepend]

theorem ofGo_flag (h : isFlag c = true) (flags : Text) (args : List Text) (r : Text) :
    ofGo (some flags) args (c :: r) = ofGo (some (flags ++ [c])) args r := by
  simp [ofGo, h]

theorem format_plain (h : '%' ∉ s) (args : List Text) : (ofGo none args s).format = s := by
  induction s with
  | nil => rfl
  | cons c r ih =>
    obtain ⟨hc, hr⟩ := ne_and_not_mem_of_not_mem_cons h
    rw [format_char hc.symm, ih hr]

theorem forall_flags_concat (h : ∀ d ∈ flags, isFlag d = true) (hc : isFlag c = true) :
    ∀ d ∈ flags ++ [c], isFlag d = true :=
  forall_mem_append.mpr ⟨h, forall_mem_singleton.mpr hc⟩

/-! ## 3. Every verb with its argument -/

/-- The verbs of C for verbs and the arguments still to come. -/
def cVerbsFor (args : List Text) : List Char → List Char
  | [] => []
  | v :: vs => cVerb v (args.head?.getD []) :: cVerbsFor args.tail vs

theorem length_cVerbsFor (vs : List Char) : ∀ args : List Text, (cVerbsFor args vs).length = vs.length := by
  induction vs with
  | nil => intro args; rfl
  | cons v vs ih => intro args; exact congrArg (· + 1) (ih args.tail)

/-- Every verb becomes one conversion. -/
theorem verbsFrom_ofGo (s : Text) : ∀ (spec : Option Text) (args : List Text),
    (∀ flags ∈ spec, ∀ c ∈ flags, isFlag c = true) →
      verbsFrom false (ofGo spec args s).format = cVerbsFor args (verbsFrom spec.isSome s) := by
  induction s with
  | nil =>
    intro spec args h
    cases spec with
    | none => rfl
    | some flags =>
      -- a percent sign at the end has no verb on either side
      show verbsFrom false ('%' :: flags) = []
      have hend := verbsFrom_flags (h flags rfl) []
      rw [append_nil] at hend
      rw [verbsFrom_percent, hend]
      rfl
  | cons c r ih =>
    intro spec args h
    cases spec with
    | none =>
      by_cases hc : c = '%'
      · subst hc
        show verbsFrom false (ofGo (some []) args r).format = cVerbsFor args (verbsFrom false ('%' :: r))
        rw [verbsFrom_percent]
        exact ih (some []) args (by simp)
      · rw [format_char hc, verbsFrom_char hc, ih none args nofun]
        exact congrArg _ (verbsFrom_char hc r).symm
    | some flags =>
      cases hflag : isFlag c with
      | true =>
        rw [ofGo_flag hflag]
        refine (ih (some (flags ++ [c])) args ?_).trans (congrArg _ (verbsFrom_flag hflag r).symm)
        rintro _ ⟨⟩
        exact forall_flags_concat (h flags rfl) hflag
      | false =>
        refine Eq.trans ?_ (congrArg _ (verbsFrom_verb hflag r).symm)
        by_cases hc : c = '%'
        · subst hc
          rw [format_percent, verbsFrom_percent, verbsFrom_verb rfl, if_pos rfl, ih none args nofun]
          rfl
        · rw [format_verb hflag hc, verbsFrom_conversion (h flags rfl), ih none args.tail nofun, if_neg hc]
          rfl

theorem verbs_ofGo (args : List Text) (s : Text) : verbs (ofGo none args s).format = cVerbsFor args (verbs s) :=
  verbsFrom_ofGo s none args nofun

theorem conversions_ofGo (args : List Text) (s : Text) : conversions (ofGo none args s).format = conversions s := by
  rw [conversions_eq, conversions_eq, verbs_ofGo, length_cVerbsFor]

theorem args_ofGo (s : Text) : ∀ (spec : Option Text) (args : List Text),
    (ofGo spec args s).args.length = args.length ∧
      ∀ p ∈ args.zip (ofGo spec args s).args, p.2 = p.1 ∨ p.2 = wrapped p.1 := by
  have hsame (args : List Text) : args.length = args.length ∧ ∀ p ∈ args.zip args, p.2 = p.1 ∨ p.2 = wrapped p.1 := by
    refine ⟨rfl, fun p hp => .inl ?_⟩
    obtain ⟨i, hi, rfl⟩ := mem_iff_getElem.mp hp
    simp
  induction s with
  | nil => intro spec args; exact hsame args
  | cons c r ih =>
    intro spec args
    unfold ofGo
    cases spec with
    | none =>
      dsimp only
      split
      · exact ih _ args
      · exact ih _ args
    | some flags =>
      dsimp only
      split
      · exact ih _ args
      · split
        · exact ih _ args
        · cases args with
          | nil => exact ih _ []
          | cons arg rest =>
            obtain ⟨hlen, hzip⟩ := ih none rest
            refine ⟨congrArg (· + 1) hlen, fun p hp => ?_⟩
            rcases mem_cons.mp hp with rfl | hp
            · split
              · exact .inr rfl
              · exact .inl rfl
            · exact hzip p hp

end CFormat

/-! ## 4. Closed literals -/

/-- What follows the opening quote closes the literal with its last solid character. -/
def closesQuote (escaped : Bool) : Text → Bool
  | [] => false
  | c :: r =>
    if escaped then closesQuote false r
    else if c == '"' then isAllBlank r
    else closesQuote (c == '\\') r

theorem closesQuote_plain (h : '"' ∉ s) : ∀ e : Bool, closesQuote e s = false := by
  induction s with
  | nil => intro e; rfl
  | cons c r ih =>
    intro e
    obtain ⟨hc, hr⟩ := ne_and_not_mem_of_not_mem_cons h
    have hquote : (c == '"') = false := beq_eq_false_iff_ne.mpr hc.symm
    cases e with
    | true => exact ih hr false
    | false =>
      rw [closesQuote, if_neg Bool.false_ne_true, hquote, if_neg Bool.false_ne_true]
      exact ih hr _

theorem closesQuote_char (hq : c ≠ '"') (hb : c ≠ '\\') (e : Bool) (r : Text) :
    closesQuote e (c :: r) = closesQuote false r := by
  have hquote : (c == '"') = false := beq_eq_false_iff_ne.mpr hq
  have hback : (c == '\\') = false := beq_eq_false_iff_ne.mpr hb
  cases e with
  | true => rfl
  | false => rw [closesQuote, if_neg Bool.false_ne_true, hquote, hback, if_neg Bool.false_ne_true]

theorem fills_quoted {v : Text} (hv : Blank v) : SolidEnd s →
    ∀ (last : Char), (⟨.quoted '"', last⟩ : Lexer).fills true s = closesQuote false (s ++ v) ∧
      (⟨.escaped '"', last⟩ : Lexer).fills true s = closesQuote true (s ++ v) := by
  induction s with
  | nil =>
    intro _ last
    have hplain := closesQuote_plain (not_mem_of_blank hv rfl)
    exact ⟨(hplain false).symm, (hplain true).symm⟩
  | cons c r ih =>
    intro hend last
    have hrest : SolidEnd r := fun d hd =>
      hend d (by rw [getLast?_cons, hd]; rfl)
    obtain ⟨hquoted, hescaped⟩ := ih hrest c
    refine ⟨?_, hquoted⟩
    have hstep : (⟨.quoted '"', last⟩ : Lexer).step c
        = ⟨if c == '\\' then .escaped '"' else if c == '"' then .code else .quoted '"', c⟩ := by
      simp [Lexer.step, Lexer.Mode.next]
    rw [Lexer.fills, hstep, cons_append, closesQuote, if_neg Bool.false_ne_true]
    by_cases hb : c = '\\'
    · subst hb
      exact hescaped
    · by_cases hq : c = '"'
      · subst hq
        -- the quote is the last character exactly if nothing solid follows
        cases hr : r.getLast? with
        | none =>
          rw [getLast?_eq_none_iff.mp hr]
          exact (isAllBlank_iff.mpr hv).symm
        | some d =>
          have hmem : d ∈ r := mem_of_getLast? hr
          have hsolid : isAllBlank (r ++ v) = false := by
            refine Bool.eq_false_iff.mpr fun hall => ?_
            have hblank := isAllBlank_iff.mp hall d (mem_append_left v hmem)
            rw [hrest d hr] at hblank
            cases hblank
          rw [hsolid]
          exact isEmpty_eq_false_iff.mpr (ne_nil_of_mem hmem)
      · simp only [beq_eq_false_iff_ne.mpr hb, beq_eq_false_iff_ne.mpr hq, Bool.false_eq_true, if_false]
        exact hquoted

theorem isStringLiteral_quoted (s : Text) : isStringLiteral ('"' :: s) = closesQuote false s := by
  obtain ⟨v, hs, hv⟩ := eq_append_dropEndWhile isBlank s
  have hs : s = trimEnd s ++ v := hs
  have htrim : trim ('"' :: s) = '"' :: trimEnd s := by
    rw [trim, trimStart_cons_of_solid rfl, trimEnd_cons_of_solid rfl]
  have hfills := (fills_quoted (s := trimEnd s) hv (fun _ => getLast?_trimEnd) '"').1
  rw [← hs] at hfills
  have hopen : Lexer.start.fills false ('"' :: trimEnd s)
      = (⟨.quoted '"', '"'⟩ : Lexer).fills true (trimEnd s) := rfl
  unfold isStringLiteral
  rw [htrim]
  dsimp only
  rw [hopen, hfills]
  cases hnil : trimEnd s with
  | nil =>
    rw [hnil, nil_append] at hs
    rw [hs, closesQuote_plain (not_mem_of_blank hv rfl), Bool.and_false]
  | cons c r =>
    have hlen : decide (2 ≤ ('"' :: c :: r).length) = true := by simp
    rw [hlen]
    rfl

/-- A directive that takes no backslash, and adds none behind one. -/
def Directive.Sober (d : Directive) : Prop := d.verb ≠ '\\' ∧ ¬ (d.escaped = true ∧ d.verb = 'q')

instance (d : Directive) : Decidable d.Sober := inferInstanceAs (Decidable (_ ∧ _))

/-- It adds no quotes behind a backslash. -/
def Directive.keepsQuotes (d : Directive) : Bool := !(d.escaped && d.verb == 'q')

theorem Directive.keepsQuotes_iff {d : Directive} : d.keepsQuotes = true ↔ ¬ (d.escaped = true ∧ d.verb = 'q') := by
  simp [keepsQuotes, ← Bool.not_eq_true, imp_iff_not_or]

theorem closesQuote_flags (h : ∀ c ∈ flags, isFlag c = true) (r : Text) :
    closesQuote false (flags ++ r) = closesQuote false r := by
  have hflag : isFlag '"' = false ∧ isFlag '\\' = false := by decide
  induction flags with
  | nil => rfl
  | cons c flags ih =>
    obtain ⟨hc, hflags⟩ := forall_mem_cons.mp h
    have hq : c ≠ '"' := by rintro rfl; rw [hflag.1] at hc; cases hc
    have hb : c ≠ '\\' := by rintro rfl; rw [hflag.2] at hc; cases hc
    rw [cons_append, closesQuote_char hq hb, ih hflags]

theorem closesQuote_conversion (h : ∀ c ∈ flags, isFlag c = true) {e : Bool} (he : ¬ (e = true ∧ c = 'q'))
    (arg r : Text) : closesQuote e ((conversion flags c arg).1 ++ r) = closesQuote false r := by
  rcases conversion_text flags c arg with ⟨hc, ht⟩ | ⟨_, ht⟩
  · have he : e = false := Bool.eq_false_iff.mpr fun htrue => he ⟨htrue, hc⟩
    rw [ht, he]
    rfl
  · obtain ⟨_, _, hquote, hback⟩ := cVerbs_plain _ (cVerb_mem c arg)
    rw [ht, cons_append, closesQuote_char (by decide) (by decide), append_assoc, closesQuote_flags h,
      singleton_append, closesQuote_char hquote hback]

namespace CFormat

theorem percent_mem_format : ∀ (spec : Option Text) (args : List Text), spec.isSome = true ∨ '%' ∈ s →
    '%' ∈ (ofGo spec args s).format := by
  induction s with
  | nil =>
    rintro (_ | flags) args (h | h)
    · cases h
    · cases h
    · exact mem_cons_self
    · exact mem_cons_self
  | cons c r ih =>
    intro spec args h
    cases spec with
    | none =>
      have hmem := h.resolve_left Bool.false_ne_true
      by_cases hc : c = '%'
      · subst hc
        exact ih (some []) args (.inl rfl)
      · rw [format_char hc]
        exact mem_cons_of_mem c (ih none args (.inr ((mem_cons.mp hmem).resolve_left (Ne.symm hc))))
    | some flags =>
      cases hflag : isFlag c with
      | true =>
        rw [ofGo_flag hflag]
        exact ih _ args (.inl rfl)
      | false =>
        by_cases hc : c = '%'
        · subst hc
          rw [format_percent]
          exact mem_cons_self
        · rw [format_verb hflag hc]
          refine mem_append_left _ ?_
          rcases conversion_text flags c (args.head?.getD []) with ⟨_, ht⟩ | ⟨_, ht⟩
          · rw [ht]
            decide
          · rw [ht]
            exact mem_cons_self

/-- Behind the closing quote, a percent sign leaves neither text blank. -/
theorem isAllBlank_format (args : List Text) (o : Bool) : isAllBlank (ofGo none args s).format
    = (isAllBlank (percents false s) && (directivesFrom o none s).all Directive.keepsQuotes) := by
  by_cases hmem : '%' ∈ s
  · have hsolid {u : Text} (hu : '%' ∈ u) : isAllBlank u = false :=
      Bool.eq_false_iff.mpr fun hb => absurd (isAllBlank_iff.mp hb _ hu) (by decide)
    rw [hsolid (percent_mem_format none args (.inr hmem)), hsolid (percent_mem_percents (.inr hmem)), Bool.false_and]
  · rw [format_plain hmem, percents_plain hmem, directivesFrom_plain hmem]
    exact (Bool.and_true _).symm

theorem closesQuote_verb {r : Text} {P Q : Bool} (hflags : ∀ c ∈ flags, isFlag c = true) (hflag : isFlag c = false)
    (o : Bool) (hrest : ∀ args, closesQuote false (ofGo none args r).format = (P && Q)) {args : List Text} :
    closesQuote o (ofGo (some flags) args (c :: r)).format = (P && (Directive.keepsQuotes ⟨o, c⟩ && Q)) := by
  by_cases hc : c = '%'
  · subst hc
    have hkeeps : Directive.keepsQuotes ⟨o, '%'⟩ = true := by cases o <;> rfl
    rw [format_percent, closesQuote_char (by decide) (by decide), closesQuote_char (by decide) (by decide),
      hrest args, hkeeps, Bool.true_and]
  · rw [format_verb hflag hc]
    by_cases hspoils : o = true ∧ c = 'q'
    · -- the backslash takes the first one added, and the quote behind it closes
      obtain ⟨rfl, rfl⟩ := hspoils
      rw [show Directive.keepsQuotes ⟨true, 'q'⟩ = false from rfl, Bool.false_and, Bool.and_false]
      rfl
    · have hkeeps : Directive.keepsQuotes ⟨o, c⟩ = true := Directive.keepsQuotes_iff.mpr hspoils
      rw [closesQuote_conversion hflags hspoils, hrest args.tail, hkeeps, Bool.true_and]

/-- The rewritten text closes as its percent signs do. -/
theorem closesQuote_ofGo : ∀ (spec : Option Text) (args : List Text) (o : Bool),
    (∀ flags ∈ spec, ∀ c ∈ flags, isFlag c = true) →
    closesQuote o (ofGo spec args s).format = (closesQuote o (percents spec.isSome s) &&
      (directivesFrom (!spec.isSome && o) (spec.map fun _ => o) s).all Directive.keepsQuotes) := by
  induction s with
  | nil =>
    intro spec args o h
    cases spec with
    | none => rfl
    | some flags =>
      have hend := closesQuote_flags (h flags rfl) []
      rw [append_nil] at hend
      show closesQuote o ('%' :: flags) = (closesQuote o ['%'] && true)
      rw [closesQuote_char (by decide) (by decide), closesQuote_char (by decide) (by decide), hend, Bool.and_true]
  | cons c r ih =>
    intro spec args o hflags
    cases spec with
    | none =>
      by_cases hc : c = '%'
      · subst hc
        have hnext : directivesFrom o none ('%' :: r) = directivesFrom false (some o) r := by cases o <;> rfl
        show closesQuote o (ofGo (some []) args r).format = (closesQuote o (percents true r) &&
          (directivesFrom o none ('%' :: r)).all Directive.keepsQuotes)
        rw [hnext, ih (some []) args o (by simp)]
        rfl
      · have hper : percents false (c :: r) = c :: percents false r := by
          rw [percents, if_neg Bool.false_ne_true, if_neg (by simpa using hc)]
        show _ = (closesQuote o (percents false (c :: r)) && (directivesFrom o none (c :: r)).all Directive.keepsQuotes)
        rw [format_char hc, hper, directivesFrom_outside, if_neg (by simpa using hc)]
        cases o with
        | true => exact ih none args false nofun
        | false =>
          rw [closesQuote, closesQuote, if_neg Bool.false_ne_true, if_neg Bool.false_ne_true]
          cases hq : c == '"' with
          | false => exact ih none args (c == '\\') nofun
          | true =>
            obtain rfl : c = '"' := beq_iff_eq.mp hq
            rw [if_pos rfl, if_pos rfl]
            exact isAllBlank_format args _
    | some flags =>
      have hflags := hflags flags rfl
      show _ = (closesQuote o (percents true (c :: r)) && (directivesFrom false (some o) (c :: r)).all
        Directive.keepsQuotes)
      rw [directivesFrom_inside, percents, if_pos rfl]
      cases hflag : isFlag c with
      | true =>
        rw [if_pos rfl, if_pos rfl, ofGo_flag hflag]
        refine ih (some (flags ++ [c])) args o ?_
        rintro _ ⟨⟩
        exact forall_flags_concat hflags hflag
      | false =>
        rw [if_neg Bool.false_ne_true, if_neg Bool.false_ne_true, all_cons,
          closesQuote_char (by decide) (by decide)]
        exact closesQuote_verb hflags hflag o fun args => ih none args false nofun

end CFormat

/-- Percent signs close as the text, directives on quotes apart. -/
theorem closesQuote_percents : ∀ (inside o : Bool), closesQuote (!inside && o) s = true →
    (∀ d ∈ directivesFrom (!inside && o) (if inside then some o else none) s, d.verb ≠ '\\') →
    (closesQuote o (percents inside s) = true ↔
      ∀ d ∈ directivesFrom (!inside && o) (if inside then some o else none) s, d.verb ≠ '"') := by
  induction s with
  | nil => intro inside o hclose; cases hclose
  | cons c r ih =>
    intro inside o hclose hsober
    cases inside with
    | false =>
      rw [if_neg Bool.false_ne_true, Bool.not_false, Bool.true_and] at *
      by_cases hc : c = '%'
      · subst hc
        rw [closesQuote_char (by decide) (by decide)] at hclose
        have hnext : directivesFrom o none ('%' :: r) = directivesFrom false (some o) r := by cases o <;> rfl
        rw [hnext] at hsober ⊢
        exact ih true o hclose hsober
      · rw [directivesFrom_outside, if_neg (by simpa using hc)] at hsober ⊢
        rw [percents, if_neg Bool.false_ne_true, if_neg (by simpa using hc)]
        cases o with
        | true => exact ih false false hclose hsober
        | false =>
          rw [closesQuote, if_neg Bool.false_ne_true] at hclose ⊢
          cases hq : c == '"' with
          | false =>
            rw [hq, if_neg Bool.false_ne_true] at hclose
            rw [if_neg Bool.false_ne_true]
            exact ih false (c == '\\') hclose hsober
          | true =>
            -- the closing quote, and only white space behind it
            rw [hq, if_pos rfl] at hclose
            have hmem := not_mem_of_blank (isAllBlank_iff.mp hclose) (c := '%') rfl
            rw [if_pos rfl, percents_plain hmem, directivesFrom_plain hmem]
            exact ⟨fun _ => nofun, fun _ => hclose⟩
    | true =>
      rw [if_pos rfl, Bool.not_true, Bool.false_and] at *
      rw [directivesFrom_inside] at hsober ⊢
      rw [percents, if_pos rfl]
      cases hflag : isFlag c with
      | true =>
        have hplain : c ≠ '"' ∧ c ≠ '\\' := by
          constructor <;> rintro rfl <;> cases hflag
        rw [closesQuote_char hplain.1 hplain.2] at hclose
        rw [hflag, if_pos rfl] at hsober
        exact ih true o hclose hsober
      | false =>
        rw [hflag, if_neg Bool.false_ne_true] at hsober
        rw [if_neg Bool.false_ne_true, if_neg Bool.false_ne_true, forall_mem_cons,
          closesQuote_char (by decide) (by decide)]
        obtain ⟨hverb, hsober⟩ := forall_mem_cons.mp hsober
        by_cases hquote : c = '"'
        · -- the closing quote is taken for a verb, and only white space is left
          subst hquote
          have hblank : Blank r := isAllBlank_iff.mp hclose
          rw [percents_plain (not_mem_of_blank hblank rfl), closesQuote_plain (not_mem_of_blank hblank rfl)]
          exact ⟨nofun, fun h => absurd rfl h.1⟩
        · rw [closesQuote_char hquote hverb] at hclose
          exact (ih false false hclose hsober).trans (and_iff_right hquote).symm

/-! ## 5. Rewritten formats -/

/-- **A rewritten format**, for every format that is a string literal between double quotes and every list
    of arguments. It asks for as many arguments as the format did, and every argument stays in its place.
    It is a string literal if the format is one with its directives cut down to their percent signs, and no
    quotes are added behind a backslash. If no directive takes a backslash, that is so unless one takes the
    closing quote. -/
theorem format_literal_iff {f : Text} (hliteral : isStringLiteral f = true) (hquote : startsWith f "\"" = true)
    (args : List Text) :
    conversions (CFormat.ofGo none args f).format = conversions f ∧
    (CFormat.ofGo none args f).args.length = args.length ∧
    (∀ p ∈ args.zip (CFormat.ofGo none args f).args, p.2 = p.1 ∨ p.2 = CFormat.wrapped p.1) ∧
    (isStringLiteral (CFormat.ofGo none args f).format = true ↔
      isStringLiteral (percents false f) = true ∧ ∀ d ∈ directives f, ¬ (d.escaped = true ∧ d.verb = 'q')) ∧
    ((∀ d ∈ directives f, d.Sober) →
      (isStringLiteral (CFormat.ofGo none args f).format = true ↔ ∀ d ∈ directives f, d.verb ≠ '"')) := by
  obtain ⟨hlen, hzip⟩ := CFormat.args_ofGo f none args
  obtain ⟨s, hs⟩ := startsWith_iff.mp hquote
  obtain rfl : f = '"' :: s := hs
  have hclose : closesQuote false s = true := (isStringLiteral_quoted s).symm.trans hliteral
  have hformat : (CFormat.ofGo none args ('"' :: s)).format = '"' :: (CFormat.ofGo none args s).format :=
    CFormat.format_char (by decide) args s
  have hexact : isStringLiteral (CFormat.ofGo none args ('"' :: s)).format = true ↔
      isStringLiteral (percents false ('"' :: s)) = true ∧
        ∀ d ∈ directives ('"' :: s), ¬ (d.escaped = true ∧ d.verb = 'q') := by
    rw [hformat, show percents false ('"' :: s) = '"' :: percents false s from rfl, isStringLiteral_quoted,
      isStringLiteral_quoted, CFormat.closesQuote_ofGo none args false nofun, Bool.and_eq_true, all_eq_true]
    exact and_congr_right' (forall₂_congr fun _ _ => Directive.keepsQuotes_iff)
  refine ⟨CFormat.conversions_ofGo args _, hlen, hzip, hexact, fun hsober => hexact.trans ?_⟩
  rw [and_iff_left fun d hd => (hsober d hd).2]
  refine (Bool.eq_iff_iff.mp (isStringLiteral_quoted (percents false s))).trans ?_
  exact closesQuote_percents false false hclose fun d hd => (hsober d hd).1

/-- A quoted name, a number with a width and a precision, and a percent sign. -/
theorem format_literal_iff_ratio :
    isStringLiteral "\"%q and %5.2f%%\\n\"" = true ∧
      isStringLiteral (CFormat.ofGo none ["name", "ratio"] "\"%q and %5.2f%%\\n\"").format = true := by
  have hliteral : isStringLiteral "\"%q and %5.2f%%\\n\"" = true := rfl
  exact ⟨hliteral, ((format_literal_iff hliteral rfl ["name", "ratio"]).2.2.2.2 (by decide)).mpr (by decide)⟩

/-- **A percent sign at the end takes the closing quote with it.** -/
theorem openPercent_unclosed :
    isStringLiteral "\"100%\"" = true ∧ (CFormat.ofGo none [] "\"100%\"").format = "\"100%s" ∧
      isStringLiteral (CFormat.ofGo none [] "\"100%\"").format = false := by
  exact ⟨rfl, rfl, rfl⟩

end Linewise
