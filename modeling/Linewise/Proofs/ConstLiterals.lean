/-
  The index of an entry goes into the literals of its expressions.

      const s = "iota"        const auto s = "0";

  The quotes of a literal are no part of a word, so an expression is changed segment by segment, the
  literals like the code between them.
-/
import Linewise.Proofs.CodeText
import Linewise.Proofs.ConstEntries

namespace Linewise

open Text List

variable {a b r s t : Text} {c q : Char} {before : Option Char}

/-- A text with the index in place of `iota`. -/
def withIndex (index : Nat) (s : Text) : Text := replaceWord s "iota" (decimal index)

/-! ## 1. Words and parts -/

/-- No word crosses from one part to the other. -/
def Parted (a b : Text) : Prop :=
  ∀ c ∈ a.getLast?, ∀ d ∈ b.head?, isWordChar c = false ∨ isWordChar d = false

theorem Parted.of_append (h : Parted (a ++ r) b) : Parted r b := by
  intro d hd
  refine h d ?_
  rw [getLast?_append, Option.mem_def.mp hd]
  rfl

section Words

variable {symbol : Text} (hword : ∀ c ∈ symbol, isWordChar c = true)

include hword

theorem Parted.eq_append (h : Parted a b) (ha : a ≠ []) (heq : a ++ b = symbol ++ t) :
    ∃ r, a = symbol ++ r ∧ t = r ++ b := by
  rcases append_eq_append_iff.mp heq with ⟨x, hsymbol, hb⟩ | ⟨r, hr, ht⟩
  · -- the word would go on behind the part
    cases x with
    | nil => exact ⟨[], by rw [hsymbol, append_nil, append_nil], by rw [hb]; rfl⟩
    | cons d x =>
      obtain ⟨front, c, rfl⟩ := (eq_nil_or_concat' a).resolve_left ha
      have hc := hword c (by rw [hsymbol]; simp)
      have hd := hword d (by rw [hsymbol]; simp)
      rcases h c getLast?_concat d (by rw [hb]; rfl) with hno | hno
      · rw [hc] at hno
        cases hno
      · rw [hd] at hno
        cases hno
  · exact ⟨r, hr, ht⟩

theorem Parted.standsAlone_eq (h : Parted (symbol ++ r) b) (before : Option Char) :
    standsAlone symbol before (r ++ b).head? = standsAlone symbol before r.head? := by
  cases r with
  | cons d r => rfl
  | nil =>
    rw [append_nil] at h
    -- what follows the last character of the word is no word character
    have hafter : (!symbol.getLast?.any isWordChar || b.head?.all (!isWordChar ·)) = true := by
      cases hs : symbol.getLast? with
      | none => rfl
      | some c =>
        cases hb : b.head? with
        | none => simp
        | some d =>
          have hd : isWordChar d = false := by
            refine (h c hs d hb).resolve_left fun hno => ?_
            rw [hword c (mem_of_getLast? hs)] at hno
            cases hno
          simp [hd]
    unfold standsAlone
    rw [nil_append, hafter]
    simp

theorem replaceFrom_append (hne : symbol ≠ []) (replacement : Text) (h : Parted a b) (before : Option Char) :
    replaceFrom symbol replacement 0 before (a ++ b)
      = replaceFrom symbol replacement 0 before a
        ++ replaceFrom symbol replacement 0 (a.getLast?.or before) b := by
  -- the parts get shorter by a word or by one character
  induction hlen : a.length using Nat.strongRecOn generalizing a before with
  | ind n ih =>
    cases a with
    | nil => rfl
    | cons c a =>
      by_cases hs : startsWith (c :: (a ++ b)) symbol = true
      · obtain ⟨t, ht⟩ := startsWith_iff.mp hs
        obtain ⟨r, hr, rfl⟩ := h.eq_append hword (cons_ne_nil c a) ht
        have hlast : (symbol ++ r).getLast?.or before = r.getLast?.or symbol.getLast? := by
          rw [getLast?_append, Option.or_assoc]
          cases hd : symbol.getLast? with
          | none => exact absurd (getLast?_eq_none_iff.mp hd) hne
          | some d => rfl
        have hshort : r.length < n := by
          have := congrArg length hr
          have := length_pos_iff.mpr hne
          rw [length_append] at *
          omega
        rw [hr] at h
        rw [hr, append_assoc, replaceFrom_symbol hne, replaceFrom_symbol hne, h.standsAlone_eq hword, hlast,
          append_assoc, ih r.length hshort h.of_append symbol.getLast? rfl]
      · have hs' : startsWith (c :: a) symbol = false := by
          exact Bool.eq_false_iff.mpr fun hsa => hs (startsWith_append_right hsa b)
        rw [cons_append, replaceFrom, if_neg hs, replaceFrom, hs', if_neg Bool.false_ne_true, getLast?_cons_or,
          ih a.length (by rw [← hlen]; exact Nat.lt_succ_self _) (Parted.of_append (a := [c]) h) (some c) rfl]
        rfl

end Words

/-! ## 2. Where literals and comments end -/

namespace Segment

/-- Nothing follows, or a new line, or the part ends with a character that no word goes on with. -/
def EndsPart (a b : Text) : Prop :=
  b = [] ∨ b.head? = some '\n' ∨ ∃ c ∈ a.getLast?, isPathChar c = false

theorem EndsPart.cons (h : EndsPart a b) (c : Char) : EndsPart (c :: a) b := by
  refine h.imp_right (Or.imp_right ?_)
  rintro ⟨d, hd, hpath⟩
  exact ⟨d, by rw [getLast?_cons, Option.mem_def.mp hd]; rfl, hpath⟩

theorem endsPart_quoted (hq : isPathChar q = false) (s : Text) :
    EndsPart (s.take (quotedLength q s)) (s.drop (quotedLength q s)) := by
  induction s using quotedLength.induct q with
  | case1 => exact .inl rfl
  | case2 c r ih => exact (ih.cons c).cons '\\'
  | case3 r => exact .inr (.inl rfl)
  | case4 c r hesc hn hc =>
    rw [quotedLength.eq_4 q c r hesc hn, if_pos hc]
    exact .inr (.inr ⟨q, by rw [beq_iff_eq.mp hc]; rfl, hq⟩)
  | case5 c r hesc hn hc ih =>
    rw [quotedLength.eq_4 q c r hesc hn, if_neg hc]
    exact ih.cons c

theorem endsPart_through (front : Text) (hq : isPathChar q = false) (s : Text) :
    EndsPart (s.take (lengthThrough (front ++ [q]) s)) (s.drop (lengthThrough (front ++ [q]) s)) := by
  induction s with
  | nil => exact .inl drop_nil
  | cons c r ih =>
    rw [lengthThrough_cons]
    split
    · rename_i hs
      obtain ⟨t, ht⟩ := startsWith_iff.mp hs
      rw [ht, take_left]
      exact .inr (.inr ⟨q, getLast?_concat, hq⟩)
    · exact ih.cons c

theorem endsPart_of_opening? {k : SegmentKind} {n : Nat}
    (h : opening? before (c :: r) = some (k, n)) : EndsPart (c :: r.take n) (r.drop n) := by
  rcases opening?_cases h with ⟨r', rfl, rfl, rfl, rfl⟩ | ⟨r', rfl, rfl, rfl, rfl⟩
    | ⟨r', rfl, rfl, -, rfl, rfl⟩ | ⟨hc, rfl, rfl⟩
  · exact (settles_line ('/' :: r')).allows.imp_right .inl
  · exact ((endsPart_through ['*'] rfl r').cons '*').cons '/'
  · exact (((endsPart_through [')'] rfl r').cons '(').cons '"').cons 'R'
  · have hq : isPathChar c = false := by rcases hc with rfl | rfl <;> decide
    exact (endsPart_quoted hq r).cons c

theorem EndsPart.parted (h : EndsPart a b) : Parted a b := by
  intro c hc d hd
  rcases h with rfl | hline | ⟨c', hc', hpath⟩
  · cases hd
  · refine .inr ?_
    rw [hline] at hd
    cases hd
    decide
  · refine .inl ?_
    rw [Option.mem_def.mp hc'] at hc
    cases hc
    unfold isPathChar at hpath
    simp only [Bool.or_eq_false_iff] at hpath
    exact hpath.1.1

/-! ## 3. Segments with the index filled in -/

theorem replaceFrom_iota (h : s.head? ≠ some 'i') (replacement : Text) (before : Option Char) :
    replaceFrom "iota" replacement 0 before s = replaceWord s "iota" replacement := by
  unfold replaceWord
  cases s with
  | nil => rfl
  | cons c r =>
    have hs : startsWith (c :: r) "iota" = false := by
      refine startsWith_of_head? rfl rfl fun hc => h ?_
      rw [hc]
      rfl
    rw [replaceFrom, hs, replaceFrom, hs]
    rfl

theorem EndsPart.replaceFrom_iota (h : EndsPart a b) (replacement : Text) :
    replaceFrom "iota" replacement 0 a.getLast? b = replaceWord b "iota" replacement := by
  rcases h with rfl | hline | ⟨c, hc, hpath⟩
  · rfl
  · exact Segment.replaceFrom_iota (by rw [hline]; decide) replacement _
  · rw [Option.mem_def.mp hc, replaceFrom_of_not_path hpath]

theorem withIndex_append (index : Nat) (h : Parted a b)
    (hb : replaceFrom "iota" (decimal index) 0 a.getLast? b = withIndex index b) :
    withIndex index (a ++ b) = withIndex index a ++ withIndex index b := by
  unfold withIndex replaceWord
  rw [replaceFrom_append (by decide) (by decide) (decimal index) h, Option.or_none, hb]
  rfl

theorem Stops.parted (h : Stops a.getLast? b) : Parted a b ∧ b.head? ≠ some 'i' := by
  cases b with
  | nil => exact ⟨fun _ _ _ hd => absurd hd (by simp), by decide⟩
  | cons d r =>
    obtain ⟨⟨k, n⟩, hopen⟩ := Option.isSome_iff_exists.mp (h.resolve_left (cons_ne_nil d r))
    refine ⟨fun c hc d' hd => ?_, fun he => ?_⟩
    · cases hd
      rcases opening?_cases hopen with ⟨_, rfl, _⟩ | ⟨_, rfl, _⟩ | ⟨_, _, _, hword, _⟩ | ⟨rfl | rfl, _⟩
      · exact .inr rfl
      · exact .inr rfl
      · refine .inl ?_
        rw [Option.mem_def.mp hc] at hword
        exact hword
      · exact .inr rfl
      · exact .inr rfl
    · have := head_of_opening? hopen
      rw [Option.some.inj he] at this
      exact absurd this (by decide)

theorem Cut.withIndex_eq {segs : List Segment} (h : Cut before s segs) (index : Nat) :
    withIndex index s = (segs.map fun seg => withIndex index seg.text).flatten := by
  induction h with
  | nil => rfl
  | @code before code rest segs hne hcode hstop hrest ih =>
    obtain ⟨hparted, hhead⟩ := hstop.parted
    rw [withIndex_append index hparted (Segment.replaceFrom_iota hhead _ _), ih]
    rfl
  | @mark before c r k n segs hopen hrest ih =>
    have hends := endsPart_of_opening? hopen
    have hsplit : c :: r = (c :: r.take n) ++ r.drop n := by rw [cons_append, take_append_drop]
    rw [hsplit, withIndex_append index hends.parted (hends.replaceFrom_iota _), ih]
    rfl

end Segment

/-! ## 4. Literals that change -/

theorem replaceFrom_eq_drop {symbol : Text} (hne : symbol ≠ []) (replacement : Text) :
    ∀ {skip : Nat} {before : Option Char}, containsFrom symbol skip before s = false →
      replaceFrom symbol replacement skip before s = s.drop skip := by
  induction s with
  | nil =>
    intro skip before _
    rw [drop_nil]
    cases skip <;> rfl
  | cons c r ih =>
    intro skip before h
    cases skip with
    | succ skip => exact ih h
    | zero =>
      rw [containsFrom] at h
      rw [replaceFrom, drop_zero]
      split at h
      · rename_i hs
        obtain ⟨hstands, hrest⟩ := Bool.or_eq_false_iff.mp h
        obtain ⟨t, ht⟩ := startsWith_iff.mp hs
        have hdrop : r.drop (symbol.length - 1) = t := by
          have : (c :: r).drop symbol.length = t := by rw [ht, drop_left]
          rwa [← Nat.succ_pred_eq_of_pos (length_pos_iff.mpr hne), drop_succ_cons] at this
        rw [if_pos hs, hstands, if_neg Bool.false_ne_true, ih hrest, hdrop, ht]
      · rename_i hs
        rw [if_neg hs, ih h, drop_zero]

theorem count_decimal (n : Nat) : (decimal n).count 'i' = 0 :=
  count_eq_zero.mpr (not_mem_decimal rfl n)

theorem count_replaceFrom (index : Nat) : ∀ (skip : Nat) (before : Option Char),
    (replaceFrom "iota" (decimal index) skip before s).count 'i'
      + (if containsFrom "iota" skip before s then 1 else 0) ≤ (s.drop skip).count 'i' := by
  induction s with
  | nil =>
    intro skip before
    cases skip <;> exact Nat.le_refl 0
  | cons c r ih =>
    intro skip before
    cases skip with
    | succ skip => exact ih skip (some c)
    | zero =>
      rw [replaceFrom, containsFrom, drop_zero]
      split
      · rename_i hs
        obtain ⟨t, ht⟩ := startsWith_iff.mp hs
        have hr : r = "ota" ++ t := (cons.inj ht).2
        have hrest := ih 3 (some c)
        have hdrop : r.drop 3 = t := by rw [hr]; rfl
        have hcount : (c :: r).count 'i' = 1 + t.count 'i' := by
          rw [ht, count_append]
          rfl
        rw [hdrop] at hrest
        rw [hcount, count_append]
        show _ + (replaceFrom "iota" (decimal index) 3 (some c) r).count 'i' + _ ≤ _
        cases standsAlone "iota" before ((c :: r).drop ("iota" : Text).length).head? with
        | true =>
          rw [if_pos rfl, count_decimal, Bool.true_or, if_pos rfl]
          omega
        | false =>
          rw [if_neg Bool.false_ne_true, Bool.false_or]
          show 1 + _ + (if containsFrom "iota" 3 (some c) r then 1 else 0) ≤ _
          omega
      · have hrest := ih 0 (some c)
        rw [drop_zero] at hrest
        rw [count_cons, count_cons]
        omega

theorem isWord_iota : IsWord "iota" := by decide

theorem withIndex_eq_self (h : ¬ Stands "iota" t) (index : Nat) : withIndex index t = t := by
  rw [← containsWord_iff isWord_iota, Bool.not_eq_true] at h
  exact replaceFrom_eq_drop (by decide) _ h

theorem count_withIndex_le (index : Nat) (t : Text) : (withIndex index t).count 'i' ≤ t.count 'i' :=
  Nat.le_trans (Nat.le_add_right _ _) (count_replaceFrom index 0 none)

theorem count_withIndex_lt (h : Stands "iota" t) (index : Nat) : (withIndex index t).count 'i' < t.count 'i' := by
  have := count_replaceFrom index (s := t) 0 none
  rwa [show containsFrom "iota" 0 none t = true from (containsWord_iff isWord_iota t).mpr h, if_pos rfl] at this

/-! ## 5. Expressions -/

/-- An expression with the index filled in, in the segments that are not spared. -/
def indexed (spared : Segment → Bool) (index : Nat) (expr : Text) : Text :=
  ((segments expr).map fun seg => if spared seg then seg.text else withIndex index seg.text).flatten

/-- The index filled in between the literals alone. -/
def outsideLiterals : Nat → Text → Text := indexed (·.kind == .literal)

/-- The index filled in in every segment. -/
def everywhere : Nat → Text → Text := indexed fun _ => false

/-- No literal holds `iota` as a word. -/
def LiteralsFree (expr : Text) : Prop :=
  ∀ seg ∈ segments expr, seg.kind = .literal → ¬ Stands "iota" seg.text

instance (expr : Text) : Decidable (LiteralsFree expr) :=
  decidable_of_iff (∀ seg ∈ segments expr, seg.kind = .literal → ¬ containsWord seg.text "iota" = true)
    (forall₂_congr fun seg _ => imp_congr_right fun _ => not_congr (containsWord_iff isWord_iota seg.text))

theorem withIndex_eq_everywhere (index : Nat) (expr : Text) : withIndex index expr = everywhere index expr :=
  (Segment.cut_scan none expr).withIndex_eq index

theorem LiteralsFree.everywhere_eq {expr : Text} (h : LiteralsFree expr) (index : Nat) :
    everywhere index expr = outsideLiterals index expr := by
  refine congrArg flatten (map_congr_left fun seg hseg => ?_)
  rw [if_neg Bool.false_ne_true]
  split
  · rename_i hk
    exact withIndex_eq_self (h seg hseg (beq_iff_eq.mp hk)) index
  · rfl

/-- A letter is lost exactly where a literal changes. -/
theorem count_everywhere (index : Nat) (expr : Text) :
    (everywhere index expr).count 'i' ≤ (outsideLiterals index expr).count 'i' ∧
      (¬ LiteralsFree expr → (everywhere index expr).count 'i' < (outsideLiterals index expr).count 'i') := by
  unfold LiteralsFree everywhere outsideLiterals indexed
  induction segments expr with
  | nil => exact ⟨Nat.le_refl _, fun h => absurd (nofun) h⟩
  | cons seg segs ih =>
    simp only [map_cons, flatten_cons, count_append, Bool.false_eq_true, if_false]
    have hrest := ih.1
    by_cases hk : seg.kind = .literal
    · simp only [hk, beq_self_eq_true, if_true]
      have hle := count_withIndex_le index seg.text
      refine ⟨Nat.add_le_add hle hrest, fun h => ?_⟩
      by_cases hs : Stands "iota" seg.text
      · exact Nat.add_lt_add_of_lt_of_le (count_withIndex_lt hs index) hrest
      · refine Nat.add_lt_add_of_le_of_lt hle (ih.2 fun hfree => h fun x hx => ?_)
        rcases mem_cons.mp hx with rfl | hx
        · exact fun _ => hs
        · exact hfree x hx
    · simp only [beq_eq_false_iff_ne.mpr hk, Bool.false_eq_true, if_false]
      refine ⟨Nat.add_le_add_left hrest _, fun h => Nat.add_lt_add_left (ih.2 fun hfree => h fun x hx => ?_) _⟩
      rcases mem_cons.mp hx with rfl | hx
      · exact fun he => absurd he hk
      · exact hfree x hx

/-! ## 6. Entries -/

theorem count_unlines_map {α : Type} {f g : α → Text} {l : List α}
    (hle : ∀ p ∈ l, (f p).count c ≤ (g p).count c) :
    (unlines (l.map f)).count c ≤ (unlines (l.map g)).count c ∧
      ∀ p ∈ l, (f p).count c < (g p).count c → (unlines (l.map f)).count c < (unlines (l.map g)).count c := by
  induction l with
  | nil => exact ⟨Nat.le_refl _, nofun⟩
  | cons x xs ih =>
    have hx := hle x mem_cons_self
    obtain ⟨hrest, hstrict⟩ := ih (forall_mem_cons.mp hle).2
    cases xs with
    | nil =>
      simp only [map_cons, map_nil, unlines_singleton]
      refine ⟨hx, fun p hp hlt => ?_⟩
      rwa [mem_singleton.mp hp] at hlt
    | cons y ys =>
      simp only [map_cons, unlines_cons_cons, count_append, count_cons] at hrest hstrict ⊢
      refine ⟨by omega, fun p hp hlt => ?_⟩
      rcases mem_cons.mp hp with rfl | hp
      · omega
      · have := hstrict p hp hlt
        omega

/-- The names that are not blank, each with its expression. -/
def namedExprs (names : List Text) (t : ConstTemplate) : List (Text × Text) :=
  (names.zip t.exprs).filter fun p => !isDiscard p.1

/-- The declarations of an entry, with the values that its expressions get. -/
def constTexts (value : Text → Text) (names : List Text) (t : ConstTemplate) : List Text :=
  (namedExprs names t).map fun p =>
    "const " ++ t.type.getD "auto" ++ " " ++ p.1 ++ " = " ++ value p.2 ++ ";"

theorem constLines_eq_constTexts (names : List Text) (t : ConstTemplate) (index : Nat) :
    constLines names t index = constTexts (everywhere index) names t := by
  refine map_congr_left fun p _ => ?_
  rw [← withIndex_eq_everywhere]
  rfl

theorem renderD_constLowered (ls : List Text) : (constLowered ls).renderD = unlines ls := by
  cases ls <;> rfl

theorem literalsFree_of_eq {names : List Text} {t : ConstTemplate} {index : Nat}
    (h : constLowered (constTexts (everywhere index) names t)
      = constLowered (constTexts (outsideLiterals index) names t)) :
    ∀ p ∈ namedExprs names t, LiteralsFree p.2 := by
  have htext := congrArg Lowered.renderD h
  rw [renderD_constLowered, renderD_constLowered] at htext
  obtain ⟨-, hstrict⟩ := count_unlines_map (c := 'i') (l := namedExprs names t)
    (f := fun p => "const " ++ t.type.getD "auto" ++ " " ++ p.1 ++ " = " ++ everywhere index p.2 ++ ";")
    (g := fun p => "const " ++ t.type.getD "auto" ++ " " ++ p.1 ++ " = " ++ outsideLiterals index p.2 ++ ";")
    fun p _ => by
      have := (count_everywhere index p.2).1
      simp only [count_append]
      omega
  intro p hp
  refine Decidable.byContradiction fun hfree => ?_
  have hlt := (count_everywhere index p.2).2 hfree
  have := hstrict p hp (by simp only [count_append]; omega)
  unfold constTexts at htext
  rw [htext] at this
  exact absurd this (Nat.lt_irrefl _)

/-- **The literals of an entry stay exactly if none of them holds `iota` as a word.** An entry that is
    accepted, explicit or bare, is written with its index everywhere in its expressions, and that is
    what it should be written as, with the index outside the literals only, if and only if no literal
    of these expressions holds the word. -/
theorem constDeclaration_literals_iff {line : Text} {s s' : State} {lowered : Lowered}
    (h : (Lower.constDeclaration line).run s = .ok lowered s') :
    ∃ names t, constEntryOf s.constGroup line = .ok (names, t) ∧
      lowered = constLowered (constTexts (everywhere s.constGroup.index) names t) ∧
      (lowered = constLowered (constTexts (outsideLiterals s.constGroup.index) names t) ↔
        ∀ p ∈ namedExprs names t, LiteralsFree p.2) := by
  obtain ⟨names, t, hentry, rfl⟩ := Lower.constDeclaration_eq_ok h
  refine ⟨names, t, hentry, by rw [constLines_eq_constTexts], ?_⟩
  rw [constLines_eq_constTexts]
  refine ⟨literalsFree_of_eq, fun hfree => ?_⟩
  have hvalues : constTexts (everywhere s.constGroup.index) names t
      = constTexts (outsideLiterals s.constGroup.index) names t :=
    map_congr_left fun p hp => by rw [(hfree p hp).everywhere_eq]
  rw [hvalues]

/-- Behind an entry whose literals hold `iota` in longer words only. -/
def pathTemplate : ConstTemplate := ⟨none, ["f(\"x.iota\", 'i', iota)"]⟩

/-- The fourth entry of a group. -/
def pathState : State := { blocks := [⟨.constGroup, 0⟩], consts := ⟨3, some pathTemplate⟩ }

theorem constDeclaration_literals_iff_bare :
    (∃ s', (Lower.constDeclaration "B").run pathState = .ok (.line "const auto B = f(\"x.iota\", 'i', 3);") s') ∧
      (.line "const auto B = f(\"x.iota\", 'i', 3);" : Lowered)
        = constLowered (constTexts (outsideLiterals 3) ["B"] pathTemplate) := by
  have hrun : (Lower.constDeclaration "B").run pathState
      = .ok (.line "const auto B = f(\"x.iota\", 'i', 3);") { pathState with consts := ⟨4, some pathTemplate⟩ } := rfl
  obtain ⟨names, t, hentry, -, hiff⟩ := constDeclaration_literals_iff hrun
  have hB : constEntryOf pathState.constGroup "B" = .ok (["B"], pathTemplate) := rfl
  rw [hB] at hentry
  cases hentry
  exact ⟨⟨_, hrun⟩, hiff.mpr (by decide +kernel)⟩

theorem quotedIota_numbered :
    (∃ s', (Lower.constDeclaration "const s = \"iota\"").run {} = .ok (.line "const auto s = \"0\";") s') ∧
      outsideLiterals 0 "\"iota\"" = "\"iota\"" ∧ ¬ LiteralsFree "\"iota\"" :=
  ⟨⟨_, rfl⟩, by decide +kernel, by decide +kernel⟩

end Linewise
