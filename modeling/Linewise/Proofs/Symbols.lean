/-
  Symbols are replaced path by path, in code alone, and once for all.

  A path is a run of word characters, dots and colons. A symbol stands alone only at the head of a
  path, and what replaces it is a path again.
-/
import Linewise.Program.Symbol
import Linewise.Proofs.Segments
import Linewise.Proofs.Word

namespace Linewise

open Text List

variable {s u v w rest : Text} {c d : Char} {r : Rule} {after before before' : Option Char}

/-! ## 1. Paths -/

/-- A character that ties what follows it to what stands before. -/
def isPathChar (c : Char) : Bool := isWordChar c || c == '.' || c == ':'

/-- A run of word characters, dots and colons. -/
def IsPath (s : Text) : Prop := ∀ c ∈ s, isPathChar c = true

instance (s : Text) : Decidable (IsPath s) := inferInstanceAs (Decidable (∀ c ∈ s, isPathChar c = true))

theorem IsPath.append (hu : IsPath u) (hv : IsPath v) : IsPath (u ++ v) :=
  forall_mem_append.mpr ⟨hu, hv⟩

theorem IsPath.of_append (h : IsPath (u ++ v)) : IsPath u ∧ IsPath v :=
  ⟨fun c hc => h c (mem_append_left v hc), fun c hc => h c (mem_append_right u hc)⟩

theorem IsPath.drop (h : IsPath u) (n : Nat) : IsPath (u.drop n) :=
  fun c hc => h c (mem_of_mem_drop hc)

theorem IsPath.last (h : IsPath u) (hc : u.getLast? = some c) : isPathChar c = true :=
  h c (mem_of_getLast? hc)

/-- **Induction along the paths of a text**: a text is a path, or a path, a character that belongs to
    none, and a text. -/
@[elab_as_elim]
theorem pathInduction {motive : Text → Prop} (path : ∀ u, IsPath u → motive u)
    (step : ∀ u d v, IsPath u → isPathChar d = false → motive v → motive (u ++ d :: v)) (s : Text) :
    motive s := by
  have hs : s.takeWhile isPathChar ++ s.dropWhile isPathChar = s := takeWhile_append_dropWhile
  have hu : IsPath (s.takeWhile isPathChar) := all_eq_true.mp all_takeWhile
  cases hd : s.dropWhile isPathChar with
  | nil =>
    rw [hd, append_nil] at hs
    rw [← hs]
    exact path _ hu
  | cons d v =>
    have hlt : v.length < s.length := by
      have := Text.length_dropWhile_le isPathChar s
      rw [hd, length_cons] at this
      omega
    rw [hd] at hs
    rw [← hs]
    exact step _ d v hu (head?_dropWhile_not (by rw [hd]; rfl)) (pathInduction path step v)
termination_by s.length

/-! ## 2. One symbol -/

theorem standsAlone_some (symbol : Text) (c : Char) (after : Option Char) :
    standsAlone symbol (some c) after = (!isPathChar c && standsAlone symbol none after) := by
  simp [standsAlone, isPathChar, bne]

theorem standsAlone_of_path (h : isPathChar c = true) (symbol : Text) (after : Option Char) :
    standsAlone symbol (some c) after = false := by
  rw [standsAlone_some, h]
  rfl

theorem standsAlone_of_not_path (h : isPathChar d = false) (symbol : Text) (after : Option Char) :
    standsAlone symbol (some d) after = standsAlone symbol none after := by
  rw [standsAlone_some, h]
  rfl

theorem replaceFrom_skip (symbol replacement : Text) (n : Nat) (before : Option Char) (s : Text) :
    replaceFrom symbol replacement n before s
      = replaceFrom symbol replacement 0 ((s.take n).getLast?.or before) (s.drop n) := by
  induction n generalizing before s with
  | zero => rfl
  | succ n ih =>
    cases s with
    | nil => simp [replaceFrom]
    | cons c r =>
      rw [replaceFrom, ih, take_succ_cons, drop_succ_cons, getLast?_cons_or]

theorem replaceFrom_symbol {symbol : Text} (hne : symbol ≠ []) (replacement : Text) (before : Option Char)
    (r : Text) : replaceFrom symbol replacement 0 before (symbol ++ r)
      = (if standsAlone symbol before r.head? then replacement else symbol)
        ++ replaceFrom symbol replacement 0 symbol.getLast? r := by
  cases hs : symbol with
  | nil => exact absurd hs hne
  | cons c p =>
    have hpre : startsWith (c :: (p ++ r)) (c :: p) = true := startsWith_append (c :: p) r
    rw [cons_append, replaceFrom, if_pos hpre, ← cons_append, drop_left,
      length_cons, Nat.add_sub_cancel, replaceFrom_skip _ _ p.length, take_left,
      drop_left, getLast?_cons]
    cases p.getLast? <;> rfl

theorem replaceFrom_of_not_path (hd : isPathChar d = false) (symbol replacement v : Text) :
    replaceFrom symbol replacement 0 (some d) v = replaceWord v symbol replacement := by
  unfold replaceWord
  cases v with
  | nil => rfl
  | cons c r => rw [replaceFrom, replaceFrom, standsAlone_of_not_path hd]

/-- The text does not go on with the path before it. -/
def Apart (w : Text) : Prop := ∀ d ∈ w.head?, isPathChar d = false

theorem apart_nil : Apart [] := nofun

theorem apart_cons (h : isPathChar d = false) (v : Text) : Apart (d :: v) := by
  intro e he
  cases he
  exact h

/-- A symbol: a path, or a path with one more character behind it. -/
structure IsSymbol (symbol : Text) : Prop where
  path : IsPath symbol.dropLast
  ne_nil : symbol.dropLast ≠ []

namespace IsSymbol

variable {symbol : Text} (h : IsSymbol symbol)

include h

theorem nonempty : symbol ≠ [] := by
  rintro rfl
  exact h.ne_nil rfl

theorem not_startsWith (hd : isPathChar d = false) (v : Text) : startsWith (d :: v) symbol = false := by
  match symbol, h with
  | [], h => exact absurd rfl h.ne_nil
  | [_], h => exact absurd rfl h.ne_nil
  | c :: e :: t, h =>
    refine startsWith_of_head? rfl rfl ?_
    rintro rfl
    exact Bool.false_ne_true (hd.symm.trans (h.path d mem_cons_self))

theorem ends {r : Text} (hw : Apart w) (he : u ++ w = symbol ++ r) :
    (∃ t, u = symbol ++ t ∧ r = t ++ w) ∨ (∃ d, w = d :: r ∧ symbol = u ++ [d]) := by
  rcases append_eq_append_iff.mp he with ⟨t, ht, hv⟩ | ⟨t, ht, hr⟩
  · cases t with
    | nil =>
      rw [append_nil] at ht
      exact .inl ⟨[], by rw [append_nil, ht], hv.symm⟩
    | cons d t =>
      have hd := hw d (by rw [hv]; rfl)
      cases t with
      | nil => exact .inr ⟨d, hv, ht⟩
      | cons x t =>
        -- a character outside paths is the last of a symbol
        have hm : d ∈ symbol.dropLast := by
          rw [ht, dropLast_append_of_ne_nil (by simp)]
          simp
        rw [h.path d hm] at hd
        cases hd
  · exact .inl ⟨t, ht, hr⟩

theorem replaceWord_cons (hd : isPathChar d = false) (v replacement : Text) :
    replaceWord (d :: v) symbol replacement = d :: replaceWord v symbol replacement := by
  rw [replaceWord, replaceFrom, h.not_startsWith hd, replaceFrom_of_not_path hd]
  rfl

theorem replaceFrom_path {u w : Text} (hu : IsPath u) (hw : Apart w) {b : Char} (hb : isPathChar b = true)
    (replacement : Text) : replaceFrom symbol replacement 0 (some b) (u ++ w)
      = u ++ replaceWord w symbol replacement := by
  cases hs : startsWith (u ++ w) symbol with
  | true =>
    obtain ⟨r, hr⟩ := startsWith_iff.mp hs
    have hlast := getLast?_eq_some_getLast h.nonempty
    rw [hr, replaceFrom_symbol h.nonempty, standsAlone_of_path hb]
    rcases h.ends hw hr with ⟨t, ht, rfl⟩ | ⟨d, rfl, hsym⟩
    · rw [ht] at hu
      have hlt : t.length < u.length := by
        have := length_pos_iff.mpr h.nonempty
        rw [ht, length_append]
        omega
      rw [hlast, replaceFrom_path hu.of_append.2 hw (hu.of_append.1.last hlast), ht, append_assoc]
      rfl
    · have hd := hw d rfl
      have hdl : symbol.getLast? = some d := by rw [hsym, getLast?_concat]
      rw [h.replaceWord_cons hd, hdl, replaceFrom_of_not_path hd, if_neg Bool.false_ne_true]
      exact (congrArg (· ++ _) hsym).trans (append_assoc u [d] _)
  | false =>
    cases u with
    | nil =>
      cases w with
      | nil => rfl
      | cons d v =>
        rw [nil_append] at hs
        unfold replaceWord
        rw [nil_append, nil_append, replaceFrom, replaceFrom, hs]
        rfl
    | cons c u =>
      rw [cons_append] at hs
      rw [cons_append, replaceFrom, hs, replaceFrom_path
        (forall_mem_cons.mp hu).2 hw (hu c mem_cons_self)]
      rfl
termination_by u.length

end IsSymbol

/-! ## 3. One entry of the table -/

/-- An entry of the table: a path, whether a parenthesis has to follow, and the path in its place. -/
structure Rule where
  stem : Text
  call : Bool
  spelling : Text
  deriving DecidableEq

namespace Rule

/-- The entry a pair of texts is. -/
def ofEntry (entry : Text × Text) : Rule :=
  if entry.1.getLast? == some '(' then ⟨entry.1.dropLast, true, entry.2.dropLast⟩
  else ⟨entry.1, false, entry.2⟩

/-- What the rule looks for. -/
def symbol (r : Rule) : Text := if r.call then r.stem ++ ['('] else r.stem

/-- What the rule puts in its place. -/
def replacement (r : Rule) : Text := if r.call then r.spelling ++ ['('] else r.spelling

/-- The rule has work on a path before `after`: it is the stem of a call, or starts with the stem as
    a word. -/
def fits (r : Rule) (after : Option Char) (u : Text) : Bool :=
  if r.call then u == r.stem && after == some '('
  else startsWith u r.stem && ((u.drop r.stem.length).head?.or after).all (!isWordChar ·)

/-- The path with the stem respelled. -/
def apply (r : Rule) (after : Option Char) (u : Text) : Text :=
  if r.fits after u then r.spelling ++ u.drop r.stem.length else u

/-- Stem and spelling are paths that end in a word, and the spelling not like the head of a raw
    literal. -/
@[mk_iff] structure Sound (r : Rule) : Prop where
  stem : IsPath r.stem
  spelling : IsPath r.spelling
  two_le : 2 ≤ r.stem.length
  spelling_ne : r.spelling ≠ []
  stem_last : r.stem.getLast?.any isWordChar = true
  spelling_last : r.spelling.getLast?.any isWordChar = true
  not_raw : r.spelling.getLast? ≠ some 'R'

theorem Sound.isSymbol (h : r.Sound) : IsSymbol r.symbol := by
  have htwo := h.two_le
  unfold symbol
  split
  · have hdrop : (r.stem ++ ['(']).dropLast = r.stem := dropLast_concat
    refine ⟨by rw [hdrop]; exact h.stem, fun he => ?_⟩
    rw [hdrop] at he
    rw [he] at htwo
    cases htwo
  · refine ⟨fun c hc => h.stem c (dropLast_subset _ hc), fun he => ?_⟩
    have := congrArg length he
    rw [length_dropLast, length_nil] at this
    omega

theorem startsWith_of_fits (h : r.fits w.head? u = true) : startsWith (u ++ w) r.symbol = true := by
  unfold fits at h
  unfold symbol
  split at h
  · rename_i hc
    rw [if_pos hc]
    simp only [Bool.and_eq_true, beq_iff_eq] at h
    obtain ⟨rfl, hw⟩ := h
    obtain ⟨v, rfl⟩ := head?_eq_some_iff.mp hw
    exact startsWith_iff.mpr ⟨v, by simp⟩
  · rename_i hc
    rw [if_neg hc]
    rw [Bool.and_eq_true] at h
    exact startsWith_append_right h.1 w

theorem Sound.replaceWord_append (h : r.Sound) (hu : IsPath u) (hw : Apart w) :
    replaceWord (u ++ w) r.symbol r.replacement
      = r.apply w.head? u ++ replaceWord w r.symbol r.replacement := by
  have hsym := h.isSymbol
  cases hs : startsWith (u ++ w) r.symbol with
  | false =>
    have hfits : r.fits w.head? u = false := by
      refine Bool.eq_false_iff.mpr fun hf => ?_
      rw [startsWith_of_fits hf] at hs
      cases hs
    rw [apply, hfits, if_neg Bool.false_ne_true]
    cases u with
    | nil => rfl
    | cons c u =>
      rw [cons_append] at hs
      rw [replaceWord, cons_append, replaceFrom, hs, hsym.replaceFrom_path
        (forall_mem_cons.mp hu).2 hw (hu c mem_cons_self)]
      rfl
  | true =>
    obtain ⟨v, hv⟩ := startsWith_iff.mp hs
    rw [hv, replaceWord, replaceFrom_symbol hsym.nonempty]
    by_cases hc : r.call = true
    · have hr : r.symbol = r.stem ++ ['('] := if_pos hc
      rcases hsym.ends hw hv with ⟨t, rfl, _⟩ | ⟨d, rfl, he⟩
      · -- the parenthesis is not part of a path
        have : isPathChar '(' = true := hu '(' (by rw [hr]; simp)
        exact absurd this (by decide)
      · rw [hr] at he
        obtain ⟨rfl, hd⟩ := append_inj' he rfl
        obtain rfl : '(' = d := (cons.inj hd).1
        have hfits : r.fits (some '(') r.stem = true := by
          unfold fits
          rw [if_pos hc]
          simp
        have halone : standsAlone (r.stem ++ ['(']) none v.head? = true := by
          unfold standsAlone
          simp
          exact .inl rfl
        rw [hr, halone, if_pos rfl, getLast?_concat, ← hr,
          replaceFrom_of_not_path rfl, hsym.replaceWord_cons rfl, head?_cons, apply,
          if_pos hfits, drop_length, append_nil, replacement, if_pos hc, append_assoc]
        rfl
    · have hr : r.symbol = r.stem := if_neg hc
      have hlast := getLast?_eq_some_getLast hsym.nonempty
      rcases hsym.ends hw hv with ⟨t, rfl, rfl⟩ | ⟨d, rfl, he⟩
      · have halone : standsAlone r.symbol none (t ++ w).head? = r.fits w.head? (r.symbol ++ t) := by
          unfold standsAlone fits
          rw [if_neg hc, hr, startsWith_append, drop_left, h.stem_last, head?_append]
          simp
        have hbehind := hsym.replaceFrom_path hu.of_append.2 hw (hu.of_append.1.last hlast) r.replacement
        rw [hlast, hbehind, halone, apply]
        cases r.fits w.head? (r.symbol ++ t) with
        | true =>
          rw [if_pos rfl, if_pos rfl, replacement, if_neg hc, hr, drop_left, append_assoc]
        | false => rw [if_neg Bool.false_ne_true, if_neg Bool.false_ne_true, append_assoc]
      · have hd := hw d rfl
        rw [h.stem d (by rw [← hr, he]; simp)] at hd
        cases hd

instance (r : Rule) : Decidable r.Sound := decidable_of_iff _ (sound_iff ..).symm

theorem exists_of_fits (h : r.fits after u = true) :
    ∃ t, u = r.stem ++ t ∧ r.apply after u = r.spelling ++ t ∧ (t.head?.or after).all (!isWordChar ·) = true
      ∧ (r.call = true → t = []) := by
  have happly : r.apply after u = r.spelling ++ u.drop r.stem.length := if_pos h
  unfold fits at h
  split at h
  · simp only [Bool.and_eq_true, beq_iff_eq] at h
    obtain ⟨rfl, rfl⟩ := h
    rw [drop_length] at happly
    exact ⟨[], (append_nil _).symm, happly, rfl, fun _ => rfl⟩
  · rename_i hc
    rw [Bool.and_eq_true] at h
    obtain ⟨t, rfl⟩ := startsWith_iff.mp h.1
    rw [drop_left] at h happly
    exact ⟨t, rfl, happly, h.2, fun hcall => absurd hcall hc⟩

/-- What `r` writes gives `r'` no work, whatever follows. -/
def spares (r r' : Rule) : Bool :=
  if r'.call then (if r.call then r.spelling != r'.stem else !startsWith r'.stem r.spelling)
  else !startsWith r'.stem r.spelling
    && (!startsWith r.spelling r'.stem || (r.spelling.drop r'.stem.length).head?.any isWordChar)

/-- One rule leaves no work for another. -/
theorem not_fits_apply {r' : Rule} (hs : r.spares r' = true) (h : r.fits after u = true) :
    r'.fits after (r.apply after u) = false := by
  obtain ⟨t, rfl, happly, _, hcall⟩ := exists_of_fits h
  rw [happly]
  refine Bool.eq_false_iff.mpr fun hf => ?_
  unfold fits at hf
  unfold spares at hs
  split at hf
  · rename_i hc'
    rw [if_pos hc'] at hs
    simp only [Bool.and_eq_true, beq_iff_eq] at hf
    split at hs
    · rename_i hc
      rw [hcall hc, append_nil] at hf
      rw [hf.1] at hs
      simp at hs
    · rw [← hf.1, startsWith_append] at hs
      cases hs
  · rename_i hc'
    rw [if_neg hc', Bool.and_eq_true] at hs
    rw [Bool.and_eq_true] at hf
    obtain ⟨x, hx⟩ := startsWith_iff.mp hf.1
    rcases append_eq_append_iff.mp hx with ⟨a, ha, _⟩ | ⟨a, ha, rfl⟩
    · rw [ha, startsWith_append] at hs
      cases hs.1
    · -- the stem of the other rule goes on in the spelling with a word character
      rw [ha, startsWith_append, drop_left] at hs
      have hword : a.head?.any isWordChar = true := by simpa using hs.2
      cases a with
      | nil => cases hword
      | cons c a =>
        have hnot := hf.2
        rw [ha, append_assoc, drop_left] at hnot
        have hc : isWordChar c = true := hword
        simp [hc] at hnot

end Rule

/-! ## 4. The table -/

/-- The table as rules. -/
def rules : List Rule := symbols.map Rule.ofEntry

theorem rules_sound : ∀ r ∈ rules, r.Sound := by decide +kernel

theorem symbols_eq_rules : symbols = rules.map fun r => (r.symbol, r.replacement) := by decide +kernel

theorem rules_spare : ∀ r ∈ rules, ∀ r' ∈ rules, r.spares r' = true := by decide +kernel

/-- A path with the whole table applied. -/
def settlePath (after : Option Char) (u : Text) : Text := rules.foldl (fun u r => r.apply after u) u

theorem foldl_apply_eq_self {rs : List Rule} (h : ∀ r ∈ rs, r.fits after u = false) :
    rs.foldl (fun u r => r.apply after u) u = u := by
  induction rs with
  | nil => rfl
  | cons r rs ih =>
    have hr : r.apply after u = u := by
      rw [Rule.apply, h r mem_cons_self]
      rfl
    rw [foldl_cons, hr]
    exact ih (forall_mem_cons.mp h).2

/-- **The first rule that has work on a path does all there is to do.** -/
theorem settlePath_cases (after : Option Char) (u : Text) :
    (settlePath after u = u ∧ ∀ r ∈ rules, r.fits after u = false)
      ∨ ∃ r ∈ rules, r.fits after u = true ∧ settlePath after u = r.apply after u := by
  cases hfind : rules.find? (·.fits after u) with
  | none =>
    have hno : ∀ r ∈ rules, r.fits after u = false := by simpa using find?_eq_none.mp hfind
    exact .inl ⟨foldl_apply_eq_self hno, hno⟩
  | some r =>
    obtain ⟨hf, pre, post, hrules, hpre⟩ := find?_eq_some_iff_append.mp hfind
    have hr : r ∈ rules := mem_of_find?_eq_some hfind
    refine .inr ⟨r, hr, hf, ?_⟩
    have hidle : pre.foldl (fun u r => r.apply after u) u = u := foldl_apply_eq_self (by simpa using hpre)
    unfold settlePath
    rw [hrules, foldl_append, hidle, foldl_cons]
    -- the rules behind it have no work left
    exact foldl_apply_eq_self fun r' hr' =>
      Rule.not_fits_apply (rules_spare r hr r' (hrules ▸ mem_append_right pre (mem_cons_of_mem r hr'))) hf

theorem settlePath_settlePath (after : Option Char) (u : Text) :
    settlePath after (settlePath after u) = settlePath after u := by
  refine foldl_apply_eq_self fun r' hr' => ?_
  rcases settlePath_cases after u with ⟨he, h⟩ | ⟨r, hr, hf, he⟩
  · rw [he]
    exact h r' hr'
  · rw [he]
    exact Rule.not_fits_apply (rules_spare r hr r' hr') hf

theorem settlePath_eq (after : Option Char) (u : Text) :
    settlePath after u = u ∨ ∃ r ∈ rules, ∃ t, u = r.stem ++ t ∧ settlePath after u = r.spelling ++ t
      ∧ (t.head?.or after).all (!isWordChar ·) = true := by
  rcases settlePath_cases after u with ⟨he, _⟩ | ⟨r, hr, hf, he⟩
  · exact .inl he
  · obtain ⟨t, hu, happly, hafter, _⟩ := Rule.exists_of_fits hf
    exact .inr ⟨r, hr, t, hu, he.trans happly, hafter⟩

/-! ## 5. Code, path by path -/

theorem replaceSymbolsInCode_eq (s : Text) :
    replaceSymbolsInCode s = rules.foldl (fun s r => replaceWord s r.symbol r.replacement) s := by
  unfold replaceSymbolsInCode
  rw [symbols_eq_rules, foldl_map]

theorem replaceSymbolsInCode_cons (hd : isPathChar d = false) (v : Text) :
    replaceSymbolsInCode (d :: v) = d :: replaceSymbolsInCode v := by
  have along (rs : List Rule) (hrs : ∀ r ∈ rs, r.Sound) (v : Text) :
      rs.foldl (fun s r => replaceWord s r.symbol r.replacement) (d :: v)
        = d :: rs.foldl (fun s r => replaceWord s r.symbol r.replacement) v := by
    induction rs generalizing v with
    | nil => rfl
    | cons r rs ih =>
      rw [foldl_cons, foldl_cons, (hrs r mem_cons_self).isSymbol.replaceWord_cons hd]
      exact ih (forall_mem_cons.mp hrs).2 _
  rw [replaceSymbolsInCode_eq, replaceSymbolsInCode_eq]
  exact along rules rules_sound v

@[simp] theorem replaceSymbolsInCode_nil : replaceSymbolsInCode [] = [] := by
  rw [replaceSymbolsInCode_eq]
  exact foldl_fixed' (fun _ => rfl) rules

theorem replaceSymbolsInCode_append (hu : IsPath u) (hw : Apart w) :
    replaceSymbolsInCode (u ++ w) = settlePath w.head? u ++ replaceSymbolsInCode w := by
  have along (rs : List Rule) (hrs : ∀ r ∈ rs, r.Sound) (u w : Text) (hu : IsPath u) (hw : Apart w) :
      rs.foldl (fun s r => replaceWord s r.symbol r.replacement) (u ++ w)
        = rs.foldl (fun u r => r.apply w.head? u) u
          ++ rs.foldl (fun s r => replaceWord s r.symbol r.replacement) w := by
    induction rs generalizing u w with
    | nil => rfl
    | cons r rs ih =>
      have hr := hrs r mem_cons_self
      have happly : IsPath (r.apply w.head? u) := by
        unfold Rule.apply
        split
        · exact hr.spelling.append (hu.drop _)
        · exact hu
      have hhead : (replaceWord w r.symbol r.replacement).head? = w.head? := by
        cases w with
        | nil => rfl
        | cons d v =>
          rw [hr.isSymbol.replaceWord_cons (hw d rfl)]
          rfl
      have hapart : Apart (replaceWord w r.symbol r.replacement) := by
        unfold Apart
        rw [hhead]
        exact hw
      rw [foldl_cons, hr.replaceWord_append hu hw,
        ih (forall_mem_cons.mp hrs).2 _ _ happly hapart, hhead]
      rfl
  rw [replaceSymbolsInCode_eq, replaceSymbolsInCode_eq]
  exact along rules rules_sound u w hu hw

theorem replaceSymbolsInCode_path (hu : IsPath u) : replaceSymbolsInCode u = settlePath none u := by
  have := replaceSymbolsInCode_append hu apart_nil
  rw [append_nil, replaceSymbolsInCode_nil, append_nil] at this
  exact this

theorem replaceSymbolsInCode_step (hu : IsPath u) (hd : isPathChar d = false) (v : Text) :
    replaceSymbolsInCode (u ++ d :: v)
      = settlePath (some d) u ++ d :: replaceSymbolsInCode v := by
  rw [replaceSymbolsInCode_append hu (apart_cons hd v), replaceSymbolsInCode_cons hd]
  rfl

-- from here on the table is closed: the equations above say all there is to say
attribute [local irreducible] settlePath replaceSymbolsInCode

theorem isPath_settlePath (hu : IsPath u) (after : Option Char) : IsPath (settlePath after u) := by
  rcases settlePath_eq after u with he | ⟨r, hr, t, rfl, he, _⟩
  · rw [he]
    exact hu
  · rw [he]
    exact (rules_sound r hr).spelling.append hu.of_append.2

theorem settlePath_eq_nil_iff : settlePath after u = [] ↔ u = [] := by
  rcases settlePath_eq after u with he | ⟨r, hr, t, rfl, he, _⟩
  · rw [he]
  · have h1 := (rules_sound r hr).spelling_ne
    have h2 := (rules_sound r hr).two_le
    rw [he, append_eq_nil_iff, append_eq_nil_iff]
    exact ⟨fun h => absurd h.1 h1, fun h => by rw [h.1] at h2; cases h2⟩

theorem sameSide_settlePath (after : Option Char) (u : Text) :
    Segment.SameSide u.getLast? (settlePath after u).getLast? := by
  unfold Segment.SameSide
  rcases settlePath_eq after u with he | ⟨r, hr, t, rfl, he, _⟩
  · rw [he]
  · rw [he, getLast?_append, getLast?_append]
    cases t.getLast? with
    | none => exact (rules_sound r hr).stem_last.trans (rules_sound r hr).spelling_last.symm
    | some c => rfl

theorem replaceSymbolsInCode_idem (s : Text) :
    replaceSymbolsInCode (replaceSymbolsInCode s) = replaceSymbolsInCode s := by
  induction s using pathInduction with
  | path u hu =>
    rw [replaceSymbolsInCode_path hu, replaceSymbolsInCode_path (isPath_settlePath hu none),
      settlePath_settlePath]
  | step u d v hu hd ih =>
    rw [replaceSymbolsInCode_step hu hd, replaceSymbolsInCode_step (isPath_settlePath hu (some d)) hd,
      settlePath_settlePath, ih]

/-! ## 6. Code stays code -/

namespace Segment

theorem opening?_of_path (hc : isPathChar c = true) (before : Option Char) (r : Text) :
    opening? before (c :: r) = none
      ↔ (c = 'R' → startsWith r "\"(" = true → before.any isWordChar = true) := by
  have hne {d : Char} (hd : isPathChar d = false) : c ≠ d := fun e => by
    rw [e, hd] at hc
    cases hc
  constructor
  · intro h hR hraw
    subst hR
    obtain ⟨t, rfl⟩ := startsWith_iff.mp hraw
    cases hb : before.any isWordChar with
    | true => rfl
    | false =>
      have := opening?_rawLiteral hb t
      rw [show opening? before ('R' :: '"' :: '(' :: t) = none from h] at this
      cases this
  · intro h
    cases ho : opening? before (c :: r) with
    | none => rfl
    | some p =>
      obtain ⟨k, n⟩ := p
      rcases opening?_cases ho with ⟨_, e, _⟩ | ⟨_, e, _⟩ | ⟨t, rfl, rfl, hb, _⟩ | ⟨e | e, _⟩
      · exact absurd e (hne rfl)
      · exact absurd e (hne rfl)
      · rw [h rfl (startsWith_append "\"(" t)] at hb
        cases hb
      · exact absurd e (hne rfl)
      · exact absurd e (hne rfl)

theorem isCode_path (hu : IsPath u) (before : Option Char) (rest : Text) :
    IsCode before u rest ↔ ∀ t, u = t ++ ['R'] → startsWith rest "\"(" = true →
      (t.getLast?.or before).any isWordChar = true := by
  induction u generalizing before with
  | nil => exact ⟨fun _ t ht => by simp at ht, fun _ => trivial⟩
  | cons c u ih =>
    rw [IsCode, opening?_of_path (hu c mem_cons_self),
      ih (forall_mem_cons.mp hu).2]
    cases u with
    | nil =>
      constructor
      · rintro ⟨h, _⟩ t ht hraw
        cases t with
        | nil =>
          cases ht
          exact h rfl hraw
        | cons x t => simp at ht
      · exact fun h => ⟨fun hR hraw => h [] (by rw [hR]; rfl) hraw, fun t ht => by simp at ht⟩
    | cons e u =>
      -- behind `c` the path goes on, so no raw literal starts there
      have hno : startsWith (e :: u ++ rest) "\"(" = false := by
        refine startsWith_of_head? rfl rfl ?_
        rintro rfl
        exact absurd (hu '"' (mem_cons_of_mem c mem_cons_self)) (by decide)
      constructor
      · rintro ⟨_, h⟩ t ht hraw
        cases t with
        | nil => cases ht
        | cons x t =>
          obtain ⟨rfl, ht'⟩ := List.cons.inj ht
          rw [getLast?_cons_or]
          exact h t ht' hraw
      · refine fun h => ⟨fun _ hraw => ?_, fun t ht hraw => ?_⟩
        · rw [hno] at hraw
          cases hraw
        · have := h (c :: t) (by rw [ht]; rfl) hraw
          rwa [getLast?_cons_or] at this

theorem opening?_of_not_path (hd : isPathChar d = false) {s' : Text} (h : opening? before (d :: s) = none)
    (hs : s'.head? = s.head? ∨ ∃ c, s'.head? = some c ∧ isPathChar c = true) :
    opening? before' (d :: s') = none := by
  cases ho : opening? before' (d :: s') with
  | none => rfl
  | some p =>
    obtain ⟨k, n⟩ := p
    -- a slash with a slash or a star behind it
    have slash {x : Char} {r : Text} (hx : isPathChar x = false) (he : s' = x :: r) :
        s.head? = some x := by
      rcases hs with hs | ⟨c, hs, hc⟩
      · rw [← hs, he]
        rfl
      · rw [he] at hs
        rw [← Option.some.inj hs, hx] at hc
        cases hc
    rcases opening?_cases ho with ⟨r, rfl, he, _⟩ | ⟨r, rfl, he, _⟩ | ⟨_, rfl, _⟩ | ⟨rfl | rfl, _⟩
    · obtain ⟨t, rfl⟩ := head?_eq_some_iff.mp (slash rfl he)
      cases h
    · obtain ⟨t, rfl⟩ := head?_eq_some_iff.mp (slash rfl he)
      cases h
    · exact absurd hd (by decide)
    · cases h
    · cases h

end Segment

theorem head?_replaceSymbolsInCode (s : Text) : (replaceSymbolsInCode s).head? = s.head?
    ∨ ∃ c, (replaceSymbolsInCode s).head? = some c ∧ isPathChar c = true := by
  -- a settled path in front decides, unless it is empty
  have front {u : Text} (after : Option Char) (hu : IsPath u) (hne : u ≠ []) (w : Text) :
      ∃ c, (settlePath after u ++ w).head? = some c ∧ isPathChar c = true := by
    cases hs : settlePath after u with
    | nil => exact absurd (settlePath_eq_nil_iff.mp hs) hne
    | cons c t => exact ⟨c, rfl, isPath_settlePath hu after c (by rw [hs]; exact mem_cons_self)⟩
  induction s using pathInduction with
  | path u hu =>
    by_cases hne : u = []
    · rw [hne, replaceSymbolsInCode_nil]
      exact .inl rfl
    · have := front none hu hne []
      rw [append_nil] at this
      rw [replaceSymbolsInCode_path hu]
      exact .inr this
  | step u d v hu hd _ =>
    rw [replaceSymbolsInCode_step hu hd]
    by_cases hne : u = []
    · rw [hne, settlePath_eq_nil_iff.mpr rfl]
      exact .inl rfl
    · exact .inr (front (some d) hu hne _)

theorem replaceSymbolsInCode_ne_nil (h : s ≠ []) : replaceSymbolsInCode s ≠ [] := by
  intro he
  rcases head?_replaceSymbolsInCode s with hs | ⟨c, hs, _⟩
  · rw [he, head?_nil] at hs
    exact h (head?_eq_none_iff.mp hs.symm)
  · rw [he] at hs
    cases hs

theorem getLast?_append_cons (a : Text) (d : Char) (v : Text) :
    (a ++ d :: v).getLast? = some (v.getLast?.getD d) := by
  rw [getLast?_append, getLast?_cons]
  rfl

theorem sameSide_replaceSymbolsInCode (s : Text) :
    Segment.SameSide s.getLast? (replaceSymbolsInCode s).getLast? := by
  induction s using pathInduction with
  | path u hu =>
    rw [replaceSymbolsInCode_path hu]
    exact sameSide_settlePath none u
  | step u d v hu hd ih =>
    rw [replaceSymbolsInCode_step hu hd, getLast?_append_cons, getLast?_append_cons]
    by_cases hv : v = []
    · rw [hv, replaceSymbolsInCode_nil]
      rfl
    · rw [getLast?_eq_some_getLast hv,
        getLast?_eq_some_getLast (replaceSymbolsInCode_ne_nil hv)] at ih ⊢
      exact ih

theorem isCode_settlePath (hu : IsPath u) {rest' : Text} (hb : Segment.SameSide before before')
    (hmark : Segment.SameMark rest rest') (after : Option Char) (h : Segment.IsCode before u rest) :
    Segment.IsCode before' (settlePath after u) rest' := by
  rw [Segment.isCode_path hu] at h
  rw [Segment.isCode_path (isPath_settlePath hu after)]
  intro t ht hraw
  rw [← hmark.raw] at hraw
  rcases settlePath_eq after u with he | ⟨r, hr, x, rfl, he, hafter⟩
  · have := h t (he.symm.trans ht) hraw
    cases hl : t.getLast? with
    | none =>
      rw [hl] at this
      exact hb.symm.trans this
    | some c =>
      rw [hl] at this
      exact this
  · rw [he] at ht
    rcases eq_nil_or_concat' x with rfl | ⟨y, c, rfl⟩
    · -- a spelling does not end with `R`
      have := (rules_sound r hr).not_raw
      rw [append_nil] at ht
      rw [ht, getLast?_concat] at this
      exact absurd rfl this
    · rw [← append_assoc] at ht
      obtain ⟨rfl, hc⟩ := append_inj' ht rfl
      obtain rfl : c = 'R' := (cons.inj hc).1
      have := h (r.stem ++ y) (by rw [append_assoc]) hraw
      -- what follows a stem is no word character, so the `R` has something before it
      cases y with
      | nil =>
        have hR : (!isWordChar 'R') = true := hafter
        exact absurd hR (by decide)
      | cons d y =>
        rw [getLast?_append_cons] at this ⊢
        exact this

/-- Replacing symbols leaves code code. -/
theorem keepsCode_replaceSymbols : Segment.KeepsCode replaceSymbolsInCode where
  ne_nil := replaceSymbolsInCode_ne_nil
  newline {code} h := by
    obtain ⟨v, rfl⟩ := head?_eq_some_iff.mp h
    rw [replaceSymbolsInCode_cons rfl]
    rfl
  last {code} := sameSide_replaceSymbolsInCode code
  code {before before' code rest rest'} hb hmark h := by
    induction code using pathInduction generalizing before before' with
    | path u hu =>
      rw [replaceSymbolsInCode_path hu]
      exact isCode_settlePath hu hb hmark none h
    | step u d v hu hd ih =>
      obtain ⟨hpath, hopen, hv⟩ := Segment.isCode_append.mp h
      rw [replaceSymbolsInCode_step hu hd]
      refine Segment.isCode_append.mpr ⟨?_, ?_, ih rfl hv⟩
      · rw [Segment.isCode_path (isPath_settlePath hu _)]
        intro t _ hraw
        -- a double quote would not be code
        obtain ⟨x, hx⟩ := startsWith_iff.mp hraw
        obtain rfl : d = '"' := (cons.inj hx).1
        cases hopen
      · refine Segment.opening?_of_not_path hd hopen ?_
        by_cases hne : v = []
        · rw [hne, replaceSymbolsInCode_nil]
          exact .inl hmark.head.symm
        · rcases head?_replaceSymbolsInCode v with hh | ⟨c, hh, hc⟩
          · refine .inl ?_
            rw [head?_append, head?_append, hh]
            cases v with
            | nil => exact absurd rfl hne
            | cons x v => rfl
          · exact .inr ⟨c, by rw [head?_append, hh]; rfl, hc⟩

/-! ## 7. Programs -/

/-- **Symbols are replaced in code alone, and once for all**: the literals and comments of a program
    are those it had, in order, and a second pass changes nothing. -/
theorem replaceSymbols_codeOnly (s : Text) :
    (segments (replaceSymbols s)).filter (·.kind != .code) = (segments s).filter (·.kind != .code)
      ∧ replaceSymbols (replaceSymbols s) = replaceSymbols s := by
  have hsegs : segments (replaceSymbols s) = (segments s).map (Segment.respell replaceSymbolsInCode) :=
    segments_mapCode keepsCode_replaceSymbols s
  constructor
  · rw [hsegs]
    induction segments s with
    | nil => rfl
    | cons seg segs ih =>
      rw [map_cons, filter_cons, filter_cons, Segment.kind_respell, ih]
      split
      · rename_i hk
        have : Segment.respell replaceSymbolsInCode seg = seg := by
          unfold Segment.respell
          rw [if_neg (by simpa [bne] using hk)]
        rw [this]
      · rfl
  · show mapCode replaceSymbolsInCode (replaceSymbols s) = mapCode replaceSymbolsInCode s
    rw [mapCode_eq, mapCode_eq, hsegs, map_map]
    congr 1
    refine map_congr_left fun seg _ => ?_
    unfold Function.comp Segment.respell
    split
    · simp [replaceSymbolsInCode_idem]
    · rfl

end Linewise
