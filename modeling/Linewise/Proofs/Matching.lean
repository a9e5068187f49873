/-
  Brackets and their partners, and the braces that end a line.

  The search for a partner reads from a bracket on and counts one shape alone; the rule for semicolons
  reads from the start of the line. What either has counted since a brace in code is the same, so the
  last brace of a line closes a brace of that line exactly where it is the partner of one.
-/
import Mathlib.Order.WellFounded
import Linewise.Proofs.RangeHeads

namespace Linewise

open Text List

variable {r s : Text} {c k o : Char} {l : Lexer} {d i j n : Nat}

/-! ## 1. One step of the search -/

/-- What the next character is masked to. -/
def Lexer.shown (l : Lexer) (c : Char) : Char := if l.isCode c then c else ' '

theorem Lexer.shown_eq_iff (h : o ≠ ' ') : l.shown c = o ↔ l.isCode c = true ∧ c = o := by
  unfold shown
  cases l.isCode c with
  | true => rw [if_pos rfl, and_iff_right rfl]
  | false => exact ⟨fun e => absurd e.symm h, fun e => by cases e.1⟩

theorem matchingFrom?_cons (h : closer? o = some k) (l : Lexer) (d : Nat) (c : Char) (r : Text) :
    matchingFrom? o k l d (c :: r) =
      if l.shown c = o then (matchingFrom? o k (l.step c) (d + 1) r).map (· + 1)
      else if l.shown c = k then
        if d ≤ 1 then some 0 else (matchingFrom? o k (l.step c) (d - 1) r).map (· + 1)
      else (matchingFrom? o k (l.step c) d r).map (· + 1) := by
  have hne : o ≠ ' ' ∧ k ≠ ' ' := by
    rcases closer?_cases h with ⟨rfl, rfl⟩ | ⟨rfl, rfl⟩ | ⟨rfl, rfl⟩ <;> decide
  simp only [matchingFrom?, Lexer.shown_eq_iff hne.1, Lexer.shown_eq_iff hne.2, Bool.and_eq_true, beq_iff_eq]

/-! ## 2. The first place where a shape is closed -/

/-- The code up to the place closes as many brackets as are open, with `depth` open before the text. -/
def EvenAt (opening closing : Char) (l : Lexer) (depth : Nat) (s : Text) (n : Nat) : Prop :=
  n < s.length ∧
    depth + (l.maskFrom (s.take (n + 1))).count opening = (l.maskFrom (s.take (n + 1))).count closing

theorem evenAt_zero_iff : EvenAt o k l d (c :: r) 0 ↔ d + [l.shown c].count o = [l.shown c].count k :=
  and_iff_right (Nat.succ_pos _)

theorem evenAt_succ_iff {d' : Nat} (h : d + [l.shown c].count o = d' + [l.shown c].count k) :
    EvenAt o k l d (c :: r) (n + 1) ↔ EvenAt o k (l.step c) d' r n := by
  have hmask : l.maskFrom ((c :: r).take (n + 1 + 1)) = [l.shown c] ++ (l.step c).maskFrom (r.take (n + 1)) := rfl
  unfold EvenAt
  rw [hmask, count_append, count_append, length_cons]
  omega

theorem isLeast_add_iff {p : Nat → Prop} (h : ∀ j, p j → i ≤ j) :
    IsLeast {j | p j} (n + i) ↔ IsLeast {n | p (n + i)} n := by
  refine ⟨fun hn => ⟨hn.1, fun m hm => Nat.le_of_add_le_add_right (hn.2 hm)⟩, fun hn => ⟨hn.1, fun j hj => ?_⟩⟩
  obtain ⟨m, rfl⟩ := Nat.exists_eq_add_of_le' (h j hj)
  exact Nat.add_le_add_right (hn.2 hj) i

/-- **The search stops at the first place where nothing is left open.** Something is open at every place
    before, so the counter is never asked to go below zero. -/
theorem matchingFrom?_iff (h : closer? o = some k) :
    matchingFrom? o k l (d + 1) s = some n ↔ IsLeast {n | EvenAt o k l (d + 1) s n} n := by
  have hok := closer?_ne h
  induction s generalizing l d n with
  | nil => exact ⟨nofun, fun h => absurd h.1.1 (Nat.not_lt_zero n)⟩
  | cons c r ih =>
    -- the search goes on, with as many open as the character leaves
    have next {d' : Nat} (hd : d + 1 + [l.shown c].count o = d' + 1 + [l.shown c].count k) :
        (matchingFrom? o k (l.step c) (d' + 1) r).map (· + 1) = some n
          ↔ IsLeast {n | EvenAt o k l (d + 1) (c :: r) n} n := by
      have hzero : ¬ EvenAt o k l (d + 1) (c :: r) 0 := fun h => by
        have := evenAt_zero_iff.mp h
        omega
      cases n with
      | zero => exact ⟨fun h => by simp at h, fun h => absurd h.1 hzero⟩
      | succ n =>
        rw [isLeast_add_iff fun m hm => Nat.pos_of_ne_zero fun e => hzero (e ▸ hm)]
        simp [evenAt_succ_iff hd, ← ih]
    rw [matchingFrom?_cons h]
    split
    · rename_i hc
      exact next (by simp [hc, hok])
    · rename_i hc
      split
      · rename_i hck
        cases d with
        | zero =>
          have hzero : EvenAt o k l 1 (c :: r) 0 := evenAt_zero_iff.mpr (by simp [hck, hok.symm])
          exact ⟨fun h => by cases h; exact ⟨hzero, fun _ _ => Nat.zero_le _⟩,
            fun h => congrArg some (Nat.le_zero.mp (h.2 hzero)).symm⟩
        | succ d => exact next (by simp [hck, hok.symm])
      · rename_i hck
        exact next (by simp [hc, hck])

/-- As many brackets of a shape are opened as closed in the code of the text. -/
def EquallyMany (opening closing : Char) (s : Text) : Prop :=
  (mask s).count opening = (mask s).count closing

/-- The places behind `i` up to which as many brackets of a shape are opened as closed. -/
def evenPlaces (opening closing : Char) (s : Text) (i : Nat) : Set Nat :=
  {j | i < j ∧ j < s.length ∧ EquallyMany opening closing ((s.drop i).take (j + 1 - i))}

/-- Where the bracket at `i` is closed. -/
def partner? (s : Text) (i : Nat) : Option Nat := (matching? (s.drop i)).map (· + i)

theorem partner?_iff (ho : s[i]? = some o) (hk : closer? o = some k) :
    partner? s i = some j ↔ IsLeast (evenPlaces o k s i) j := by
  have hcode := isCode_of_closer? hk
  have hopen : 0 + [Lexer.start.shown o].count o = 1 + [Lexer.start.shown o].count k := by
    rw [Lexer.shown, if_pos hcode]
    simp [closer?_ne hk]
  obtain ⟨hlt, hget⟩ := List.getElem?_eq_some_iff.mp ho
  have hdrop : s.drop i = o :: s.drop (i + 1) := by rw [drop_eq_getElem_cons hlt, hget]
  have heven (n : Nat) : i < n + (i + 1) ∧ n + (i + 1) < s.length ∧
      EquallyMany o k ((s.drop i).take (n + (i + 1) + 1 - i)) ↔ EvenAt o k ⟨.code, o⟩ 1 (s.drop (i + 1)) n := by
    have hlen : n + (i + 1) + 1 - i = n + 1 + 1 := by omega
    rw [← Lexer.step_eq_of_isCode hcode, ← evenAt_succ_iff hopen, ← hdrop]
    unfold EvenAt EquallyMany
    rw [hlen, length_drop, Nat.zero_add, and_iff_right (by omega)]
    exact and_congr (by omega) Iff.rfl
  have hleast (n : Nat) : matchingFrom? o k ⟨.code, o⟩ 1 (s.drop (i + 1)) = some n ↔
      IsLeast (evenPlaces o k s i) (n + (i + 1)) := by
    unfold evenPlaces
    rw [isLeast_add_iff fun j hj => hj.1]
    simp only [heven]
    exact matchingFrom?_iff hk
  have hshift (n : Nat) : n + 1 + i = n + (i + 1) := by omega
  rw [partner?, hdrop, matching?_cons hk, Option.map_map, Option.map_eq_some_iff]
  simp only [Function.comp_apply, hshift]
  refine ⟨fun ⟨n, hn, hj⟩ => hj ▸ (hleast n).mp hn, fun h => ?_⟩
  obtain ⟨n, rfl⟩ := Nat.exists_eq_add_of_le' h.1.1
  exact ⟨n, (hleast n).mpr h, rfl⟩

/-! ## 3. The last brace of a line -/

/-- The brace at `i` stands in code, and the search that starts at it ends at `j`. -/
def Lexer.BraceCloses (l : Lexer) (s : Text) (i j : Nat) : Prop :=
  (l.maskFrom s)[i]? = some '{' ∧ partner? s i = some j

theorem exists_braceCloses_iff :
    (∃ i, l.BraceCloses (c :: r) i (j + 1)) ↔
      (l.shown c = '{' ∧ matchingFrom? '{' '}' (l.step c) 1 r = some j) ∨ ∃ i, (l.step c).BraceCloses r i j := by
  rw [← Nat.or_exists_add_one]
  refine or_congr ?_ (exists_congr fun i => and_congr Iff.rfl ?_)
  · show some (l.shown c) = some '{' ∧ _ ↔ _
    rw [Option.some_inj]
    refine and_congr_right fun h => ?_
    obtain ⟨hcode, rfl⟩ := (Lexer.shown_eq_iff (by decide)).mp h
    rw [partner?, drop_zero, matching?_cons rfl, Lexer.step_eq_of_isCode hcode]
    simp
  · rw [partner?, partner?, drop_succ_cons]
    simp [← Nat.add_assoc]

/-- The rule for semicolons finds what the search finds. -/
theorem closesInlineFrom_iff (inline : Bool) (v : Text) (hcode : (l.run s).isCode '}' = true) :
    closesInlineFrom d inline (l.maskFrom (s ++ ['}'])) = true ↔
      (∃ e < d, matchingFrom? '{' '}' l (e + 1) (s ++ '}' :: v) = some s.length) ∨
        ∃ i, l.BraceCloses (s ++ '}' :: v) i s.length := by
  have search := matchingFrom?_cons (o := '{') (k := '}') rfl
  induction s generalizing l d inline with
  | nil =>
    have hshown : l.shown '}' = '}' := if_pos hcode
    have hdepth : closesInlineFrom d inline (l.maskFrom ['}']) = decide (0 < d) := by
      show closesInlineFrom d inline [l.shown '}'] = _
      rw [hshown]
      rfl
    have hnone : ¬ ∃ i, l.BraceCloses ('}' :: v) i 0 := by
      rintro ⟨i, hbrace, hpartner⟩
      obtain ⟨n, _, hn⟩ := Option.map_eq_some_iff.mp hpartner
      obtain rfl : i = 0 := by omega
      exact absurd (hshown.symm.trans (Option.some.inj hbrace)) (by decide)
    rw [nil_append, nil_append, length_nil, hdepth, or_iff_left hnone, decide_eq_true_iff]
    simp only [search, hshown]
    exact ⟨fun hd => ⟨0, hd, rfl⟩, fun ⟨e, he, _⟩ => Nat.zero_lt_of_lt he⟩
  | cons c r ih =>
    rw [cons_append, cons_append, length_cons, exists_braceCloses_iff]
    show closesInlineFrom d inline (l.shown c :: (l.step c).maskFrom (r ++ ['}'])) = true ↔ _
    simp only [closesInlineFrom, search, beq_iff_eq]
    split
    · -- one more is open: it is the first of those open before the rest
      rename_i ho
      refine (ih _ hcode).trans ?_
      rw [Nat.exists_lt_succ_left]
      simp [ho, or_left_comm, or_assoc]
    · rename_i ho
      split
      · -- the first of those open before is closed here, and not by the last brace
        refine (ih _ hcode).trans ?_
        cases d with
        | zero => simp [ho]
        | succ d =>
          rw [Nat.exists_lt_succ_left]
          simp [ho]
      · refine (ih _ hcode).trans ?_
        simp [ho]

theorem closesInline_trimEnd_iff (hclosed : (Lexer.start.run s).mode = .code)
    (hlast : (trimEnd s).getLast? = some '}') :
    closesInline (trimEnd s) = true ↔ ∃ i, Lexer.start.BraceCloses s i ((trimEnd s).length - 1) := by
  obtain ⟨v, hs, hv⟩ := eq_append_dropEndWhile isBlank s
  change s = trimEnd s ++ v at hs
  obtain ⟨t, ht⟩ := getLast?_eq_some_iff.mp hlast
  have hend : (Lexer.start.run (trimEnd s)).mode = .code := by
    rw [hs, Lexer.run_append] at hclosed
    exact Lexer.mode_of_run_blank hv (Lexer.quotes_start.run _) hclosed
  rw [ht, append_assoc] at hs
  rw [ht, Lexer.run_append] at hend
  have hcode : (Lexer.start.run t).isCode '}' = true :=
    Lexer.isCode_of_mode (Lexer.mode_of_step (Lexer.quotes_start.run t) rfl hend) rfl
  rw [ht, hs, closesInline, mask, closesInlineFrom_iff false v hcode, length_append, length_singleton,
    Nat.add_sub_cancel]
  simp

theorem terminate_brace (h : (trimEnd s).getLast? = some '}') :
    terminate s = if closesInline (trimEnd s) then trimEnd s ++ ";" else trimEnd s := by
  unfold terminate
  dsimp only
  rw [h]
  rfl

theorem matchingAtByte?_offset (s : Text) (i : Nat) :
    matchingAtByte? s (Utf8.offset s i) = some ((partner? s i).map (Utf8.offset s)) := by
  rw [matchingAtByte?, Utf8.splitAt?_offset, Option.map_some, partner?, Option.map_map]
  refine congrArg (fun f => some ((matching? (s.drop i)).map f)) (funext fun n => ?_)
  rw [← Utf8.offset_add, Nat.add_comm]
  rfl

/-- **The partner of a bracket, and the semicolon behind a brace.** The partner is the first place
    behind a bracket, in a literal or not, up to which as many brackets of the shape are opened as
    closed, in the code as read from the bracket on; there is none if there is no such place. A line
    with closed literals that ends in a brace gets a semicolon exactly if that brace is the partner
    of a brace in its code. -/
theorem partners_exact (s : Text) :
    (∀ i opening closing, s[i]? = some opening → closer? opening = some closing →
      matchingAtByte? s (Utf8.offset s i) = some ((partner? s i).map (Utf8.offset s)) ∧
      (∀ j, partner? s i = some j ↔ IsLeast (evenPlaces opening closing s i) j) ∧
      (partner? s i = none ↔ ∀ j, j ∉ evenPlaces opening closing s i)) ∧
    ((Lexer.start.run s).mode = .code → (trimEnd s).getLast? = some '}' →
      (terminate s = trimEnd s ++ ";" ∨ terminate s = trimEnd s) ∧
      (terminate s = trimEnd s ++ ";" ↔
        ∃ i, (mask s)[i]? = some '{' ∧ partner? s i = some ((trimEnd s).length - 1))) := by
  refine ⟨fun i o k ho hk => ⟨matchingAtByte?_offset s i, fun j => partner?_iff ho hk, ?_⟩,
    fun hclosed hlast => ?_⟩
  · rw [Option.eq_none_iff_forall_ne_some]
    refine ⟨fun h j hj => ?_, fun h j hj => h j ((partner?_iff ho hk).mp hj).1⟩
    obtain ⟨m, hm, hleast⟩ := Nat.lt_wfRel.wf.has_min (evenPlaces o k s i) ⟨j, hj⟩
    exact h m ((partner?_iff ho hk).mpr ⟨hm, fun x hx => Nat.le_of_not_lt (hleast x hx)⟩)
  · have hiff := closesInline_trimEnd_iff hclosed hlast
    rw [terminate_brace hlast]
    cases hinline : closesInline (trimEnd s) with
    | true => exact ⟨.inl rfl, iff_of_true rfl (hiff.mp hinline)⟩
    | false => exact ⟨.inr rfl, iff_of_false (by simp) fun h => by cases hinline.symm.trans (hiff.mpr h)⟩

/-- A line that closes something of an earlier line, with a brace in a literal. -/
def strayBrace : Text := "\x7d p\x7b\"\x7d\", \x7b\x7d\x7d "

theorem partners_exact_stray :
    IsLeast (evenPlaces '{' '}' strayBrace 3) 11 ∧ terminate strayBrace = "\x7d p\x7b\"\x7d\", \x7b\x7d\x7d;" := by
  have h := partners_exact strayBrace
  have hpartner : partner? strayBrace 3 = some 11 := by decide
  exact ⟨((h.1 3 '{' '}' rfl rfl).2.1 11).mp hpartner, (h.2 (by decide) (by decide)).2.mpr ⟨3, by decide, hpartner⟩⟩

end Linewise
