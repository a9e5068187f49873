/-
  What a run knows it knows to its end: names that hold maps.

  A range over a known map binds keys and values, and a look-up with two names asks whether the key is
  there. One kind of name is not read so: `_1` is a number to a loop, which counts up to it.
-/
import Linewise.Proofs.Course

namespace Linewise

open Text List Lower

variable {x key line : Text} {s : State} {c : Char}

/-! ## 1. Known names -/

namespace State

theorem bareOperand_of_isIdentifier (hx : isIdentifier x = true) : bareOperand x = x := by
  have hne : ∀ d, isWordChar d = false → ∀ c ∈ x, (c == d) = false := fun d hd c hc =>
    beq_eq_false_iff_ne.mpr (ne_of_isWordChar (isWordChar_of_mem hx c hc) hd)
  have htrim : trim x = x := trim_eq_self_of_solid (solid_of_isIdentifier hx)
  have hdrop : ∀ d, isWordChar d = false → x.dropWhile (· == d) = x := by
    intro d hd
    cases x with
    | nil => rfl
    | cons c r => exact dropWhile_cons_of_neg (by rw [hne d hd c mem_cons_self]; nofun)
  have hend : dropEndWhile (· == ')') x = x :=
    dropEndWhile_eq_self fun c hc => hne ')' rfl c (mem_of_getLast? hc)
  unfold bareOperand
  rw [htrim, hdrop '(' rfl, hend, htrim, hdrop '*' rfl]

theorem Gathers.isKnownMap {s' : State} (h : s.Gathers s') (hx : isIdentifier x = true) (hknown : x ∈ s.knownMaps) :
    s'.isKnownMap x = true := by
  unfold State.isKnownMap
  rw [bareOperand_of_isIdentifier hx]
  simp [h.knownMaps.subset hknown]

end State

/-! ## 2. Loops -/

namespace Lexer

theorem mem_of_mem_maskFrom (hc : c ≠ ' ') {s : Text} : ∀ {l : Lexer}, c ∈ l.maskFrom s → c ∈ s := by
  induction s with
  | nil => exact id
  | cons d r ih =>
    intro l h
    rcases mem_cons.mp h with hd | h
    · split at hd
      · exact hd ▸ mem_cons_self
      · exact absurd hd hc
    · exact mem_cons_of_mem d (ih h)

end Lexer

namespace Lower

theorem mem_of_splitRange? {head : Text} {o : Option (Text × Text)} (h : splitRange? head = some o) :
    'r' ∈ head := by
  unfold splitRange? at h
  cases hs : stripStart? "range " head with
  | some container =>
    rw [eq_append_of_stripStart? hs]
    exact mem_append_left _ (by decide)
  | none =>
    rw [hs] at h
    obtain ⟨i, hi, _⟩ := Option.map_eq_some_iff.mp h
    obtain ⟨t, ht⟩ := startsWith_iff.mp (startsWith_of_indexOf? hi).1
    have hr : 'r' ∈ (mask head).drop i := ht ▸ mem_append_left t (by decide)
    exact Lexer.mem_of_mem_maskFrom (by decide) (mem_of_mem_drop hr)

/-- The loop a range over a map becomes. -/
def walkMap (vars : List Text) (container : Text) : Lower Text :=
  match vars with
  | [] => return unusedLoop (← freshName .discard) container
  | [v] => mapRange v none container
  | [v, w] => mapRange v (some w) container
  | _ => fail (.malformed .rangeLoop (joinWith ", " vars))

theorem rangeLoop_run (hknown : s.isKnownMap x = true) (vars : List Text) :
    (rangeLoop vars x).run s
      = (if Number.isNumber x then integerRange vars x else walkMap vars x).run s := by
  unfold rangeLoop walkMap
  by_cases hn : Number.isNumber x = true
  · rw [if_pos hn, if_pos hn]
  · rw [if_neg hn, if_neg hn, EStateM.run_bind, EStateM.run_get]
    dsimp only
    rw [hknown]
    match vars with
    | [] => rfl
    | [_] => rfl
    | [_, _] => rfl
    | _ :: _ :: _ :: _ => rfl

theorem forLoop_range {vars : Text} (h : splitRange? (loopHead line) = some (some (vars, x))) :
    forLoop line = do return .line (← rangeLoop (splitTop ',' vars) x) := by
  have hr := mem_of_splitRange? h
  have hhead : ((loopHead line).isEmpty || (loopHead line).filter (· != ' ') == ";;") = false := by
    rw [Bool.or_eq_false_iff]
    refine ⟨?_, beq_eq_false_iff_ne.mpr fun he => ?_⟩
    · rw [isEmpty_eq_false_iff]
      exact ne_nil_of_mem hr
    · have hmem : 'r' ∈ (loopHead line).filter (· != ' ') := mem_filter.mpr ⟨hr, rfl⟩
      rw [he] at hmem
      exact absurd hmem (by decide)
  unfold forLoop
  rw [show trim (stripEnd "\x7b" (trim (stripStart "for" line))) = loopHead line from rfl]
  simp only [hhead, Bool.false_eq_true, if_false, h]

/-! ## 3. Look-ups -/

/-- An element in brackets behind an identifier. -/
def indexed (x key : Text) : Text := x ++ '[' :: (key ++ [']'])

theorem isElement_indexed (hx : isIdentifier x = true) (hkey : WellNested key) :
    IsElement (indexed x key) where
  part := (isPart_bare (bare_of_isIdentifier hx) (not_mem_of_isIdentifier hx rfl)).join
    (.bracketed rfl (by decide) hkey) (joins_of_head (by decide) x _)
  solid := by
    have hx0 : x ≠ [] := by
      rintro rfl
      cases hx
    refine ⟨SolidStart.append (solid_of_isIdentifier hx).1 hx0 _, ?_⟩
    rw [indexed, ← cons_append, ← append_assoc]
    exact solidEnd_of_last getLast?_concat rfl
  ne_nil := by simp [indexed]

theorem splitIndex?_indexed (hx : isIdentifier x = true) (hkey : WellNested key) :
    splitIndex? (indexed x key) = some (x, key) := by
  have hx0 : 0 < x.length := by
    cases x with
    | nil => cases hx
    | cons c r => exact Nat.succ_pos _
  have hlen : (indexed x key).length = x.length + (key.length + 2) := by
    simp [indexed]
  have hend : endsWith (indexed x key) "]" = true :=
    endsWith_iff.mpr ⟨x ++ '[' :: key, by simp [indexed]⟩
  have hdrop : (indexed x key).drop x.length = '[' :: (key ++ [']']) := drop_left
  have hfind : (range (indexed x key).length).find? (fun i =>
      0 < i && ((indexed x key).drop i).head? == some '['
        && matching? ((indexed x key).drop i) == some ((indexed x key).length - 1 - i))
      = some x.length := by
    rw [find?_range_eq_some]
    refine ⟨?_, mem_range.mpr (by omega), fun j hj => ?_⟩
    · rw [hdrop, matching?_bracketed rfl hkey, hlen]
      have hlast : x.length + (key.length + 2) - 1 - x.length = key.length + 1 := by omega
      rw [hlast]
      simp [hx0]
    · -- in front of it stand word characters
      have hhead : (indexed x key)[j]? ≠ some '[' := by
        rw [indexed, getElem?_append_left hj]
        intro h
        exact not_mem_of_isIdentifier hx rfl (mem_of_getElem? h)
      simp [hhead]
  unfold splitIndex?
  rw [(isElement_indexed hx hkey).trim_eq]
  simp only [hend, if_true, hfind, Option.map_some]
  have htake : (indexed x key).take x.length = x := take_left
  rw [htake, trim_eq_self_of_solid (solid_of_isIdentifier hx), ← drop_drop, hdrop, hlen]
  have hkeylen : x.length + (key.length + 2) - 2 - x.length = key.length := by omega
  rw [hkeylen, drop_one, tail_cons, take_left]

theorem not_startsWith_indexed (hx : isIdentifier x = true) {w : Text} (hw : ∀ d ∈ w, isWordChar d = true)
    (hc : isWordChar c = false) (hne : c ≠ '[') (v key : Text) :
    startsWith (indexed x key) (w ++ c :: v) = false := by
  refine Bool.eq_false_iff.mpr fun h => ?_
  obtain ⟨t, ht⟩ := startsWith_iff.mp h
  have hdrop := congrArg (dropWhile isWordChar) ht
  rw [indexed, append_assoc, dropWhile_append_of_pos (isWordChar_of_mem hx),
    dropWhile_append_of_pos hw, dropWhile_cons_of_neg (by decide), cons_append,
    dropWhile_cons_of_neg (by rw [hc]; nofun)] at hdrop
  exact hne (cons.inj hdrop).1.symm

/-- Several names bound to the results of one expression. -/
def bindResults (names : List Text) (source : Text) (kind : Binding.Kind) : Lower Lowered :=
  match kind with
  | .define => do
    let bindings ← names.mapM bindingName
    return .statement ("auto [" ++ joinWith ", " bindings ++ "] = " ++ source)
  | .assign =>
    return .statement ("std::tie(" ++ joinWith ", " (names.map tieTarget) ++ ") = " ++ source)

/-- The question whether a key is there, and what it holds. -/
def askMap (x key : Text) : Text := "_comma_ok(" ++ x ++ ", " ++ key ++ ")"

theorem assignment_lookup {lhs : Text} {kind : Binding.Kind} (hx : isIdentifier x = true) (hkey : WellNested key)
    (hknown : s.isKnownMap x = true) (hb : Binding.split? line = some ⟨lhs, indexed x key, kind⟩)
    (hn : (splitTop ',' lhs).length = 2) :
    (assignment line).run s = (bindResults (splitTop ',' lhs) (askMap x key) kind).run s := by
  have hsingle : splitTop ',' (indexed x key) = [indexed x key] := by
    have hlist := @splitTop_list [indexed x key] (by simpa using isElement_indexed hx hkey)
    rwa [joinWith_singleton] at hlist
  have hfunc : (startsWith (indexed x key) "func(" || startsWith (indexed x key) "func (") = false := by
    rw [Bool.or_eq_false_iff]
    exact ⟨not_startsWith_indexed hx (w := "func") (c := '(') (by decide) rfl (by decide) [] key,
      not_startsWith_indexed hx (w := "func") (by decide) rfl (by decide) "(" key⟩
  have hnot : ¬ (splitTop ',' lhs).length ≤ 1 := by omega
  unfold assignment
  simp only [hb, hfunc, Bool.false_eq_true, if_false, if_neg hnot, hsingle]
  unfold destructure
  simp only [hn, splitIndex?_indexed hx hkey, beq_self_eq_true, if_true, EStateM.run_bind, EStateM.run_get,
    hknown]
  rfl

end Lower

/-! ## 4. Names that read as numbers -/

theorem not_isDigit_of_isLetter (h : isLetter c = true) : c.isDigit = false := by
  refine Bool.eq_false_iff.mpr fun hd => ?_
  have hrange : 48 ≤ c.toNat ∧ c.toNat ≤ 57 := by
    simpa [Char.isDigit, UInt32.le_iff_toNat_le] using hd
  unfold isLetter at h
  rw [if_pos (by omega)] at h
  have halpha : (65 ≤ c.toNat ∧ c.toNat ≤ 90) ∨ (97 ≤ c.toNat ∧ c.toNat ≤ 122) := by
    have h : (decide (c.val ≥ 65 ∧ c.val ≤ 90) || (decide (c.val ≥ 97) && decide (c.val ≤ 122))) = true := h
    simpa [UInt32.le_iff_toNat_le] using h
  omega

theorem Number.head?_of_isNumber (hx : isIdentifier x = true) (h : isNumber x = true) : x.head? = some '_' := by
  have htrim : trim x = x := trim_eq_self_of_solid (solid_of_isIdentifier hx)
  cases x with
  | nil => cases hx
  | cons c r =>
    have hc : isWordChar c = true := isWordChar_of_mem hx c mem_cons_self
    by_cases hu : c = '_'
    · rw [hu]
      rfl
    · have hletter : isLetter c = true := by
        have := (Bool.and_eq_true_iff.mp hx).1
        simpa [hu] using this
      have hmagnitude : magnitude (c :: r) = c :: r.filter (· != '_') := by
        unfold magnitude
        rw [htrim, filter_cons_of_pos (by simpa using hu)]
        split
        · rename_i hminus
          exact absurd (cons.inj hminus).1 (ne_of_isWordChar hc rfl)
        · rename_i hplus
          exact absurd (cons.inj hplus).1 (ne_of_isWordChar hc rfl)
        · rfl
      have hstart := (Bool.and_eq_true_iff.mp h).1
      rw [hmagnitude] at hstart
      unfold startsNumeric at hstart
      split at hstart
      · rename_i hpoint
        exact absurd (cons.inj hpoint).1 (ne_of_isWordChar hc rfl)
      · rename_i hfirst
        rw [← (cons.inj hfirst).1, not_isDigit_of_isLetter hletter] at hstart
        cases hstart
      · cases hstart

/-! ## 5. Whole runs -/

namespace State

/-- A look-up in `x` with two names asks whether the key is there. -/
def AsksMap (s : State) (x : Text) : Prop :=
  ∀ line lhs key kind, WellNested key → (splitTop ',' lhs).length = 2 →
    Binding.split? line = some ⟨lhs, Lower.indexed x key, kind⟩ →
      (assignment line).run s
        = (bindResults (splitTop ',' lhs) (askMap x key) kind).run s

/-- A range over `x` becomes the given loop over its variables. -/
def RangesAs (s : State) (x : Text) (loop : List Text → Lower Text) : Prop :=
  ∀ line vars, splitRange? (loopHead line) = some (some (vars, x)) →
    (forLoop line).run s = (do return Lowered.line (← loop (splitTop ',' vars))).run s

theorem asksMap_of_known (hx : isIdentifier x = true) (h : s.isKnownMap x = true) : s.AsksMap x :=
  fun _ _ _ _ hkey hn hb => assignment_lookup hx hkey h hb hn

theorem rangesAs_of_known (h : s.isKnownMap x = true) :
    s.RangesAs x fun vars =>
      if Number.isNumber x then integerRange vars x else walkMap vars x := by
  intro line vars hsplit
  rw [forLoop_range hsplit, EStateM.run_bind, EStateM.run_bind, rangeLoop_run h]

end State

/-- **What is gathered is kept, and a known map is read as one.** Lowering a line loses nothing,
    whether it ends or stops; so no run loses anything, and at every line it comes to later an
    identifier that was known to hold a map is asked and walked as a map. Only an identifier that
    starts with an underscore and reads as a number without it is counted up to. -/
theorem gathered_kept (r : Run) :
    (∀ kind line, r.state.Gathers ((Lower.line kind line).after r.state)) ∧
      (∀ number ls,
        (∀ r', r.sourceLines number ls = .ok r' → r.state.Gathers r'.state) ∧
        (∀ r', r.close = .ok r' → r.state.Gathers r'.state) ∧
        ∀ l ∈ r.logicalLines number ls, r.state.Gathers (l.state.countBraces l.code)) ∧
      ∀ x ∈ r.state.knownMaps, isIdentifier x = true → ∀ s, r.state.Gathers s →
        s.AsksMap x ∧
        (Number.isNumber x = false → s.RangesAs x fun vars => Lower.walkMap vars x) ∧
        (Number.isNumber x = true → x.head? = some '_' ∧
          s.RangesAs x fun vars => Lower.integerRange vars x) := by
  refine ⟨fun kind line => (Lower.gathers_line kind line r.state).gathers, fun number ls => ?_, ?_⟩
  · refine ⟨fun r' => Run.gathers_sourceLines, fun r' h => .of_renumber (Run.gathersAt_close h),
      fun l hl => ?_⟩
    exact (Run.gathers_logicalLines hl).trans
      (State.GathersAt.of_eq (q := True) (State.record_countBraces _ _)).gathers
  · intro x hknown hx s hs
    have hmap : s.isKnownMap x = true := hs.isKnownMap hx hknown
    have hrange := State.rangesAs_of_known hmap
    refine ⟨State.asksMap_of_known hx hmap, fun hn => ?_, fun hn => ⟨Number.head?_of_isNumber hx hn, ?_⟩⟩
    · simpa only [hn, Bool.false_eq_true, if_false] using hrange
    · simpa only [hn, if_true] using hrange

/-- A run that knows one map. -/
def agesKnown : Run := { state := { knownMaps := ["ages"] } }

theorem gathered_kept_agesKnown :
    (agesKnown.logicalLines 1 ["x := f()", "for k, v := range ages \x7b"]).length = 2 ∧
      ∀ l ∈ agesKnown.logicalLines 1 ["x := f()", "for k, v := range ages \x7b"],
        (l.state.countBraces l.code).AsksMap "ages" ∧
        (l.state.countBraces l.code).RangesAs "ages" fun vars => Lower.walkMap vars "ages" := by
  refine ⟨by decide +kernel, fun l hl => ?_⟩
  obtain ⟨_, hkept, hread⟩ := gathered_kept agesKnown
  obtain ⟨hasks, hwalks, _⟩ := hread "ages" (by decide) rfl _ ((hkept 1 _).2.2 l hl)
  exact ⟨hasks, hwalks rfl⟩

/-- A map under a name of an underscore and a digit, and a loop over its entries. -/
def underscoreMap : Text :=
  "func main() \x7b\n\t_1 := map[string]int\x7b\"a\": 1\x7d\n\tfor k, v := range _1 \x7b\n\t\tf(k, v)\n\t\x7d\n\x7d\n"

/-- The name is known to hold a map, and the loop over it counts. -/
theorem underscoreMap_counted :
    isIdentifier "_1" = true ∧
      (runSource underscoreMap).toOption.map (fun r => (r.state.knownMaps, r.output)) = some
        ((["_1"], [
          "auto main() -> int \x7b",
          "\tstd::unordered_map<std::string, int> _1\x7b\x7b\"a\", 1\x7d\x7d;",
          "\tfor (int k = 0; k < _1; k++) \x7b",
          "\t\tf(k, v);",
          "\t\x7d",
          "return 0;",
          "\x7d"]) : List Text × List Text) := by
  decide +kernel

end Linewise
