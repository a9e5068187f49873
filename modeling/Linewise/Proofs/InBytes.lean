/-
  Every function that cuts texts, with its cuts made at byte offsets.

  A caller that counts bytes reaches the places of a cut by arithmetic: one byte behind a bracket, one
  in front of an equals sign with a colon, the length less one in front of the last bracket. Each
  function has a form that does so, and that stops where an offset lies past the end or inside a
  character. No form ever stops.
-/
import Linewise.Literal.Raw
import Linewise.Lower.Branch
import Linewise.Lower.Defer
import Linewise.Lower.Struct
import Linewise.Lower.Switch
import Linewise.Proofs.LiteralSpelling
import Linewise.Proofs.Partition
import Linewise.Proofs.Symbols

namespace Linewise

open Text List Utf8 Binding

variable {s t : Text} {c k o : Char} {i j n : Nat}

/-! ## 1. What stands at a place that was found -/

theorem getElem?_of_append {a b : Text} (h : s = a ++ c :: b) : s[a.length]? = some c := by
  rw [h, getElem?_append_right (Nat.le_refl _), Nat.sub_self]
  rfl

theorem getElem?_of_topIndex? {needle : Char} (h : topIndex? needle s = some i) : s[i]? = some needle := by
  obtain ⟨a, b, hs, rfl, _⟩ := eq_append_of_topIndexFrom? h
  exact getElem?_of_append hs

theorem getElem?_of_idxOf? (h : s.idxOf? c = some i) : s[i]? = some c := by
  obtain ⟨hi, hc, _⟩ := idxOf?_eq_some_iff.mp h
  rw [getElem?_eq_getElem hi, hc]

theorem utf8Size_of_closer? (h : closer? o = some k) : o.utf8Size = 1 ∧ k.utf8Size = 1 := by
  rcases closer?_cases h with ⟨rfl, rfl⟩ | ⟨rfl, rfl⟩ | ⟨rfl, rfl⟩ <;> exact ⟨rfl, rfl⟩

theorem getElem?_of_matching? (h : matching? s = some n) :
    ∃ o k, closer? o = some k ∧ s[0]? = some o ∧ s[n]? = some k ∧ 0 < n := by
  obtain ⟨o, ho, h⟩ := Option.bind_eq_some_iff.mp h
  obtain ⟨k, hk, h⟩ := Option.bind_eq_some_iff.mp h
  obtain ⟨a, b, hs, rfl, _⟩ := eq_append_of_matchingFrom? h
  have hs := getElem?_of_append hs
  rw [head?_eq_getElem?] at ho
  refine ⟨o, k, hk, ho, hs, Nat.pos_of_ne_zero fun hn => ?_⟩
  rw [hn, ho] at hs
  exact closer?_ne hk (Option.some.inj hs)

theorem getElem?_of_signFrom? :
    ∀ {l : Lexer} {d : Int} {i : Nat} {k : Kind}, signFrom? l d s = some (i, k) →
      s[i]? = some '=' ∧ (k = .define → (i = 0 ∧ l.last = ':') ∨ (0 < i ∧ s[i - 1]? = some ':')) := by
  induction s with
  | nil => intro l d i k h; cases h
  | cons c r ih =>
    intro l d i k h
    have later (h' : (signFrom? (l.step c) (d + l.nesting c) r).map (fun p => (p.1 + 1, p.2))
        = some (i, k)) : (c :: r)[i]? = some '=' ∧
          (k = .define → (i = 0 ∧ l.last = ':') ∨ (0 < i ∧ (c :: r)[i - 1]? = some ':')) := by
      obtain ⟨⟨j, k'⟩, hj, he⟩ := Option.map_eq_some_iff.mp h'
      cases he
      obtain ⟨hsign, hcolon⟩ := ih hj
      refine ⟨hsign, fun hk => .inr ⟨Nat.succ_pos j, ?_⟩⟩
      rcases hcolon hk with ⟨rfl, hlast⟩ | ⟨hpos, hprev⟩
      · exact congrArg some hlast
      · rw [← hprev]
        obtain ⟨m, rfl⟩ : ∃ m, j = m + 1 := ⟨j - 1, by omega⟩
        rfl
    unfold signFrom? at h
    simp only at h
    split at h
    · rename_i hc
      simp only [Bool.and_eq_true, beq_iff_eq] at hc
      split at h
      · exact later h
      · split at h
        · cases h
        · obtain ⟨rfl, rfl⟩ := Prod.mk.inj (Option.some.inj h)
          refine ⟨congrArg some hc.1.2, fun hk => .inl ⟨rfl, ?_⟩⟩
          by_cases hl : (l.last == ':') = true
          · exact beq_iff_eq.mp hl
          · rw [if_neg hl] at hk
            cases hk
    · exact later h

/-! ## 2. Computed offsets -/

namespace Utf8

theorem offset_min (s : Text) (i j : Nat) : min (offset s i) (offset s j) = offset s (min i j) := by
  by_cases h : i ≤ j
  · rw [Nat.min_eq_left h, Nat.min_eq_left (offset_mono s h)]
  · have hji : j ≤ i := Nat.le_of_not_le h
    rw [Nat.min_eq_right hji, Nat.min_eq_right (offset_mono s hji)]

theorem slice?_behind (h : s[i]? = some c) (hc : c.utf8Size = 1) :
    slice? s (offset s i + 1) (size s) = some (s.drop (i + 1)) := by
  have hlt : i < s.length := (List.getElem?_eq_some_iff.mp h).1
  have hoff : offset s (i + 1) = offset s i + 1 := by rw [offset_succ h, hc]
  rw [← hoff]
  exact slice?_drop hlt

theorem slice?_inside (h : s[i]? = some c) (hc : c.utf8Size = 1) (hij : i < j) :
    slice? s (offset s i + 1) (offset s j) = some ((s.take j).drop (i + 1)) := by
  have hoff : offset s (i + 1) = offset s i + 1 := by rw [offset_succ h, hc]
  rw [← hoff]
  exact slice?_offset s hij

theorem slice?_indentation (s : Text) :
    slice? s 0 (size s - size (trimStart s)) = some (indentation s) := by
  have htake : s.take (indentation s).length = indentation s := by
    have hpre := takeWhile_prefix (l := s) isBlank
    exact (prefix_iff_eq_take.mp hpre).symm
  have hsize : size s = size (indentation s) + size (trimStart s) := by
    rw [← size_append]
    exact congrArg size takeWhile_append_dropWhile.symm
  have hoff : offset s (indentation s).length = size s - size (trimStart s) := by
    unfold offset
    rw [htake, hsize, Nat.add_sub_cancel]
  rw [← hoff, slice?_take, htake]

end Utf8

theorem length_of_startsWith_drop (hi : i ≤ s.length) (h : startsWith (s.drop i) pattern = true) :
    i + pattern.length ≤ s.length := by
  obtain ⟨r, hr⟩ := startsWith_iff.mp h
  have hlen := congrArg length hr
  rw [length_drop, length_append] at hlen
  omega

theorem Lexer.lt_length_of_commentIndex? : ∀ {l : Lexer} {i : Nat}, l.commentIndex? s = some i → i < s.length := by
  induction s with
  | nil => intro l i h; cases h
  | cons c s ih =>
    intro l i h
    unfold Lexer.commentIndex? at h
    split at h
    · cases h
      exact Nat.succ_pos _
    · obtain ⟨j, hj, rfl⟩ := Option.map_eq_some_iff.mp h
      exact Nat.succ_lt_succ (ih hj)

namespace InBytes

theorem getElem?_brackets (h : matching? (s.drop i) = some n) :
    ∃ o k, o.utf8Size = 1 ∧ k.utf8Size = 1 ∧ s[i]? = some o ∧ s[i + n]? = some k ∧ 0 < n := by
  obtain ⟨o, k, hc, ho, hk, hn⟩ := getElem?_of_matching? h
  rw [getElem?_drop] at ho hk
  exact ⟨o, k, (utf8Size_of_closer? hc).1, (utf8Size_of_closer? hc).2, ho, hk, hn⟩

theorem slice?_inner (hc : closer? o = some k) (ho : s[i]? = some o) (hl : s.getLast? = some k) :
    slice? s (offset s i + 1) (size s - 1)
      = some ((s.take (s.length - 1)).drop (i + 1)) := by
  have hlt : i < s.length := (List.getElem?_eq_some_iff.mp ho).1
  -- the closing bracket stands last, so the opening one does not
  have hnot : i ≠ s.length - 1 := by
    intro hi
    rw [getLast?_eq_getElem?, ← hi, ho] at hl
    exact closer?_ne hc (Option.some.inj hl)
  have hlast : offset s (s.length - 1) = size s - 1 := by
    rw [size_pred hl, (utf8Size_of_closer? hc).2]
  rw [← hlast]
  exact slice?_inside ho (utf8Size_of_closer? hc).1 (by omega)

theorem offset_of_define (h : signFrom? Lexer.start 0 s = some (i, .define)) :
    offset s (i - 1) = offset s i - 1 := by
  rcases (getElem?_of_signFrom? h).2 rfl with ⟨_, hlast⟩ | ⟨hpos, hcolon⟩
  · cases hlast
  · exact offset_pred hcolon hpos

/-! ## 3. Cuts at offsets -/

section Cut

variable {m : Type → Type} [Monad m] [MonadExceptOf Stop m]

/-- The text between two byte offsets. -/
def cut (s : Text) (a b : Nat) : m Text :=
  match slice? s a b with
  | some t => pure t
  | none => throw Stop.splitCharacter

/-- The text from a byte offset on. -/
def cutFrom (s : Text) (a : Nat) : m Text := cut s a (size s)

/-- Where the bracket at an offset is closed, read from that bracket on. -/
def matchingAt (s : Text) (start : Nat) : m (Option Nat) := do
  let rest ← cutFrom s start
  return (matching? rest).map fun i => start + offset rest i

theorem cut_eq {a b : Nat} (h : slice? s a b = some t) : cut (m := m) s a b = pure t := by
  rw [cut, h]

theorem cut_before (s : Text) (i : Nat) : cut (m := m) s 0 (offset s i) = pure (s.take i) :=
  cut_eq (slice?_take s i)

theorem cut_from (h : i ≤ s.length) : cutFrom (m := m) s (offset s i) = pure (s.drop i) :=
  cut_eq (slice?_drop h)

theorem cut_behind (h : s[i]? = some c) (hc : c.utf8Size = 1) :
    cutFrom (m := m) s (offset s i + 1) = pure (s.drop (i + 1)) :=
  cut_eq (slice?_behind h hc)

theorem cut_inside (h : s[i]? = some c) (hc : c.utf8Size = 1) (hij : i < j) :
    cut (m := m) s (offset s i + 1) (offset s j) = pure ((s.take j).drop (i + 1)) :=
  cut_eq (slice?_inside h hc hij)

theorem matchingAt_eq [LawfulMonad m] (h : i ≤ s.length) :
    matchingAt (m := m) s (offset s i) = pure ((matching? (s.drop i)).map fun n => offset s (i + n)) := by
  rw [matchingAt, cut_from h, pure_bind]
  refine congrArg pure (congrArg (Option.map · _) (funext fun n => ?_))
  exact (offset_add s i n).symm

end Cut

/-! ## 4. Lines -/

/-- The blanks in front: what is left of the text without its trimmed rest. -/
def indentation (s : Text) : Except Stop Text := cut s 0 (size s - size (trimStart s))

/-- A line cut in front of its comment. -/
def splitComment (line : Text) : Except Stop (Text × Option Text) := do
  match Lexer.start.commentIndex? line with
  | none => return (trimEnd line, none)
  | some i =>
    let place := offset line i
    return (trimEnd (← cut line 0 place), some (trim (← cutFrom line place)))

/-- A binding cut around its sign, the colon of a definition on neither side. -/
def split? (s : Text) : Except Stop (Option Binding) := do
  match signFrom? Lexer.start 0 s with
  | none => return none
  | some (i, kind) =>
    let sign := offset s i
    let lhs ← cut s 0 (match kind with
      | .define => sign - 1
      | .assign => sign)
    return some ⟨trim lhs, trim (← cutFrom s (sign + 1)), kind⟩

theorem indentation_eq (s : Text) : indentation s = .ok (Text.indentation s) := cut_eq (slice?_indentation s)

theorem splitComment_eq (line : Text) : splitComment line = .ok (Linewise.splitComment line) := by
  unfold splitComment Linewise.splitComment
  cases hi : Lexer.start.commentIndex? line with
  | none => rfl
  | some i =>
    have hlt := Lexer.lt_length_of_commentIndex? hi
    simp only [cut_before, cut_from (Nat.le_of_lt hlt), pure_bind]
    rfl

theorem split?_eq (s : Text) : split? s = .ok (Binding.split? s) := by
  unfold split? Binding.split?
  cases hsign : signFrom? Lexer.start 0 s with
  | none => rfl
  | some p =>
    obtain ⟨i, kind⟩ := p
    have hbehind := cut_behind (m := Except Stop) (getElem?_of_signFrom? hsign).1 rfl
    cases kind with
    | assign =>
      simp only [cut_before, hbehind, pure_bind]
      rfl
    | define =>
      simp only [← offset_of_define hsign, cut_before, hbehind, pure_bind]
      rfl

/-! ## 5. Brackets -/

section Brackets

variable {n : Nat}

theorem offset_beq_last (h : s[j]? = some c) (hc : c.utf8Size = 1) :
    (offset s j == size s - 1) = (s.drop (j + 1)).isEmpty := by
  have hlt : j < s.length := (List.getElem?_eq_some_iff.mp h).1
  have hsize : size s = offset s j + 1 + size (s.drop (j + 1)) := by
    have hsucc := offset_succ h
    rw [hc] at hsucc
    rw [← hsucc, offset, ← size_append, take_append_drop]
  cases hrest : s.drop (j + 1) with
  | nil =>
    rw [hrest, size] at hsize
    exact beq_iff_eq.mpr (by omega)
  | cons d r =>
    have := size_pos (cons_ne_nil d r)
    rw [hrest] at hsize
    exact beq_eq_false_iff_ne.mpr (by omega)

theorem cut_matching {m : Type → Type} [Monad m] [MonadExceptOf Stop m] (h : matching? (s.drop i) = some n) :
    cut (m := m) s (offset s i + 1) (offset s (i + n)) = pure (((s.drop i).take n).drop 1) ∧
      cutFrom (m := m) s (offset s (i + n) + 1) = pure (s.drop (i + n + 1)) ∧
      (offset s (i + n) == size s - 1) = (s.drop (i + n + 1)).isEmpty := by
  obtain ⟨o, k, ho, hk, hopen, hclose, hpos⟩ := getElem?_brackets h
  refine ⟨?_, cut_behind hclose hk, offset_beq_last hclose hk⟩
  rw [cut_inside hopen ho (Nat.lt_add_of_pos_right hpos), ← drop_drop, drop_take, Nat.add_sub_cancel_left]

end Brackets

/-- Inside and behind the pair of brackets that starts at an offset. -/
def enclosedAt (s : Text) (start : Nat) : Except Stop (Option (Text × Text)) := do
  let some close ← matchingAt s start | return none
  return some (← cut s (start + 1) close, ← cutFrom s (close + 1))

/-- The arguments of a call that ends with its closing bracket. -/
def callArguments? (name expr : Text) : Except Stop (Option Text) := do
  let some rest := stripStart? name expr | return none
  if !startsWith rest "(" then
    return none
  match ← matchingAt expr (size name) with
  | some close =>
    if close == size expr - 1 then
      return some (← cut expr (size name + 1) close)
    else return none
  | none => return none

/-- A composite literal cut at its braces; without a closing one, the rest is its list. -/
def composite? (s : Text) : Except Stop (Option Composite) := do
  let s := trim s
  let some first := (topIndex? '{' s).map (offset s) | return none
  let type := trim (← cut s 0 first)
  if type.isEmpty then
    return none
  match ← matchingAt s first with
  | some close =>
    if close == size s - 1 then
      return some ⟨type, trim (← cut s (first + 1) close), true⟩
    else return none
  | none => return some ⟨type, trim (← cutFrom s (first + 1)), false⟩

/-- An indexed expression cut at the bracket that the last one closes. -/
def splitIndex? (expr : Text) : Except Stop (Option (Text × Text)) := do
  let e := trim expr
  if !endsWith e "]" then
    return none
  let search := (List.range e.length).findM? fun i => do
    if 0 < i && (e.drop i).head? == some '[' then
      return (← matchingAt e (offset e i)) == some (size e - 1)
    else return false
  match ← search with
  | some i => return some (trim (← cut e 0 (offset e i)), ← cut e (offset e i + 1) (size e - 1))
  | none => return none

theorem enclosedAt_eq (h : i ≤ s.length) : enclosedAt s (offset s i) = .ok (enclosed? (s.drop i)) := by
  unfold enclosedAt enclosed?
  rw [matchingAt_eq h, pure_bind]
  cases hn : matching? (s.drop i) with
  | none => rfl
  | some n =>
    obtain ⟨hinside, hbehind, _⟩ := cut_matching (m := Except Stop) hn
    simp only [Option.map_some, hinside, hbehind, pure_bind]
    rw [drop_drop, Nat.add_assoc]
    rfl

theorem composite?_eq (s : Text) : composite? s = .ok (Composite.split? s) := by
  unfold composite? Composite.split?
  dsimp only
  generalize trim s = s
  cases hi : topIndex? '{' s with
  | none => rfl
  | some i =>
    simp only [Option.map_some, cut_before, pure_bind, Option.bind_some]
    split
    · rfl
    · rw [matchingAt_eq (Nat.le_of_lt (lt_length_of_topIndex? hi)), pure_bind]
      cases hn : matching? (s.drop i) with
      | none =>
        simp only [Option.map_none, cut_behind (getElem?_of_topIndex? hi) rfl, pure_bind]
        rfl
      | some n =>
        obtain ⟨hinside, _, hlast⟩ := cut_matching (m := Except Stop) hn
        have hlen : (s.drop (i + n + 1)).isEmpty = (i + n + 1 == s.length) := by
          have hlt := lt_length_of_matching? hn
          rw [length_drop] at hlt
          rw [Bool.eq_iff_iff, List.isEmpty_iff, drop_eq_nil_iff, beq_iff_eq]
          omega
        simp only [Option.map_some, hlast, hlen, hinside, pure_bind, drop_take, drop_drop]
        split <;> rfl

theorem callArguments?_eq (name expr : Text) :
    callArguments? name expr = .ok (Linewise.callArguments? name expr) := by
  unfold callArguments? Linewise.callArguments?
  cases hrest : stripStart? name expr with
  | none => rfl
  | some rest =>
    have hexpr := eq_append_of_stripStart? hrest
    have hdrop : expr.drop name.length = rest := by rw [hexpr, drop_left]
    have hname : offset expr name.length = size name := by rw [hexpr, offset, take_left]
    have hle : name.length ≤ expr.length := by rw [hexpr, length_append]; omega
    simp only [Option.bind_some]
    cases hparen : startsWith rest "(" with
    | false => rfl
    | true =>
      simp only [Bool.not_true, Bool.false_eq_true, if_false, if_true]
      rw [← hname, matchingAt_eq hle, pure_bind, enclosed?, hdrop]
      cases hn : matching? rest with
      | none => rfl
      | some n =>
        obtain ⟨hinside, _, hlast⟩ := cut_matching (m := Except Stop) (hdrop ▸ hn)
        have hafter : expr.drop (name.length + n + 1) = rest.drop (n + 1) := by rw [← hdrop, drop_drop, Nat.add_assoc]
        simp only [Option.map_some, Option.bind_some, hlast, hinside, hafter, hdrop, pure_bind]
        split <;> rfl

theorem findM?_eq {α : Type} {f : α → Except Stop Bool} {p : α → Bool} (xs : List α)
    (h : ∀ x ∈ xs, f x = pure (p x)) : xs.findM? f = pure (xs.find? p) := by
  induction xs with
  | nil => rfl
  | cons x xs ih =>
    rw [findM?, h x mem_cons_self, pure_bind, find?_cons]
    cases p x with
    | true => rfl
    | false => exact ih fun y hy => h y (mem_cons_of_mem x hy)

theorem splitIndex?_eq (expr : Text) : splitIndex? expr = .ok (Lower.splitIndex? expr) := by
  unfold splitIndex? Lower.splitIndex?
  dsimp only
  generalize trim expr = e
  cases hends : endsWith e "]" with
  | false => rfl
  | true =>
    have hlast : e.getLast? = some ']' := by
      obtain ⟨r, hr⟩ := endsWith_iff.mp hends
      rw [hr]
      exact getLast?_concat
    simp only [Bool.not_true, Bool.false_eq_true, if_false, if_true]
    rw [findM?_eq (p := fun i => 0 < i && (e.drop i).head? == some '['
      && matching? (e.drop i) == some (e.length - 1 - i)), pure_bind]
    · cases hfind : (range e.length).find? _ with
      | none => rfl
      | some i =>
        have hat := find?_some hfind
        simp only [Bool.and_eq_true, beq_iff_eq, head?_drop] at hat
        have hinner := cut_eq (m := Except Stop) (slice?_inner rfl hat.1.2 hlast)
        simp only [cut_before, hinner, pure_bind, drop_take, Option.map_some]
        rw [Nat.sub_sub, Nat.sub_sub, Nat.add_comm 1, Nat.add_comm 2]
        rfl
    · intro i hi
      cases hcand : (0 < i && (e.drop i).head? == some '[' : Bool) with
      | false => rfl
      | true =>
        simp only [if_true, Bool.true_and]
        rw [matchingAt_eq (Nat.le_of_lt (mem_range.mp hi)), pure_bind]
        cases hn : matching? (e.drop i) with
        | none => rfl
        | some n =>
          have hbound := lt_length_of_matching? hn
          rw [length_drop] at hbound
          refine congrArg pure ((cut_matching (m := Except Stop) hn).2.2.trans ?_)
          rw [Bool.eq_iff_iff, List.isEmpty_iff, drop_eq_nil_iff, beq_iff_eq, Option.some.injEq]
          omega

/-! ## 6. Types and signatures -/

/-- The key and value types, cut three bytes behind the start and at the closing bracket. -/
def splitMapType? (s : Text) : Except Stop (Option (Text × Text)) := do
  let t := trim s
  if !startsWith t "map[" then
    return none
  let some (key, rest) ← enclosedAt t 3 | return none
  let value := trim rest
  return if value.isEmpty then none else some (key, value)

/-- The parameters of a function type and what follows them. -/
def splitFuncType? (s : Text) : Except Stop (Option (Text × Text)) :=
  match stripStart? "func" s with
  | some params => if startsWith params "(" then enclosedAt params 0 else return none
  | none => return none

/-- The size of an array type and what follows it. -/
def splitArrayType? (s : Text) : Except Stop (Option (Text × Text)) := do
  if startsWith s "[" then
    return (← enclosedAt s 0).map fun (size, rest) => (trim size, rest)
  else return none

/-- The types of a result list, in brackets or alone. -/
def resultTypes (s : Text) : Except Stop (List Text) := do
  let s := trim (stripEnd "\x7b" (trim s))
  if s.isEmpty then
    return []
  match ← (if startsWith s "(" then enclosedAt s 0 else return none) with
  | some (inside, _) => return (Parameter.list inside).map (·.type)
  | none => return [s]

/-- The parameters, and the results up to the body. -/
def paramsAndResults (s : Text) : Except Stop (List Parameter × List Text) := do
  match ← enclosedAt s 0 with
  | some (params, rest) =>
    let results ← match (topIndex? '{' rest).map (offset rest) with
      | some body => cut rest 0 body
      | none => pure rest
    return (Parameter.list params, ← resultTypes results)
  | none => return ([], [])

/-- A signature cut at its first bracket. -/
def signature (line : Text) : Except Stop Signature := do
  let rest := trimStart (stripStart "func" line)
  match (rest.idxOf? '(').map (offset rest) with
  | some first =>
    let name ← cut rest 0 first
    let (params, results) ← paramsAndResults (← cutFrom rest first)
    return ⟨trim name, params, results⟩
  | none => return ⟨trim (dropEndWhile (· == '{') rest), [], []⟩

theorem enclosedAt_zero (s : Text) : enclosedAt s 0 = pure (enclosed? s) := enclosedAt_eq (Nat.zero_le s.length)

theorem splitMapType?_eq (s : Text) : splitMapType? s = .ok (Linewise.splitMapType? s) := by
  unfold splitMapType? Linewise.splitMapType?
  dsimp only
  generalize trim s = t
  cases hmap : startsWith t "map[" with
  | false =>
    cases hr : stripStart? "map" t with
    | none => rfl
    | some r =>
      rw [eq_append_of_stripStart? hr] at hmap
      have hno : startsWith r "[" = false := hmap
      simp only [Option.bind_some, hno]
      rfl
  | true =>
    obtain ⟨r, rfl⟩ := startsWith_iff.mp hmap
    have hat : enclosedAt ("map[" ++ r) 3 = pure (enclosed? ("[" ++ r)) :=
      enclosedAt_eq (i := 3) (by simp)
    simp only [Bool.not_true, Bool.false_eq_true, if_false, hat, pure_bind]
    show _ = Except.ok ((enclosed? ("[" ++ r)).bind _)
    cases enclosed? ("[" ++ r) with
    | none => rfl
    | some p =>
      have hblank : (trim p.2).isEmpty = isAllBlank p.2 := by
        rw [Bool.eq_iff_iff, List.isEmpty_iff, trim_eq_nil_iff, isAllBlank_iff]
      simp only [Option.bind_some, hblank]
      rfl

theorem splitFuncType?_eq (s : Text) : splitFuncType? s = .ok (Linewise.splitFuncType? s) := by
  unfold splitFuncType? Linewise.splitFuncType?
  cases stripStart? "func" s with
  | none => rfl
  | some params =>
    simp only [enclosedAt_zero, Option.bind_some]
    split <;> rfl

theorem splitArrayType?_eq (s : Text) : splitArrayType? s = .ok (Linewise.splitArrayType? s) := by
  unfold splitArrayType? Linewise.splitArrayType?
  rw [enclosedAt_zero, pure_bind]
  split <;> rfl

theorem resultTypes_eq (s : Text) : resultTypes s = .ok (Linewise.resultTypes s) := by
  unfold resultTypes Linewise.resultTypes
  dsimp only
  generalize trim (stripEnd "\x7b" (trim s)) = t
  rw [enclosedAt_zero]
  split
  · rfl
  · split
    · rw [pure_bind]
      cases enclosed? t <;> rfl
    · rfl

theorem paramsAndResults_eq (s : Text) : paramsAndResults s = .ok (Signature.paramsAndResults s) := by
  unfold paramsAndResults Signature.paramsAndResults
  rw [enclosedAt_zero, pure_bind]
  cases enclosed? s with
  | none => rfl
  | some p =>
    dsimp only
    cases topIndex? '{' p.2 with
    | none =>
      simp only [Option.map_none, pure_bind, resultTypes_eq]
      rfl
    | some body =>
      simp only [Option.map_some, cut_before, pure_bind, resultTypes_eq]
      rfl

theorem signature_eq (line : Text) : signature line = .ok (Signature.parse line) := by
  unfold signature Signature.parse
  dsimp only
  generalize trimStart (stripStart "func" line) = rest
  cases hi : rest.idxOf? '(' with
  | none => rfl
  | some i =>
    have hlt := (List.getElem?_eq_some_iff.mp (getElem?_of_idxOf? hi)).1
    simp only [Option.map_some, cut_before, cut_from (Nat.le_of_lt hlt), pure_bind, paramsAndResults_eq]
    rfl

/-! ## 7. Values -/

/-- An element cut at its colon, or inside its braces. -/
def elementShape (e : Text) : Except Stop ElementShape := do
  if let some colon := (topIndex? ':' e).map (offset e) then
    let key := trim (← cut e 0 colon)
    if isIdentifier key then
      return .keyed key (← cutFrom e (colon + 1))
  if isBraced e then
    return .braces (← cut e 1 (size e - 1))
  if let some inner := stripStart? "&" e then
    return .address inner
  return .plain

/-- The entries of a map literal, each cut at its colon. -/
def mapEntries (list valueType : Text) : Except Stop (List Text) :=
  ((splitTop ',' list).filter (!·.isEmpty)).mapM fun entry => do
    let some colon := (topIndex? ':' entry).map (offset entry) | throw (.fault (.missingSeparator entry))
    let key ← cut entry 0 colon
    let value ← cutFrom entry (colon + 1)
    (mapPair valueType key (trim value)).mapError .fault

/-- A line cut around the backquote that closes a raw literal. -/
def closeRaw? (line : Text) : Except Stop (Option Raw.Converted) := do
  let some close := (line.idxOf? '\x60').map (offset line) | return none
  let rest := Raw.convert (← cutFrom line (close + 1))
  return some ⟨(← cut line 0 close) ++ ")\"" ++ rest.line, rest.opened⟩

theorem isBraced_cases {e : Text} (h : isBraced e = true) : e[0]? = some '{' ∧ e.getLast? = some '}' := by
  obtain ⟨hstart, hend⟩ := Bool.and_eq_true_iff.mp h
  obtain ⟨a, ha⟩ := startsWith_iff.mp hstart
  obtain ⟨b, hb⟩ := endsWith_iff.mp hend
  refine ⟨by rw [ha]; rfl, ?_⟩
  rw [hb]
  exact getLast?_concat

theorem elementShape_eq (e : Text) : elementShape e = .ok (ElementShape.of e) := by
  have hrest : (do
      if isBraced e then
        return .braces (← cut e 1 (size e - 1))
      if let some inner := stripStart? "&" e then
        return .address inner
      return .plain : Except Stop ElementShape)
      = .ok (if isBraced e then .braces ((e.drop 1).take (e.length - 2))
        else if let some inner := stripStart? "&" e then .address inner else .plain) := by
    cases hb : isBraced e with
    | true =>
      obtain ⟨hopen, hlast⟩ := isBraced_cases hb
      have hinner := cut_eq (m := Except Stop) (slice?_inner rfl hopen hlast)
      rw [offset_zero, Nat.zero_add, drop_take] at hinner
      simp only [if_true, hinner, pure_bind]
      rfl
    | false => cases stripStart? "&" e <;> rfl
  unfold elementShape ElementShape.of splitKey?
  cases hi : topIndex? ':' e with
  | none => exact hrest
  | some i =>
    simp only [Option.map_some, Option.bind_some, cut_before, cut_behind (getElem?_of_topIndex? hi) rfl, pure_bind]
    cases hid : isIdentifier (trim (e.take i)) with
    | true => rfl
    | false => exact hrest

theorem mapM_mapError {α β : Type} (f : α → Except Fault β) (xs : List α) :
    xs.mapM (fun x => (f x).mapError Stop.fault) = (xs.mapM f).mapError Stop.fault := by
  induction xs with
  | nil => rfl
  | cons x xs ih =>
    rw [mapM_cons, mapM_cons, ih]
    cases f x with
    | error e => rfl
    | ok y => cases xs.mapM f <;> rfl

theorem mapEntries_eq (list valueType : Text) :
    mapEntries list valueType = (Linewise.mapEntries list valueType).mapError Stop.fault := by
  rw [Linewise.mapEntries_eq, ← mapM_mapError]
  refine congrArg (mapM · _) (funext fun entry => ?_)
  unfold mapEntry
  cases hi : topIndex? ':' entry with
  | none => rfl
  | some i => simp only [Option.map_some, cut_before, cut_behind (getElem?_of_topIndex? hi) rfl, pure_bind]

theorem closeRaw?_eq (line : Text) : closeRaw? line = .ok (Raw.close? line) := by
  unfold closeRaw? Raw.close?
  cases hi : line.idxOf? '\x60' with
  | none => rfl
  | some i =>
    simp only [Option.map_some, cut_before, cut_behind (getElem?_of_idxOf? hi) rfl, pure_bind]
    rfl

/-! ## 8. Statements -/

/-- A head cut at the semicolon behind its first clause. -/
def condition (head : Text) : Lower Text := do
  let head := Lower.headText head
  match (topIndex? ';' head).map (offset head) with
  | some semicolon =>
    let init ← Lower.initClause (← cut head 0 semicolon)
    return init ++ "; " ++ trim (← cutFrom head (semicolon + 1))
  | none => return head

/-- The head of a switch, cut likewise. -/
def splitSwitchHead (line : Text) : Except Stop (Option Text × Text) := do
  let head := trim (stripEnd "\x7b" (trim (stripStart "switch" line)))
  match (topIndex? ';' head).map (offset head) with
  | some semicolon => return (some (trim (← cut head 0 semicolon)), trim (← cutFrom head (semicolon + 1)))
  | none => return (none, head)

/-- The body of a function literal that is called without arguments. -/
def calledBody? (literal : Text) : Except Stop (Option Text) := do
  if startsWith literal "\x7b" then
    let some (inside, after) ← enclosedAt literal 0 | return none
    return if trim after == ("()" : Text) then some inside else none
  else return none

/-- The statements between the first and the last brace. -/
def inlineBody (rhs : Text) : Except Stop (List Text) := do
  let body ← match (rhs.idxOf? '{').map (offset rhs), (lastIndexOf? '}' rhs).map (offset rhs) with
    | some first, some last => if first < last then trim <$> cut rhs (first + 1) last else pure []
    | _, _ => pure []
  return (((pieces (· == ';') body).map trim).filter (!·.isEmpty)).map terminate

/-- The first double quote, or the letter of a raw literal right before it. -/
def quotePlace (field : Text) : Except Stop Nat := do
  match (field.idxOf? '"').map (offset field) with
  | some quote => return if endsWith (← cut field 0 quote) "R" then quote - 1 else quote
  | none => return size field

/-- A field cut in front of its tag, at the first quote of either sort. -/
def stripTag (field : Text) : Except Stop Text := do
  let quote ← quotePlace field
  let stop := match (field.idxOf? '\x60').map (offset field) with
    | some back => min back quote
    | none => quote
  return trim (← cut field 0 stop)

/-- A print call cut at its brackets, the second of which ends the line. -/
def print (line : Text) : Lower Lowered := do
  let some first := (line.idxOf? '(').map (offset line) |
    Lower.unsupportedPrint "print call without arguments" line
  if (← matchingAt line first) != some (size line - 1) then
    Lower.unsupportedPrint "print call with trailing text" line
  else
    let name ← cut line 0 first
    let inside ← cut line (first + 1) (size line - 1)
    Lower.printCall (trim name) (splitTop ',' inside) line

theorem condition_eq (head : Text) : condition head = Lower.condition head := by
  unfold condition Lower.condition
  dsimp only
  generalize Lower.headText head = h
  cases hi : topIndex? ';' h with
  | none => rfl
  | some i => simp only [Option.map_some, cut_before, cut_behind (getElem?_of_topIndex? hi) rfl, pure_bind]

theorem splitSwitchHead_eq (line : Text) : splitSwitchHead line = .ok (Lower.splitSwitchHead line) := by
  unfold splitSwitchHead Lower.splitSwitchHead
  dsimp only
  generalize trim (stripEnd "\x7b" (trim (stripStart "switch" line))) = h
  cases hi : topIndex? ';' h with
  | none => rfl
  | some i =>
    simp only [Option.map_some, cut_before, cut_behind (getElem?_of_topIndex? hi) rfl, pure_bind]
    rfl

theorem calledBody?_eq (literal : Text) : calledBody? literal = .ok (Lower.calledBody? literal) := by
  unfold calledBody? Lower.calledBody?
  rw [enclosedAt_zero, pure_bind]
  split
  · cases enclosed? literal <;> rfl
  · rfl

theorem offset_lt_iff (hi : i < s.length) : offset s i < offset s j ↔ i < j := by
  constructor
  · intro h
    refine Nat.lt_of_not_le fun hle => ?_
    exact absurd (offset_mono s hle) (Nat.not_le_of_lt h)
  · intro h
    have hsucc := offset_succ (getElem?_eq_getElem hi)
    have hpos := (s[i]).utf8Size_pos
    have := offset_mono s (show i + 1 ≤ j from h)
    omega

theorem inlineBody_eq (rhs : Text) : inlineBody rhs = .ok (Lower.inlineBody rhs) := by
  unfold inlineBody Lower.inlineBody
  cases hi : rhs.idxOf? '{' with
  | none => rfl
  | some i =>
    have hat := getElem?_of_idxOf? hi
    have hlt := (List.getElem?_eq_some_iff.mp hat).1
    cases lastIndexOf? '}' rhs with
    | none => rfl
    | some j =>
      simp only [Option.map_some, offset_lt_iff hlt]
      by_cases hij : i < j
      · simp only [if_pos hij, cut_inside hat rfl hij, map_pure, pure_bind]
        rfl
      · simp only [if_neg hij, pure_bind]
        rfl

theorem quotePlace_eq (field : Text) : quotePlace field = pure (offset field (match field.idxOf? '"' with
    | some i => if endsWith (field.take i) "R" then i - 1 else i
    | none => field.length)) := by
  unfold quotePlace
  cases hq : field.idxOf? '"' with
  | none => exact congrArg pure (offset_length field).symm
  | some i =>
    simp only [Option.map_some, cut_before, pure_bind]
    by_cases hR : endsWith (field.take i) "R" = true
    · -- the letter in front of the quote stands one place earlier, and is one byte
      have hlt := (List.getElem?_eq_some_iff.mp (getElem?_of_idxOf? hq)).1
      obtain ⟨r, hr⟩ := endsWith_iff.mp hR
      have hlen : i = r.length + 1 := by
        have := congrArg length hr
        rwa [length_take, Nat.min_eq_left (Nat.le_of_lt hlt), length_append] at this
      have hget : field[i - 1]? = some 'R' := by
        rw [← take_append_drop i field, hr, hlen, Nat.add_sub_cancel, append_assoc]
        exact getElem?_of_append rfl
      simp only [hR, if_true, offset_pred hget (hlen ▸ Nat.succ_pos _)]
      rfl
    · simp only [hR, Bool.false_eq_true, if_false]

theorem stripTag_eq (field : Text) : stripTag field = .ok (Linewise.stripTag field) := by
  unfold stripTag Linewise.stripTag
  rw [quotePlace_eq, pure_bind]
  cases field.idxOf? '\x60' with
  | none =>
    simp only [Option.map_none, cut_before, pure_bind]
    rfl
  | some i =>
    simp only [Option.map_some, offset_min, cut_before, pure_bind]
    rfl

theorem print_eq (line : Text) : print line = Lower.print line := by
  unfold print Lower.print
  cases hi : line.idxOf? '(' with
  | none => rfl
  | some i =>
    have hat := getElem?_of_idxOf? hi
    simp only [Option.map_some, enclosed?]
    rw [matchingAt_eq (Nat.le_of_lt (List.getElem?_eq_some_iff.mp hat).1), pure_bind]
    cases hn : matching? (line.drop i) with
    | none => rfl
    | some n =>
      obtain ⟨hinside, _, hlast⟩ := cut_matching (m := Lower) hn
      have hend : (some (offset line (i + n)) != some (size line - 1)) = !(line.drop (i + n + 1)).isEmpty :=
        congrArg not hlast
      simp only [Option.map_some, hend, drop_drop]
      cases hafter : line.drop (i + n + 1) with
      | cons d r => rfl
      | nil =>
        have hsize : offset line (i + n) = size line - 1 := by
          rw [hafter] at hlast
          exact beq_iff_eq.mp hlast
        rw [hsize] at hinside
        simp only [cut_before, hinside, pure_bind]
        rfl

/-! ## 9. Words -/

/-- The scan of `replaceWord`, from one occurrence to the next, with fuel for one in each character. -/
def replaceLoop (symbol replacement : Text) : Nat → Option Char → Text → Except Stop Text
  | 0, _, rest => return rest
  | fuel + 1, before, rest => do
    let some found := (indexOf? symbol rest).map (offset rest) | return rest
    let front ← cut rest 0 found
    let after ← cutFrom rest (found + size symbol)
    let alone := standsAlone symbol (front.getLast?.or before) after.head?
    let behind ← replaceLoop symbol replacement fuel symbol.getLast? after
    return front ++ ((if alone then replacement else symbol) ++ behind)

/-- Every occurrence of a symbol that stands alone, replaced. -/
def replaceWord (s symbol replacement : Text) : Except Stop Text :=
  replaceLoop symbol replacement s.length none s

/-- The scan of `containsWord` from an offset on. -/
def containsLoop (s symbol : Text) : Nat → Nat → Except Stop Bool
  | 0, _ => return false
  | fuel + 1, start => do
    let rest ← cutFrom s start
    let some found := (indexOf? symbol rest).map (offset rest) | return false
    let before ← cut s 0 (start + found)
    let after ← cutFrom s (start + found + size symbol)
    if standsAlone symbol before.getLast? after.head? then
      return true
    else containsLoop s symbol fuel (start + found + size symbol)

/-- Whether a symbol occurs alone. -/
def containsWord (s symbol : Text) : Except Stop Bool := containsLoop s symbol (s.length + 1) 0

section Words

variable {symbol : Text} (hne : symbol ≠ [])

theorem containsFrom_skip (symbol : Text) (n : Nat) (before : Option Char) (s : Text) :
    containsFrom symbol n before s = containsFrom symbol 0 ((s.take n).getLast?.or before) (s.drop n) := by
  induction n generalizing before s with
  | zero => rfl
  | succ n ih =>
    cases s with
    | nil => rfl
    | cons c r => rw [containsFrom, ih, take_succ_cons, drop_succ_cons, getLast?_cons_or]

include hne

theorem containsFrom_symbol (before : Option Char) (r : Text) : containsFrom symbol 0 before (symbol ++ r)
    = (standsAlone symbol before r.head? || containsFrom symbol 0 symbol.getLast? r) := by
  cases hs : symbol with
  | nil => exact absurd hs hne
  | cons c p =>
    have hpre : startsWith (c :: (p ++ r)) (c :: p) = true := startsWith_append (c :: p) r
    rw [cons_append, containsFrom, if_pos hpre, ← cons_append, drop_left, length_cons, Nat.add_sub_cancel,
      containsFrom_skip _ p.length, take_left, drop_left, getLast?_cons]
    cases p.getLast? <;> rfl

theorem scan_cases (replacement : Text) (before : Option Char) (r : Text) :
    match indexOf? symbol r with
    | none => replaceFrom symbol replacement 0 before r = r ∧ containsFrom symbol 0 before r = false
    | some i =>
      let alone := standsAlone symbol ((r.take i).getLast?.or before) (r.drop (i + symbol.length)).head?
      replaceFrom symbol replacement 0 before r
          = r.take i ++ ((if alone then replacement else symbol)
            ++ replaceFrom symbol replacement 0 symbol.getLast? (r.drop (i + symbol.length))) ∧
        containsFrom symbol 0 before r
          = (alone || containsFrom symbol 0 symbol.getLast? (r.drop (i + symbol.length))) := by
  induction r generalizing before with
  | nil =>
    rw [indexOf?, if_neg (by simpa using hne)]
    exact ⟨rfl, by simpa [containsFrom] using hne⟩
  | cons c r ih =>
    rw [indexOf?]
    by_cases hs : startsWith (c :: r) symbol = true
    · obtain ⟨t, ht⟩ := startsWith_iff.mp hs
      rw [if_pos hs, ht]
      simp only [take_zero, getLast?_nil, Option.none_or, Nat.zero_add, drop_left, nil_append]
      exact ⟨replaceFrom_symbol hne replacement before t, containsFrom_symbol hne before t⟩
    · have hnext := ih (some c)
      rw [if_neg hs, replaceFrom, if_neg hs, containsFrom, if_neg hs]
      cases hi : indexOf? symbol r with
      | none =>
        rw [hi] at hnext
        exact ⟨congrArg (c :: ·) hnext.1, hnext.2⟩
      | some i =>
        rw [hi] at hnext
        simp only [Option.map_some, Nat.add_right_comm i 1, take_succ_cons, drop_succ_cons, getLast?_cons_or]
        exact ⟨congrArg (c :: ·) hnext.1, hnext.2⟩

theorem replaceLoop_eq (replacement : Text) {fuel : Nat} {r : Text} (before : Option Char) (hfuel : r.length ≤ fuel) :
    replaceLoop symbol replacement fuel before r = pure (replaceFrom symbol replacement 0 before r) := by
  induction fuel generalizing before r with
  | zero =>
    rw [length_eq_zero_iff.mp (Nat.le_zero.mp hfuel)]
    rfl
  | succ fuel ih =>
    have hcases := scan_cases hne replacement before r
    unfold replaceLoop
    cases hi : indexOf? symbol r with
    | none =>
      rw [hi] at hcases
      exact congrArg pure hcases.1.symm
    | some i =>
      rw [hi] at hcases
      obtain ⟨hat, hle⟩ := startsWith_of_indexOf? hi
      have hbound := length_of_startsWith_drop hle hat
      have hpos := length_pos_iff.mpr hne
      simp only [Option.map_some, cut_before, ← offset_add_size hat, cut_from hbound, pure_bind]
      rw [ih _ (by rw [length_drop]; omega), pure_bind, hcases.1]

theorem containsLoop_eq {fuel k : Nat} (hk : k ≤ s.length) (hfuel : s.length < fuel + k) :
    containsLoop s symbol fuel (offset s k)
      = pure (containsFrom symbol 0 (s.take k).getLast? (s.drop k)) := by
  induction fuel generalizing k with
  | zero => omega
  | succ fuel ih =>
    have hcases := scan_cases hne [] (s.take k).getLast? (s.drop k)
    unfold containsLoop
    rw [cut_from hk, pure_bind]
    cases hi : indexOf? symbol (s.drop k) with
    | none =>
      rw [hi] at hcases
      exact congrArg pure hcases.2.symm
    | some i =>
      rw [hi] at hcases
      obtain ⟨hat, hle⟩ := startsWith_of_indexOf? hi
      rw [drop_drop] at hat
      rw [length_drop] at hle
      have hbound := length_of_startsWith_drop (by omega) hat
      have hpos := length_pos_iff.mpr hne
      have hbefore : (s.take (k + i)).getLast? = ((s.drop k).take i).getLast?.or (s.take k).getLast? := by
        rw [take_add, getLast?_append]
      have hlast : (s.take (k + i + symbol.length)).getLast? = symbol.getLast? := by
        obtain ⟨t, ht⟩ := startsWith_iff.mp hat
        rw [take_add, ht, take_left, getLast?_append_of_ne_nil _ hne]
      simp only [Option.map_some, ← offset_add, cut_before, ← offset_add_size hat, cut_from hbound, pure_bind]
      rw [ih hbound (by omega), hlast, hcases.2, drop_drop, hbefore, Nat.add_assoc]
      generalize standsAlone symbol _ _ = alone
      cases alone <;> rfl

end Words

theorem replaceWord_eq {symbol : Text} (hne : symbol ≠ []) (s replacement : Text) :
    replaceWord s symbol replacement = .ok (Text.replaceWord s symbol replacement) :=
  replaceLoop_eq hne replacement none (Nat.le_refl _)

theorem containsWord_eq {symbol : Text} (hne : symbol ≠ []) (s : Text) :
    containsWord s symbol = .ok (Text.containsWord s symbol) :=
  containsLoop_eq hne (Nat.zero_le _) (Nat.lt_succ_self _)

/-! ## 10. All of them -/

/-- **Every cut at an offset is between two characters**: no form stops, and each gives what the
    function gives. -/
structure Agree : Prop where
  indentation : ∀ s, InBytes.indentation s = .ok (Text.indentation s)
  splitComment : ∀ line, InBytes.splitComment line = .ok (Linewise.splitComment line)
  split? : ∀ s, InBytes.split? s = .ok (Binding.split? s)
  segments : ∀ s, Segment.cursor? s 0 0 = some (Linewise.segments s)
  replaceWord : ∀ s symbol replacement, symbol ≠ [] →
    InBytes.replaceWord s symbol replacement = .ok (Text.replaceWord s symbol replacement)
  containsWord : ∀ s symbol, symbol ≠ [] →
    InBytes.containsWord s symbol = .ok (Text.containsWord s symbol)
  matchingAt : ∀ s i, i ≤ s.length →
    InBytes.matchingAt (m := Except Stop) s (offset s i)
      = .ok ((matching? (s.drop i)).map fun n => offset s (i + n))
  callArguments? : ∀ name expr, InBytes.callArguments? name expr = .ok (Linewise.callArguments? name expr)
  composite? : ∀ s, InBytes.composite? s = .ok (Composite.split? s)
  splitIndex? : ∀ expr, InBytes.splitIndex? expr = .ok (Lower.splitIndex? expr)
  splitMapType? : ∀ s, InBytes.splitMapType? s = .ok (Linewise.splitMapType? s)
  splitFuncType? : ∀ s, InBytes.splitFuncType? s = .ok (Linewise.splitFuncType? s)
  splitArrayType? : ∀ s, InBytes.splitArrayType? s = .ok (Linewise.splitArrayType? s)
  resultTypes : ∀ s, InBytes.resultTypes s = .ok (Linewise.resultTypes s)
  paramsAndResults : ∀ s, InBytes.paramsAndResults s = .ok (Signature.paramsAndResults s)
  signature : ∀ line, InBytes.signature line = .ok (Signature.parse line)
  elementShape : ∀ e, InBytes.elementShape e = .ok (ElementShape.of e)
  /-- An entry without a colon is a fault in both. -/
  mapEntries : ∀ list valueType,
    InBytes.mapEntries list valueType = (Linewise.mapEntries list valueType).mapError .fault
  closeRaw? : ∀ line, InBytes.closeRaw? line = .ok (Raw.close? line)
  condition : ∀ head, InBytes.condition head = Lower.condition head
  splitSwitchHead : ∀ line, InBytes.splitSwitchHead line = .ok (Lower.splitSwitchHead line)
  calledBody? : ∀ literal, InBytes.calledBody? literal = .ok (Lower.calledBody? literal)
  inlineBody : ∀ rhs, InBytes.inlineBody rhs = .ok (Lower.inlineBody rhs)
  stripTag : ∀ field, InBytes.stripTag field = .ok (Linewise.stripTag field)
  print : ∀ line, InBytes.print line = Lower.print line

theorem agree : Agree where
  indentation := indentation_eq
  splitComment := splitComment_eq
  split? := split?_eq
  segments _ := Segment.cursor?_eq [] [] trivial
  replaceWord s _ replacement hne := replaceWord_eq hne s replacement
  containsWord s _ hne := containsWord_eq hne s
  matchingAt _ _ h := matchingAt_eq h
  callArguments? := callArguments?_eq
  composite? := composite?_eq
  splitIndex? := splitIndex?_eq
  splitMapType? := splitMapType?_eq
  splitFuncType? := splitFuncType?_eq
  splitArrayType? := splitArrayType?_eq
  resultTypes := resultTypes_eq
  paramsAndResults := paramsAndResults_eq
  signature := signature_eq
  elementShape := elementShape_eq
  mapEntries := mapEntries_eq
  closeRaw? := closeRaw?_eq
  condition := condition_eq
  splitSwitchHead := splitSwitchHead_eq
  calledBody? := calledBody?_eq
  inlineBody := inlineBody_eq
  stripTag := stripTag_eq
  print := print_eq

end InBytes
end Linewise
