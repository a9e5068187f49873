/-
  How C++ groups the operators of a condition.

  Only the operators that bind no tighter than a comparison for equality matter here: all others stay
  inside the operands.

      a == b & c || d     (((a == b) & c) || d)
-/
import Linewise.Proofs.Parts

namespace Linewise

open Text List Lexer

variable {s : Text} {op : Operator} {c : Char} {g : Grouping} {a b : Row} {l : Lexer}

/-! ## 1. Operators -/

/-- The binary operators of both languages that bind no tighter than `==`. -/
inductive Operator where
  | or
  | and
  | bitOr
  | bitXor
  | bitAnd
  | equal
  | notEqual
  deriving DecidableEq, Repr

namespace Operator

/-- The sign of an operator. -/
def text : Operator → Text
  | or => "||"
  | and => "&&"
  | bitOr => "|"
  | bitXor => "^"
  | bitAnd => "&"
  | equal => "=="
  | notEqual => "!="

/-- How tightly C++ lets the operator bind. All of them associate to the left. -/
def level : Operator → Nat
  | or => 0
  | and => 1
  | bitOr => 2
  | bitXor => 3
  | bitAnd => 4
  | equal => 5
  | notEqual => 5

/-- All operators, those of two characters before their heads. -/
def all : List Operator := [or, and, equal, notEqual, bitOr, bitXor, bitAnd]

/-- The operator that a text starts with. -/
def at? (s : Text) : Option Operator := all.find? fun op => startsWith s op.text

/-- The characters that operators are made of, those that bind tighter included. -/
def isSign (c : Char) : Bool := ("+-*/%&|^<>=!" : Text).contains c

theorem level_lt (op : Operator) : op.level < 6 := by
  cases op <;> decide

theorem length_text (op : Operator) : op.text.length ≤ 2 := by
  cases op <;> decide

theorem isSign_of_mem (h : c ∈ op.text) : isSign c = true := by
  have hall : ∀ c ∈ op.text, isSign c = true := by cases op <;> decide
  exact hall c h

theorem exists_text_cons (op : Operator) : ∃ c t, op.text = c :: t := by
  cases op <;> exact ⟨_, _, rfl⟩

theorem eq_append_of_at? (h : at? s = some op) : ∃ r, s = op.text ++ r :=
  startsWith_iff.mp (by simpa using find?_some h)

theorem at?_of_not_isSign (h : isSign c = false) (r : Text) : at? (c :: r) = none := by
  cases hat : at? (c :: r) with
  | none => rfl
  | some op =>
    obtain ⟨k, t, hk⟩ := op.exists_text_cons
    obtain ⟨r', hr'⟩ := eq_append_of_at? hat
    rw [hk] at hr'
    obtain ⟨rfl, -⟩ := cons.inj hr'
    have hc : c ∈ op.text := hk ▸ mem_cons_self
    exact absurd (isSign_of_mem hc) (by rw [h]; decide)

theorem at?_append (h : 2 ≤ s.length) (b : Text) : at? (s ++ b) = at? s := by
  unfold at?
  congr 1
  funext op
  have hlen : op.text.length ≤ s.length := Nat.le_trans op.length_text h
  rw [Bool.eq_iff_iff, startsWith_iff, startsWith_iff]
  constructor
  · rintro ⟨r, hr⟩
    have hp : op.text <+: s := prefix_of_prefix_length_le ⟨r, hr.symm⟩ (prefix_append s b) hlen
    exact hp.imp fun _ => Eq.symm
  · rintro ⟨r, rfl⟩
    exact ⟨r ++ b, append_assoc ..⟩

end Operator

/-! ## 2. Rows -/

/-- Operands with operators between them. -/
@[ext] structure Row where
  first : Text
  rest : List (Operator × Text)
  deriving DecidableEq, Repr

namespace Row

/-- Two rows with an operator between them. -/
def join (op : Operator) (a b : Row) : Row := ⟨a.first, a.rest ++ (op, b.first) :: b.rest⟩

theorem join_assoc (op op' : Operator) (a b c : Row) :
    join op' (join op a b) c = join op a (join op' b c) := by
  simp [join]

end Row

/-! ## 3. Groupings -/

/-- Operands under binary operators. -/
inductive Grouping where
  | operand (text : Text)
  | binary (op : Operator) (left right : Grouping)
  deriving DecidableEq, Repr

namespace Grouping

/-- The operands and operators of a tree from left to right. -/
def row : Grouping → Row
  | operand text => ⟨text, []⟩
  | binary op left right => left.row.join op right.row

/-- How tightly the outermost operator binds; an operand binds tighter than all. -/
def level : Grouping → Nat
  | operand _ => 6
  | binary op _ _ => op.level

/-- The precedences allow the tree: what is on the left binds no looser, and on the right tighter. -/
def Allowed : Grouping → Prop
  | operand _ => True
  | binary op left right =>
    op.level ≤ left.level ∧ op.level < right.level ∧ left.Allowed ∧ right.Allowed

/-- One more operator and operand: they take over the largest part on the right that binds at least
    as tightly. -/
def extend (op : Operator) (text : Text) : Grouping → Grouping
  | operand t => binary op (operand t) (operand text)
  | binary op' left right =>
    if op'.level < op.level then binary op' left (right.extend op text)
    else binary op (binary op' left right) (operand text)

/-- The tree over a row. -/
def ofRow (r : Row) : Grouping := r.rest.foldl (fun g p => g.extend p.1 p.2) (operand r.first)

theorem row_extend (g : Grouping) (op : Operator) (text : Text) :
    (g.extend op text).row = g.row.join op ⟨text, []⟩ := by
  induction g with
  | operand t => rfl
  | binary op' left right _ ih =>
    unfold extend
    split
    · rw [row, row, ih, Row.join_assoc]
    · rfl

theorem level_extend (g : Grouping) (op : Operator) (text : Text) :
    (g.extend op text).level = min g.level op.level := by
  cases g with
  | operand t => exact (Nat.min_eq_right (Nat.le_of_lt op.level_lt)).symm
  | binary op' left right =>
    unfold extend
    split
    · rename_i h
      exact (Nat.min_eq_left (Nat.le_of_lt h)).symm
    · rename_i h
      exact (Nat.min_eq_right (Nat.not_lt.mp h)).symm

theorem Allowed.extend (h : g.Allowed) (op : Operator) (text : Text) : (g.extend op text).Allowed := by
  induction g with
  | operand t => exact ⟨Nat.le_of_lt op.level_lt, op.level_lt, trivial, trivial⟩
  | binary op' left right _ ih =>
    obtain ⟨hl, hr, hleft, hright⟩ := h
    unfold Grouping.extend
    split
    · rename_i hlt
      refine ⟨hl, ?_, hleft, ih hright⟩
      rw [level_extend]
      exact Nat.lt_min.mpr ⟨hr, hlt⟩
    · rename_i hlt
      exact ⟨Nat.not_lt.mp hlt, op.level_lt, ⟨hl, hr, hleft, hright⟩, trivial⟩

theorem row_foldl (rest : List (Operator × Text)) (g : Grouping) :
    (rest.foldl (fun g p => g.extend p.1 p.2) g).row = ⟨g.row.first, g.row.rest ++ rest⟩ := by
  induction rest generalizing g with
  | nil => simp
  | cons p rest ih => simp [ih, row_extend, Row.join]

theorem row_ofRow (r : Row) : (ofRow r).row = r := row_foldl r.rest (operand r.first)

theorem allowed_ofRow (r : Row) : (ofRow r).Allowed := by
  unfold ofRow
  have hstart : (operand r.first).Allowed := trivial
  generalize operand r.first = g at hstart
  induction r.rest generalizing g with
  | nil => exact hstart
  | cons p rest ih => exact ih _ (hstart.extend p.1 p.2)

theorem Allowed.level_le (h : g.Allowed) : ∀ p ∈ g.row.rest, g.level ≤ p.1.level := by
  induction g with
  | operand t => exact fun p hp => absurd hp not_mem_nil
  | binary op left right ihl ihr =>
    obtain ⟨hl, hr, hleft, hright⟩ := h
    intro p hp
    rcases mem_append.mp hp with hp | hp
    · exact Nat.le_trans hl (ihl hleft p hp)
    · rcases mem_cons.mp hp with rfl | hp
      · exact Nat.le_refl _
      · exact Nat.le_trans (Nat.le_of_lt hr) (ihr hright p hp)

theorem extend_of_le (h : op.level ≤ g.level) (text : Text) : g.extend op text = binary op g (operand text) := by
  cases g with
  | operand t => rfl
  | binary op' left right =>
    have hle : ¬ op'.level < op.level := Nat.not_lt.mpr h
    rw [extend, if_neg hle]

theorem foldl_extend_binary (left : Grouping) {rest : List (Operator × Text)}
    (h : ∀ p ∈ rest, op.level < p.1.level) (right : Grouping) :
    rest.foldl (fun g p => g.extend p.1 p.2) (binary op left right)
      = binary op left (rest.foldl (fun g p => g.extend p.1 p.2) right) := by
  induction rest generalizing right with
  | nil => rfl
  | cons p rest ih =>
    have hp : (binary op left right).extend p.1 p.2 = binary op left (right.extend p.1 p.2) := by
      rw [extend, if_pos (h p mem_cons_self)]
    rw [foldl_cons, hp, ih (forall_mem_cons.mp h).2]
    rfl

/-- There is only one allowed tree over a row. -/
theorem Allowed.ofRow_row (h : g.Allowed) : ofRow g.row = g := by
  induction g with
  | operand t => rfl
  | binary op left right ihl ihr =>
    obtain ⟨hl, hr, hleft, hright⟩ := h
    have hops : ∀ p ∈ right.row.rest, op.level < p.1.level := fun p hp =>
      Nat.lt_of_lt_of_le hr (hright.level_le p hp)
    calc ofRow (left.row.join op right.row)
        = right.row.rest.foldl (fun g p => g.extend p.1 p.2)
            ((ofRow left.row).extend op right.row.first) := by
          simp [ofRow, Row.join, foldl_append]
      _ = right.row.rest.foldl (fun g p => g.extend p.1 p.2)
            (binary op left (operand right.row.first)) := by
          rw [ihl hleft, extend_of_le hl]
      _ = binary op left (ofRow right.row) := foldl_extend_binary left hops _
      _ = binary op left right := by rw [ihr hright]

theorem rest_ofRow {r : Row} (h : 5 < (ofRow r).level) : r.rest = [] := by
  cases hg : ofRow r with
  | operand t =>
    have hrow := row_ofRow r
    rw [hg] at hrow
    rw [← hrow]
    rfl
  | binary op left right =>
    rw [hg] at h
    exact absurd op.level_lt (Nat.not_lt.mpr h)

end Grouping

/-! ## 4. Reading a text -/

/-- An operand may end behind this character: signs do not end one, and white space changes
    nothing. -/
def Lexer.endsOperand (l : Lexer) (ready : Bool) (c : Char) : Bool :=
  if l.isCode c then if isBlank c then ready else !Operator.isSign c else true

/-- One more character of the first operand. -/
def Row.push (r : Row) (c : Char) : Row := ⟨c :: r.first, r.rest⟩

/-- An operator before the row. -/
def Row.cut (r : Row) (op : Operator) : Row := ⟨[], (op, r.first) :: r.rest⟩

/-- The row of a text from a machine and a depth on. An operator is binary only behind an operand
    (`ready`); `skip` says that its second character is next. -/
def rowFrom (l : Lexer) (depth : Int) (ready skip : Bool) : Text → Row
  | [] => ⟨[], []⟩
  | c :: r =>
    if skip then rowFrom (l.step c) (depth + l.nesting c) false false r
    else
      match if ready && l.isCode c && depth == 0 then Operator.at? (c :: r) else none with
      | some op => (rowFrom (l.step c) (depth + l.nesting c) false (op.text.length == 2) r).cut op
      | none => (rowFrom (l.step c) (depth + l.nesting c) (l.endsOperand ready c) false r).push c

/-- The row without the white space around its operands. -/
def Row.trimmed (r : Row) : Row := ⟨trim r.first, r.rest.map fun p => (p.1, trim p.2)⟩

/-- The operands and operators of a text at top level. -/
def Row.ofText (s : Text) : Row := (rowFrom start 0 false false s).trimmed

/-- How C++ groups the operators of a text. -/
def Grouping.read (s : Text) : Grouping := ofRow (.ofText s)

theorem Grouping.read_eq_iff : read s = g ↔ g.Allowed ∧ g.row = .ofText s := by
  constructor
  · rintro rfl
    exact ⟨allowed_ofRow _, row_ofRow _⟩
  · rintro ⟨hg, hrow⟩
    rw [read, ← hrow, hg.ofRow_row]

example : Grouping.read "a == b & c || d"
    = .binary .or (.binary .bitAnd (.binary .equal (.operand "a") (.operand "b")) (.operand "c"))
        (.operand "d") := by decide +kernel

/-! ## 5. Texts put together -/

/-- A text that ends with an operand. -/
@[mk_iff] structure OperandEnd (s : Text) : Prop where
  wellNested : WellNested s
  last : s.getLast?.any (fun c => !isBlank c && !Operator.isSign c) = true

instance (s : Text) : Decidable (OperandEnd s) := decidable_of_iff _ (operandEnd_iff ..).symm

namespace OperandEnd

variable {s : Text}

theorem exists_last (h : OperandEnd s) :
    ∃ c, s.getLast? = some c ∧ isBlank c = false ∧ Operator.isSign c = false := by
  obtain ⟨c, hc, hlast⟩ := (Option.any_eq_true ..).mp h.last
  simp only [Bool.and_eq_true, Bool.not_eq_true'] at hlast
  exact ⟨c, hc, hlast.1, hlast.2⟩

end OperandEnd

theorem rowFrom_last {d : Int} {ready : Bool} (hb : isBlank c = false) (hs : Operator.isSign c = false) (r : Text) :
    rowFrom l d ready false (c :: r) = (rowFrom (l.step c) (d + l.nesting c) true false r).push c := by
  have hready : l.endsOperand ready c = true := by
    unfold endsOperand
    rw [hb, hs]
    split <;> rfl
  rw [rowFrom, if_neg Bool.false_ne_true, Operator.at?_of_not_isSign hs, ite_self, hready]

theorem rowFrom_space (hl : l.mode = .code) (d : Int) (ready : Bool) (r : Text) :
    rowFrom l d ready false (' ' :: r) = (rowFrom ⟨.code, ' '⟩ d ready false r).push ' ' := by
  have hcode : l.isCode ' ' = true := isCode_of_mode hl rfl
  have hn : l.nesting ' ' = 0 := by simp [Lexer.nesting, hcode, nesting]
  have hready : l.endsOperand ready ' ' = ready := by
    unfold endsOperand
    rw [hcode, if_pos rfl, if_pos (by decide)]
  have hsign : Operator.at? (' ' :: r) = none := Operator.at?_of_not_isSign rfl r
  rw [rowFrom, if_neg Bool.false_ne_true, hsign, ite_self, hready, hn, Int.add_zero,
    step_eq_of_isCode hcode]

theorem rowFrom_operator (hl : l.mode = .code) (op : Operator) (r : Text) :
    rowFrom l 0 true false (op.text ++ ' ' :: r)
      = ((rowFrom ⟨.code, ' '⟩ 0 false false r).push ' ').cut op := by
  have hat : Operator.at? (op.text ++ ' ' :: r) = some op := by cases op <;> rfl
  have hsigns : ∀ c ∈ op.text, isQuote c = false ∧ isBracket c = false := by cases op <;> decide
  have hstep {l : Lexer} (hl : l.mode = .code) {c : Char} (hc : c ∈ op.text) :
      l.isCode c = true ∧ l.nesting c = 0 ∧ (l.step c).mode = .code := by
    have h := isCode_of_mode hl (hsigns c hc).1
    exact ⟨h, by rw [Lexer.nesting, if_pos h, nesting_of_not_isBracket (hsigns c hc).2],
      step_mode_of_isCode h⟩
  -- the first character starts the operator, the second one (if there is one) is skipped
  have hfirst {c : Char} {t : Text} (hop : op.text = c :: t) :
      rowFrom l 0 true false (op.text ++ ' ' :: r)
        = (rowFrom (l.step c) 0 false (op.text.length == 2) (t ++ ' ' :: r)).cut op := by
    obtain ⟨hcode, hn, -⟩ := hstep hl (hop ▸ mem_cons_self)
    have htext : op.text ++ ' ' :: r = c :: (t ++ ' ' :: r) := by rw [hop]; rfl
    rw [htext] at hat ⊢
    rw [rowFrom, if_neg Bool.false_ne_true, hcode, if_pos (by rfl), hat, hn, Int.add_zero]
  have hshape : (∃ c, op.text = [c]) ∨ ∃ c k, op.text = [c, k] := by
    cases op <;> first | exact .inl ⟨_, rfl⟩ | exact .inr ⟨_, _, rfl⟩
  rcases hshape with ⟨c, hop⟩ | ⟨c, k, hop⟩
  · obtain ⟨-, -, hm⟩ := hstep hl (c := c) (by rw [hop]; simp)
    rw [hfirst hop, hop]
    exact congrArg (Row.cut · op) (rowFrom_space hm 0 false r)
  · obtain ⟨-, -, hm⟩ := hstep hl (c := c) (by rw [hop]; simp)
    obtain ⟨-, hn, hm'⟩ := hstep hm (c := k) (by rw [hop]; simp)
    have hskip : rowFrom (l.step c) 0 false true ([k] ++ ' ' :: r)
        = rowFrom ((l.step c).step k) (0 + (l.step c).nesting k) false false (' ' :: r) := rfl
    rw [hfirst hop, hop, show ([c, k].length == 2) = true from rfl, hskip, hn, Int.add_zero,
      rowFrom_space hm' 0 false r]

theorem rowFrom_anew (hl : l.Anew s) (d : Int) (ready skip : Bool) :
    rowFrom l d ready skip s = rowFrom start d ready skip s := by
  cases s with
  | nil => rfl
  | cons c r => simp only [rowFrom, hl.isCode_eq, hl.step_eq, hl.nesting_eq, endsOperand]

theorem isSign_of_skip {r : Text} (h : Operator.at? (c :: r) = some op) (hop : (op.text.length == 2) = true) :
    r.head?.any Operator.isSign = true := by
  obtain ⟨r', hr'⟩ := Operator.eq_append_of_at? h
  cases hk : op.text with
  | nil => rw [hk] at hop; cases hop
  | cons a t =>
    cases t with
    | nil => rw [hk] at hop; cases hop
    | cons k t =>
      have hmem : k ∈ op.text := by rw [hk]; simp
      have hsign : Operator.isSign k = true := Operator.isSign_of_mem hmem
      rw [hk] at hr'
      obtain ⟨rfl, rfl⟩ := cons.inj hr'
      exact hsign

/-- A row with more characters and operators before it. -/
def Row.behind (pieces : List (Char ⊕ Operator)) (r : Row) : Row :=
  pieces.foldr (fun p r => p.elim r.push r.cut) r

theorem rowFrom_behind {a : Text} {z : Char} (hz : isBlank z = false) (hsz : Operator.isSign z = false) :
    ∀ {l : Lexer} {d : Int} {ready skip : Bool},
      (skip = true → (a ++ [z]).head?.any Operator.isSign = true) →
      ∃ pieces, ∀ t, rowFrom l d ready skip (a ++ z :: t)
        = (rowFrom (l.run (a ++ [z])) (d + l.level (a ++ [z])) true false t).behind pieces := by
  induction a with
  | nil =>
    intro l d ready skip hskip
    cases skip with
    | true => exact absurd (hskip rfl) (by simp [hsz])
    | false =>
      refine ⟨[.inl z], fun t => ?_⟩
      rw [nil_append, rowFrom_last hz hsz]
      simp [Lexer.level, Row.behind]
  | cons c a ih =>
    intro l d ready skip hskip
    -- two characters are there, so what follows does not change which operator it is
    have hat (t : Text) : Operator.at? (c :: (a ++ z :: t)) = Operator.at? (c :: (a ++ [z])) := by
      have h := Operator.at?_append (s := c :: (a ++ [z])) (by simp) t
      rwa [cons_append, append_assoc] at h
    have hlevel : d + l.level (c :: (a ++ [z])) = d + l.nesting c + (l.step c).level (a ++ [z]) :=
      (Int.add_assoc ..).symm
    simp only [cons_append, rowFrom, hat, run_cons, hlevel]
    cases skip with
    | true => exact ih (fun h => absurd h (by decide))
    | false =>
      simp only [Bool.false_eq_true, if_false]
      cases hop : (if (ready && l.isCode c && d == 0) = true then Operator.at? (c :: (a ++ [z])) else none) with
      | some op =>
        have hstart : Operator.at? (c :: (a ++ [z])) = some op := by
          split at hop
          · exact hop
          · cases hop
        obtain ⟨pieces, h⟩ := @ih (l.step c) (d + l.nesting c) false (op.text.length == 2)
          (isSign_of_skip hstart)
        exact ⟨.inr op :: pieces, fun t => congrArg (Row.cut · op) (h t)⟩
      | none =>
        obtain ⟨pieces, h⟩ := @ih (l.step c) (d + l.nesting c) (l.endsOperand ready c) false
          (fun h => absurd h (by decide))
        exact ⟨.inl c :: pieces, fun t => congrArg (Row.push · c) (h t)⟩

namespace Row

theorem join_behind (op : Operator) (pieces : List (Char ⊕ Operator)) (a b : Row) :
    join op (a.behind pieces) b = (join op a b).behind pieces := by
  induction pieces with
  | nil => rfl
  | cons p pieces ih =>
    cases p with
    | inl c => exact congrArg (push · c) ih
    | inr o => exact congrArg (cut · o) ih

/-- Rows that differ in white space behind an operand. -/
structure Alike (a b : Row) : Prop where
  first : ∃ v, Blank v ∧ a.first = b.first ++ v
  rest : a.rest.map (fun p => (p.1, trim p.2)) = b.rest.map fun p => (p.1, trim p.2)

theorem Alike.trim_first (h : Alike a b) : trim a.first = trim b.first := by
  obtain ⟨v, hv, hfirst⟩ := h.first
  rw [hfirst, trim_append_blank hv]

theorem Alike.trimmed_eq (h : Alike a b) : a.trimmed = b.trimmed :=
  Row.ext h.trim_first h.rest

theorem Alike.push (h : Alike a b) (c : Char) : Alike (a.push c) (b.push c) := by
  obtain ⟨v, hv, hfirst⟩ := h.first
  exact ⟨⟨v, hv, congrArg (c :: ·) hfirst⟩, h.rest⟩

theorem Alike.cut (h : Alike a b) (op : Operator) : Alike (a.cut op) (b.cut op) := by
  refine ⟨⟨[], blank_nil, rfl⟩, ?_⟩
  simp only [Row.cut, map_cons, h.trim_first, h.rest]

theorem Alike.behind (h : Alike a b) (pieces : List (Char ⊕ Operator)) :
    Alike (a.behind pieces) (b.behind pieces) := by
  induction pieces with
  | nil => exact h
  | cons p pieces ih =>
    cases p with
    | inl c => exact ih.push c
    | inr op => exact ih.cut op

theorem trimmed_join (op : Operator) (a b : Row) :
    (join op a b).trimmed = join op a.trimmed b.trimmed := by
  simp [join, trimmed]

theorem ofText_binary (op : Operator) {a : Text} (ha : OperandEnd a) (b : Text) :
    ofText (a ++ (" " ++ (op.text ++ (" " ++ b)))) = join op (ofText a) (ofText b) := by
  obtain ⟨z, hlast, hz, hsz⟩ := ha.exists_last
  obtain ⟨s, rfl⟩ := getLast?_eq_some_iff.mp hlast
  obtain ⟨pieces, hpieces⟩ := @rowFrom_behind s z hz hsz start 0 false false
    (fun h => absurd h (by decide))
  have hmode : (start.run (s ++ [z])).mode = .code := ha.wellNested.literals
  rw [ha.wellNested.level_eq, Int.add_zero] at hpieces
  let right := (rowFrom start 0 false false b).push ' '
  have hwhole : rowFrom start 0 false false (s ++ z :: ' ' :: (op.text ++ ' ' :: b))
      = join op (behind pieces ⟨" ", []⟩) right := by
    rw [hpieces, rowFrom_space hmode, rowFrom_operator rfl, rowFrom_anew ⟨rfl, .inl (by decide)⟩, join_behind]
    rfl
  have hleft : (behind pieces ⟨" ", []⟩).trimmed = ofText (s ++ [z]) := by
    have hspace : Alike ⟨" ", []⟩ ⟨[], []⟩ := ⟨⟨" ", by decide, rfl⟩, rfl⟩
    rw [(hspace.behind pieces).trimmed_eq, ofText, hpieces]
    rfl
  have hright : right.trimmed = ofText b := by
    have hspace : Blank " " := by decide
    exact Row.ext (trim_blank_append hspace _) rfl
  calc ofText (s ++ [z] ++ (" " ++ (op.text ++ (" " ++ b))))
      = (rowFrom start 0 false false (s ++ z :: ' ' :: (op.text ++ ' ' :: b))).trimmed := by
        rw [ofText, append_assoc]
        rfl
    _ = join op (behind pieces ⟨" ", []⟩).trimmed right.trimmed := by rw [hwhole, trimmed_join]
    _ = join op (ofText (s ++ [z])) (ofText b) := by rw [hleft, hright]

theorem rowFrom_of_not_isSign (h : ∀ c ∈ s, Operator.isSign c = false) (l : Lexer) (d : Int) (ready : Bool) :
    rowFrom l d ready false s = ⟨s, []⟩ := by
  induction s generalizing l d ready with
  | nil => rfl
  | cons c s ih =>
    rw [rowFrom, if_neg Bool.false_ne_true, Operator.at?_of_not_isSign (h c mem_cons_self), ite_self,
      ih (forall_mem_cons.mp h).2]
    rfl

theorem not_isSign_of_isWordChar (h : isWordChar c = true) : Operator.isSign c = false := by
  have hsigns : ∀ d ∈ ("+-*/%&|^<>=!" : Text), isWordChar d = false := by decide
  refine Bool.eq_false_iff.mpr fun hc => ?_
  rw [hsigns c (contains_iff_mem.mp hc)] at h
  cases h

theorem ofText_of_isIdentifier (h : isIdentifier s = true) : ofText s = ⟨s, []⟩ := by
  have hsigns : ∀ c ∈ s, Operator.isSign c = false := fun c hc =>
    not_isSign_of_isWordChar (isWordChar_of_mem h c hc)
  rw [ofText, rowFrom_of_not_isSign hsigns, trimmed, trim_eq_self_of_solid (solid_of_isIdentifier h)]
  rfl

end Row

theorem operandEnd_of_isIdentifier (h : isIdentifier s = true) : OperandEnd s := by
  refine ⟨(bare_of_isIdentifier h).wellNested, ?_⟩
  cases hlast : s.getLast? with
  | none =>
    rw [getLast?_eq_none_iff.mp hlast] at h
    cases h
  | some c =>
    have hc := isWordChar_of_mem h c (mem_of_getLast? hlast)
    simp [not_isBlank_of_isWordChar hc, Row.not_isSign_of_isWordChar hc]

end Linewise
