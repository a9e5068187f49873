/-
  Two runs side by side that differ in their output alone.

  Of its output a run reads only how many lines there are and, where a class is opened again, the
  white space in front of one of them.
-/
import Linewise.Run

namespace Linewise

open Text List

variable {r r' : Run} {α β : Type} {indent indent' : Text} {spans : Bool}

/-! ## 1. Twins -/

/-- Runs that are equal but for their outputs. -/
structure Run.Twin (Q : List Text → List Text → Prop) (r r' : Run) : Prop where
  state : r'.state = r.state
  pending : r'.pending = r.pending
  firstFunction : r'.firstFunction = r.firstFunction
  output : Q r.output r'.output

theorem Run.Twin.withState {Q : List Text → List Text → Prop} (h : r.Twin Q r') (s : State) :
    ({ r with state := s } : Run).Twin Q { r' with state := s } :=
  ⟨rfl, h.pending, h.firstFunction, h.output⟩

theorem Run.Twin.withPending {Q : List Text → List Text → Prop} (h : r.Twin Q r') (pending : Option PendingRaw) :
    ({ r with pending := pending } : Run).Twin Q { r' with pending := pending } :=
  ⟨h.state, rfl, h.firstFunction, h.output⟩

/-- Two runs stop at the same line for the same reason, or both go on, as `R` says. -/
def Together {α : Type} (R : α → α → Prop) : Except Halt α → Except Halt α → Prop
  | .error halt, .error halt' => halt' = halt
  | .ok r, .ok r' => R r r'
  | _, _ => False

theorem Together.bind {R : α → α → Prop} {S : β → β → Prop} {x x' : Except Halt α} {f f' : α → Except Halt β}
    (h : Together R x x') (hf : ∀ a a', R a a' → Together S (f a) (f' a')) :
    Together S (x.bind f) (x'.bind f') := by
  match x, x', h with
  | .error _, .error _, h => exact h
  | .ok a, .ok a', h => exact hf a a' h

theorem Together.map {R : α → α → Prop} {S : β → β → Prop} {x x' : Except Halt α} {f : α → β}
    (h : Together R x x') (hf : ∀ a a', R a a' → S (f a) (f a')) : Together S (x.map f) (x'.map f) := by
  match x, x', h with
  | .error _, .error _, h => exact h
  | .ok a, .ok a', h => exact hf a a' h

theorem Together.imp {R S : α → α → Prop} {x x' : Except Halt α} (h : Together R x x')
    (himp : ∀ a a', x = .ok a → x' = .ok a' → R a a' → S a a') : Together S x x' := by
  match x, x', h with
  | .error _, .error _, h => exact h
  | .ok a, .ok a', h => exact himp a a' rfl rfl h

/-- A relation of outputs that a run keeps: they are as long as each other, may get the same lines,
    and a class may be opened again in both. -/
structure Stable (Q : List Text → List Text → Prop) : Prop where
  length : ∀ {o o'}, Q o o' → o.length = o'.length
  insert : ∀ {o o'}, Q o o' → ∀ (i : Nat) (ls : List Text), Q (o.take i ++ ls ++ o.drop i) (o'.take i ++ ls ++ o'.drop i)
  reopen : ∀ {o o'}, Q o o' → ∀ draft, Q (reopenClass draft o) (reopenClass draft o')

theorem Stable.append {Q : List Text → List Text → Prop} (hQ : Stable Q) {o o' : List Text} (h : Q o o')
    (ls : List Text) : Q (o ++ ls) (o' ++ ls) := by
  have := hQ.insert h o.length ls
  rw [take_length, drop_length, append_nil] at this
  rw [hQ.length h, take_length, drop_length, append_nil] at this
  exact this

/-! ## 2. Logical lines -/

section

variable {Q Q' : List Text → List Text → Prop} {r r' : Run}

theorem Run.codeLine_twin (h : r.Twin Q r') (hlen : r.output.length = r'.output.length)
    {code : Text} {comment comment' : Option Text}
    (hout : ∀ draft rendered, Q' (reopenClass draft r.output ++ layout indent spans rendered comment)
      (reopenClass draft r'.output ++ layout indent' spans rendered comment')) :
    Together (Run.Twin Q') (r.codeLine indent code comment spans) (r'.codeLine indent' code comment' spans) := by
  unfold Run.codeLine
  rw [h.state, h.firstFunction, ← hlen]
  dsimp only
  cases (Lower.line ((r.state.countBraces code).classify code) code).run (r.state.countBraces code) with
  | error stop s => exact rfl
  | ok lowered s => exact ⟨rfl, h.pending, rfl, hout _ _⟩

theorem Run.logicalLine_twin (h : r.Twin Q r') (hlen : r.output.length = r'.output.length)
    {text : Text}
    (hcomment : ∀ comment : Option Text, Q' (r.output ++ [(comment.map (indent ++ ·)).getD []])
      (r'.output ++ [(comment.map (indent' ++ ·)).getD []]))
    (hout : ∀ draft rendered comment, Q' (reopenClass draft r.output ++ layout indent spans rendered comment)
      (reopenClass draft r'.output ++ layout indent' spans rendered comment)) :
    Together (Run.Twin Q') (r.logicalLine indent text spans) (r'.logicalLine indent' text spans) := by
  unfold Run.logicalLine
  dsimp only
  split
  · exact ⟨h.state, h.pending, h.firstFunction, hcomment _⟩
  · exact Run.codeLine_twin h hlen fun draft rendered => hout draft rendered _

end

/-! ## 3. The same source lines -/

theorem Run.sourceLine_of_some {raw : PendingRaw} (h : r.pending = some raw) (number : Nat) (line : Text) :
    r.sourceLine number line = r.rawLine raw line := by
  unfold Run.sourceLine
  rw [h]

theorem Run.sourceLine_of_none (h : r.pending = none) (number : Nat) (line : Text) :
    r.sourceLine number line =
      if r.state.block? == some .blockComment then
        .ok (({ r with state := { r.state with lineNumber := number } } : Run).commentLine line)
      else ({ r with state := { r.state with lineNumber := number } } : Run).plainLine number line := by
  unfold Run.sourceLine
  rw [h]
  rfl

section

variable {Q : List Text → List Text → Prop} (hQ : Stable Q)

include hQ

namespace Run

theorem logicalLine_same (h : r.Twin Q r') (indent text : Text) (spans : Bool) :
    Together (Run.Twin Q) (r.logicalLine indent text spans) (r'.logicalLine indent text spans) :=
  Run.logicalLine_twin h (hQ.length h.output) (fun _ => hQ.append h.output _)
    fun _ _ _ => hQ.append (hQ.reopen h.output _) _

theorem finishRaw_twin (h : r.Twin Q r') (raw : PendingRaw) :
    Together (Run.Twin Q) (r.finishRaw raw) (r'.finishRaw raw) := by
  unfold finishRaw
  rw [h.state]
  exact logicalLine_same hQ ((h.withPending none).withState _) _ _ _

theorem rawLine_twin (h : r.Twin Q r') (raw : PendingRaw) (line : Text) :
    Together (Run.Twin Q) (r.rawLine raw line) (r'.rawLine raw line) := by
  unfold rawLine
  cases Raw.close? line with
  | none => exact h.withPending _
  | some closed =>
    dsimp only
    split
    · exact h.withPending _
    · exact finishRaw_twin hQ h _

theorem emit_twin (h : r.Twin Q r') (ls : List Text) : (r.emit ls).Twin Q (r'.emit ls) :=
  ⟨h.state, h.pending, h.firstFunction, hQ.append h.output ls⟩

theorem plainLine_twin (h : r.Twin Q r') (number : Nat) (line : Text) :
    Together (Run.Twin Q) (r.plainLine number line) (r'.plainLine number line) := by
  unfold plainLine
  dsimp only
  rw [h.state]
  split
  · exact emit_twin hQ (h.withState _) _
  · split
    · exact emit_twin hQ h _
    · split
      · exact (h.withState _).withPending _
      · exact logicalLine_same hQ h _ _ _

theorem commentLine_twin (h : r.Twin Q r') (line : Text) : (r.commentLine line).Twin Q (r'.commentLine line) := by
  unfold commentLine
  rw [h.state]
  exact emit_twin hQ (h.withState _) [line]

theorem sourceLine_twin (h : r.Twin Q r') (number : Nat) (line : Text) :
    Together (Run.Twin Q) (r.sourceLine number line) (r'.sourceLine number line) := by
  cases hp : r.pending with
  | some raw =>
    rw [sourceLine_of_some hp, sourceLine_of_some (h.pending.trans hp)]
    exact rawLine_twin hQ h raw line
  | none =>
    have h' := h.withState { r.state with lineNumber := number }
    rw [sourceLine_of_none hp, sourceLine_of_none (h.pending.trans hp), h.state]
    split
    · exact commentLine_twin hQ h' line
    · exact plainLine_twin hQ h' number line

theorem sourceLines_twin (h : r.Twin Q r') (number : Nat) (ls : List Text) :
    Together (Run.Twin Q) (r.sourceLines number ls) (r'.sourceLines number ls) := by
  induction ls generalizing r r' number with
  | nil => exact h
  | cons line ls ih => exact (sourceLine_twin hQ h number line).bind fun _ _ h => ih h (number + 1)

/-! ## 4. The end of the source -/

theorem close_twin (h : r.Twin Q r') : Together (Run.Twin Q) r.close r'.close := by
  have hblocks : ∀ a a' : Run, a.Twin Q a' → Together (Run.Twin Q)
      (.ok { a with state := a.state.noticeOpenBlocks }) (.ok { a' with state := a'.state.noticeOpenBlocks }) := by
    intro a a' ha
    rw [ha.state]
    exact ha.withState _
  unfold close
  rw [h.pending, h.state]
  cases r.pending with
  | none => exact hblocks r r' h
  | some raw => exact (finishRaw_twin hQ (h.withState _) raw).bind hblocks

theorem placed_twin (h : r.Twin Q r') : Q r.placed r'.placed := by
  unfold placed
  dsimp only
  rw [h.state, h.firstFunction, ← hQ.length h.output]
  split
  · exact h.output
  · have := hQ.insert h.output (r.firstFunction.getD r.output.length) (r.state.prototypes ++ [[]])
    rw [← append_assoc, ← append_assoc] at this
    exact this

end Run

end

end Linewise
