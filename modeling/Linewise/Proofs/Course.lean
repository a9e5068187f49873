/-
  The course of a run: what is filed with every source line, and under which number.

  What waits for a later line adds nothing. A logical line is filed under the number of its first
  line, also where it stops the run.
-/
import Linewise.Proofs.Blocks
import Linewise.Proofs.Safety

namespace Linewise

open Text List State

variable {number : Nat} {l : LogicalLine} {spans : Bool} {code line : Text} {q : Prop} {comment : Option Text}
  {ls : List Text}

/-! ## 1. What does not count -/

namespace State

@[simp] theorem record_countBraces (s : State) (code : Text) : (s.countBraces code).record = s.record :=
  rfl

@[simp] theorem record_noteOpener (s : State) (index : Nat) : (s.noteOpener index).record = s.record :=
  rfl

theorem record_finishLine (s : State) (kind : StatementKind) (code : Text) (lowered : Lowered) :
    (s.finishLine kind code lowered).2.record = s.record := by
  obtain ⟨switches, function, h⟩ := s.finishLine_eq kind code lowered
  rw [h]
  rfl

/-- The same memory under another number. -/
def renumber (s : State) (number : Nat) : State := { s with lineNumber := number }

theorem Gathers.renumber (s : State) (number : Nat) : Gathers s (s.renumber number) :=
  ⟨prefix_rfl, prefix_rfl, prefix_rfl, fun _ => Nat.le_refl _, id, id⟩

theorem Gathers.of_renumber {s s' : State} (h : GathersAt q (s.renumber number) s') : Gathers s s' :=
  (Gathers.renumber s number).trans h.gathers

end State

/-! ## 2. Logical lines -/

namespace Run

variable {r r' : Run} {halt : Halt} {indent : Text}

theorem gathersAt_codeLine (h : r.codeLine indent code comment spans = .ok r') :
    GathersAt ((r.state.countBraces code).classify code ≠ .functionSignature) r.state r'.state := by
  obtain ⟨lowered, s', hrun, rfl⟩ := codeLine_eq_ok h
  have hline := Lower.gathers_line ((r.state.countBraces code).classify code) code
    (r.state.countBraces code)
  rw [Lower.after_of_ok hrun] at hline
  -- the braces are counted before, the brace is closed and the opener is noted behind
  refine GathersAt.trans (.of_eq (record_countBraces _ code)) (hline.trans (.of_eq ?_))
  rw [record_noteOpener, record_finishLine]

theorem codeLine_halt (h : r.codeLine indent code comment spans = .error halt) :
    halt.line = r.state.lineNumber := by
  unfold codeLine at h
  dsimp only at h
  split at h
  · rename_i stop s' hrun
    cases h
    have hline := Lower.gathers_line ((r.state.countBraces code).classify code) code
      (r.state.countBraces code)
    rw [Lower.after_of_error hrun] at hline
    exact hline.lineNumber
  · cases h

theorem gathersAt_logicalLine (hs : r.state = l.state) (h : r.logicalLine indent l.text spans = .ok r') :
    GathersAt (l.kind ≠ .functionSignature) r.state r'.state := by
  obtain ⟨_, rfl⟩ | ⟨_, h⟩ := logicalLine_eq_ok h
  · exact .refl _
  · have hcode := gathersAt_codeLine h
    rw [hs] at hcode ⊢
    exact hcode

theorem logicalLine_halt {text : Text} (h : r.logicalLine indent text spans = .error halt) :
    halt.line = r.state.lineNumber := codeLine_halt (logicalLine_eq_error h)

/-! ## 3. Source lines -/

/-- The number of the first line of what the line at hand belongs to. -/
def start (r : Run) (number : Nat) : Nat := (r.pending.map (·.lineNumber)).getD number

/-- The indentation of the logical line that a line belongs to. -/
def margin (r : Run) (line : Text) : Text := (r.pending.map (·.indent)).getD (indentation line)

/-- The run where it has arrived at a logical line. -/
def arrive (r : Run) (l : LogicalLine) : Run := { r with state := l.state, pending := none }

theorem sourceLine_completes (h : r.completed? number line = some l) :
    l.state.record = (r.state.renumber (r.start number)).record ∧
      r.sourceLine number line = (r.arrive l).logicalLine (r.margin line) l.text r.pending.isSome := by
  have hreads := r.reads number line
  rw [h] at hreads
  generalize r.sourceLine number line = result at hreads ⊢
  unfold start arrive margin
  cases hreads with
  | code hp =>
    rw [hp]
    refine ⟨rfl, ?_⟩
    unfold Run.at
    rw [hp]
    rfl
  | closesRaw text hp =>
    rw [hp]
    exact ⟨rfl, rfl⟩

/-- What a source line does that completes nothing. -/
structure Waits (number : Nat) (r r' : Run) : Prop where
  record : r'.state.record = (r.state.renumber r'.state.lineNumber).record
  lineNumber : r'.state.lineNumber = if r.pending.isSome then r.state.lineNumber else number
  pending : ∀ raw ∈ r'.pending, raw.lineNumber = r.start number
  output : ∃ ls, r'.output = r.output ++ ls
  firstFunction : r'.firstFunction = r.firstFunction

theorem sourceLine_waits (h : r.completed? number line = none) :
    ∃ r', r.sourceLine number line = .ok r' ∧ r.Waits number r' := by
  have hreads := r.reads number line
  rw [h] at hreads
  generalize r.sourceLine number line = result at hreads ⊢
  have hstart (hp : r.pending = none) : r.start number = number := by
    unfold start
    rw [hp]
    rfl
  have hnumber (hp : r.pending = none) :
      number = if r.pending.isSome then r.state.lineNumber else number := by
    rw [hp]
    rfl
  have hnone (hp : r.pending = none) : ∀ raw ∈ r.pending, raw.lineNumber = r.start number := by
    rw [hp]
    nofun
  cases hreads with
  | inComment hp _ =>
    refine ⟨_, rfl, ?_, ?_, hnone hp, ⟨_, rfl⟩, rfl⟩
    · unfold commentLine
      split <;> rfl
    · rw [← hnumber hp]
      unfold commentLine
      split <;> rfl
  | opensComment hp => exact ⟨_, rfl, rfl, hnumber hp, hnone hp, ⟨_, rfl⟩, rfl⟩
  | isComment hp => exact ⟨_, rfl, rfl, hnumber hp, hnone hp, ⟨_, rfl⟩, rfl⟩
  | opensRaw hp =>
    refine ⟨_, rfl, rfl, hnumber hp, ?_, ⟨[], (append_nil _).symm⟩, rfl⟩
    rintro _ ⟨⟩
    exact (hstart hp).symm
  | inRaw text hp =>
    refine ⟨_, rfl, rfl, ?_, ?_, ⟨[], (append_nil _).symm⟩, rfl⟩
    · rw [hp]
      rfl
    · rintro _ ⟨⟩
      unfold start
      rw [hp]
      rfl

/-! ## 4. The end of the source -/

end Run

theorem State.gathersAt_noticeOpenBlocks (s : State) : GathersAt q s s.noticeOpenBlocks := by
  have hfold : ∀ (frames : List BlockFrame) (s : State), GathersAt q s
      (frames.foldl (fun s f => s.notice (f.block.name ++ " block not closed before end of input")) s) := by
    intro frames
    induction frames with
    | nil => exact .refl
    | cons f frames ih => exact fun s => (GathersAt.notice s _).trans (ih _)
  exact (hfold s.blocks s).trans (.of_eq rfl)

namespace Run

variable {r r' : Run} {halt : Halt}

theorem close_completes (h : r.remainder? = some l) :
    GathersAt True (r.state.renumber (r.start r.state.lineNumber)) l.state ∧
      r.close = ((r.arrive l).logicalLine (r.margin []) l.text true).map
        fun r => { r with state := r.state.noticeOpenBlocks } := by
  obtain ⟨raw, hp, rfl⟩ := Option.map_eq_some_iff.mp h
  unfold close start margin
  rw [hp]
  refine ⟨?_, rfl⟩
  exact (GathersAt.notice _ _).trans (.of_eq rfl)

theorem close_eq_ok (hrest : r.remainder? = some l) (h : r.close = .ok r') :
    ∃ r₁, (r.arrive l).logicalLine (r.margin []) l.text true = .ok r₁ ∧
      r' = { r₁ with state := r₁.state.noticeOpenBlocks } := by
  rw [(close_completes hrest).2] at h
  cases hline : (r.arrive l).logicalLine (r.margin []) l.text true with
  | error halt =>
    rw [hline] at h
    cases h
  | ok r₁ =>
    rw [hline] at h
    exact ⟨r₁, rfl, (Except.ok.inj h).symm⟩

theorem close_waits (h : r.remainder? = none) :
    r.pending = none ∧ r.close = .ok { r with state := r.state.noticeOpenBlocks } := by
  have hp : r.pending = none := Option.map_eq_none_iff.mp h
  refine ⟨hp, ?_⟩
  obtain ⟨state, output, pending, firstFunction⟩ := r
  cases hp
  rfl

theorem gathersAt_close (h : r.close = .ok r') :
    GathersAt (∀ l ∈ r.remainder?, l.kind ≠ .functionSignature)
      (r.state.renumber (r.start r.state.lineNumber)) r'.state := by
  cases hrest : r.remainder? with
  | none =>
    obtain ⟨hp, hclose⟩ := close_waits hrest
    cases hclose.symm.trans h
    unfold start
    rw [hp]
    exact gathersAt_noticeOpenBlocks r.state
  | some l =>
    obtain ⟨hbefore, _⟩ := close_completes hrest
    obtain ⟨r₁, hline, rfl⟩ := close_eq_ok hrest h
    have hadd := (gathersAt_logicalLine rfl hline).weaken
      fun h : (∀ l' ∈ some l, l'.kind ≠ .functionSignature) => h l rfl
    exact (hbefore.weaken fun _ => trivial).trans (hadd.trans (gathersAt_noticeOpenBlocks _))

theorem close_halt (h : r.close = .error halt) : halt.line = r.start r.state.lineNumber := by
  cases hrest : r.remainder? with
  | none => cases (close_waits hrest).2.symm.trans h
  | some l =>
    obtain ⟨hbefore, hclose⟩ := close_completes hrest
    rw [hclose] at h
    cases hline : (r.arrive l).logicalLine (r.margin []) l.text true with
    | error halt' =>
      rw [hline] at h
      cases h
      exact (logicalLine_halt hline).trans hbefore.lineNumber
    | ok r₁ =>
      rw [hline] at h
      cases h

/-! ## 5. Whole runs -/

theorem exists_sourceLine_of_cons {rest : List Text}
    (h : (r.sourceLines number (line :: rest)).bind close = .ok r') :
    ∃ r₁, r.sourceLine number line = .ok r₁ ∧ (r₁.sourceLines (number + 1) rest).bind close = .ok r' := by
  unfold sourceLines at h
  cases hline : r.sourceLine number line with
  | error halt =>
    rw [hline] at h
    cases h
  | ok r₁ =>
    rw [hline] at h
    exact ⟨r₁, rfl, h⟩

theorem gathers_sourceLine (h : r.sourceLine number line = .ok r') : r.state.Gathers r'.state := by
  cases hdone : r.completed? number line with
  | none =>
    obtain ⟨r₁, hwait, w⟩ := r.sourceLine_waits hdone
    cases hwait.symm.trans h
    exact .of_renumber (.of_eq (q := True) w.record)
  | some l =>
    obtain ⟨hrecord, hline⟩ := sourceLine_completes hdone
    have hadd := gathersAt_logicalLine rfl (hline.symm.trans h)
    exact (Gathers.of_renumber (.of_eq (q := True) hrecord)).trans hadd.gathers

/-- A run only adds to what is gathered. -/
theorem gathers_sourceLines :
    ∀ {r : Run}, r.sourceLines number ls = .ok r' → r.state.Gathers r'.state := by
  induction ls generalizing number with
  | nil =>
    intro r h
    cases h
    exact .refl _
  | cons line rest ih =>
    intro r h
    obtain ⟨r₁, hline, h⟩ := exists_ok_of_bind h
    exact (gathers_sourceLine hline).trans (ih h)

theorem gathers_logicalLines :
    ∀ {r : Run}, l ∈ r.logicalLines number ls → r.state.Gathers l.state := by
  induction ls generalizing number with
  | nil =>
    intro r h
    obtain ⟨hbefore, _⟩ := close_completes (Option.mem_toList.mp h)
    exact .of_renumber hbefore
  | cons line rest ih =>
    intro r h
    unfold logicalLines at h
    rcases mem_append.mp h with h | h
    · obtain ⟨hrecord, _⟩ := sourceLine_completes (Option.mem_toList.mp h)
      exact .of_renumber (.of_eq (q := True) hrecord)
    · cases hline : r.sourceLine number line with
      | error halt =>
        rw [hline] at h
        cases h
      | ok r₁ =>
        rw [hline] at h
        exact (gathers_sourceLine hline).trans (ih h)

end Run

end Linewise
