/-
  Where notices and stops are placed.

  Source lines fall into statements: a line by itself, or the lines of a literal between backquotes.
  All that a statement reports stands under the number of its first line, so the numbers never go
  back, and a run that stops names the statement that stopped it.
-/
import Linewise.Proofs.Course
import Linewise.Proofs.Discipline

namespace Linewise

open Text List

variable {g ls : List Text} {n : Nat} {a b gs : List (List Text)}

/-! ## 1. Statements -/

namespace Context

/-- What is open behind the lines. -/
def behind (c : Context) (ls : List Text) : Context := ls.foldl (fun c line => c.next line) c

theorem behind_append (c : Context) (a b : List Text) : c.behind (a ++ b) = (c.behind a).behind b :=
  foldl_append

/-- Lines of one statement: behind every one but the last a literal is open. -/
def Unbroken : Context → List Text → Prop
  | _, [] => False
  | _, [_] => True
  | c, line :: next :: rest => c.next line = .raw ∧ Unbroken .raw (next :: rest)

end Context

/-- A line in front of the first statement. -/
def prependLine (line : Text) : List (List Text) → List (List Text)
  | [] => [[line]]
  | g :: gs => (line :: g) :: gs

/-- The statements of source lines. -/
def statements (c : Context) : List Text → List (List Text)
  | [] => []
  | line :: rest =>
    if c.next line = .raw then prependLine line (statements .raw rest)
    else [line] :: statements (c.next line) rest

theorem flatten_prependLine (line : Text) (gs : List (List Text)) :
    (prependLine line gs).flatten = line :: gs.flatten := by
  cases gs with
  | nil => rfl
  | cons g gs => rfl

theorem flatten_statements (c : Context) (ls : List Text) : (statements c ls).flatten = ls := by
  induction ls generalizing c with
  | nil => rfl
  | cons line rest ih =>
    unfold statements
    split
    · rw [flatten_prependLine, ih]
    · rw [flatten_cons, ih]
      rfl

-- a literal over two lines, and a backquote inside a comment
example : statements .code ["x := \x60a", "b\x60", "/* \x60", "*/", "y"]
    = ([["x := \x60a", "b\x60"], ["/* \x60"], ["*/"], ["y"]] : List (List Text)) := by
  decide

theorem statements_cons :
    ∀ {c : Context}, statements c ls = g :: gs → c.Unbroken g ∧
      ∃ rest, ls = g ++ rest ∧ statements (c.behind g) rest = gs ∧ (gs ≠ [] → c.behind g ≠ .raw) := by
  induction ls generalizing g gs with
  | nil => nofun
  | cons line rest ih =>
    intro c h
    unfold statements at h
    split at h
    · rename_i hraw
      have hbehind : ∀ g, c.behind (line :: g) = Context.raw.behind g := fun g => by
        rw [← hraw]
        rfl
      cases hs : statements .raw rest with
      | nil =>
        rw [hs] at h
        cases h
        have hrest : rest = [] := by
          rw [← flatten_statements .raw rest, hs]
          rfl
        rw [hrest]
        exact ⟨trivial, [], rfl, rfl, fun hne => absurd rfl hne⟩
      | cons g' gs' =>
        rw [hs] at h
        cases h
        obtain ⟨hun, rest', rfl, hgs, hne⟩ := ih hs
        rw [hbehind]
        refine ⟨?_, rest', rfl, hgs, hne⟩
        cases g' with
        | nil => exact hun.elim
        | cons l g' => exact ⟨hraw, hun⟩
    · rename_i hraw
      cases h
      exact ⟨trivial, rest, rfl, rfl, fun _ => hraw⟩

theorem statements_split :
    ∀ {c : Context} {ls : List Text}, c ≠ .raw → statements c ls = a ++ g :: b →
      c.behind a.flatten ≠ .raw ∧ (c.behind a.flatten).Unbroken g := by
  induction a with
  | nil =>
    intro c ls hc h
    exact ⟨hc, (statements_cons h).1⟩
  | cons h a ih =>
    intro c ls hc hs
    obtain ⟨_, rest, _, hrest, hne⟩ := statements_cons hs
    rw [flatten_cons, Context.behind_append]
    exact ih (hne (append_cons_ne_nil a)) hrest

/-! ## 2. A run reads statements -/

namespace Run

variable {r r' : Run} {halt : Halt} {number : Nat} {line : Text}

theorem pending_of_context (h : r.context ≠ .raw) : r.pending = none := by
  cases hp : r.pending with
  | none => rfl
  | some raw =>
    unfold context at h
    rw [hp] at h
    exact absurd rfl h

theorem isSome_pending_of_context (h : r.context = .raw) : r.pending.isSome = true := by
  unfold context at h
  split at h
  · assumption
  · split at h <;> cases h

theorem Layered.context_sourceLines : ∀ {r : Run} {number : Nat}, r.Layered →
    r.sourceLines number ls = .ok r' → r'.context = r.context.behind ls := by
  induction ls with
  | nil =>
    intro r number _ h
    cases h
    rfl
  | cons line rest ih =>
    intro r number hl h
    obtain ⟨r₁, hline, h⟩ := exists_ok_of_bind h
    rw [ih (hl.sourceLine hline) h, (hl.step hline).2]
    rfl

/-! ## 3. What a statement is filed under -/

/-- The run has come to a statement that starts at line `n`. -/
structure FiledUnder (n : Nat) (r : Run) : Prop where
  lineNumber : r.state.lineNumber = n
  pending : ∀ raw ∈ r.pending, raw.lineNumber = n

theorem FiledUnder.start (h : r.FiledUnder n) (hp : r.pending.isSome = true) (number : Nat) :
    r.start number = n := by
  obtain ⟨raw, hraw⟩ := Option.isSome_iff_exists.mp hp
  unfold Run.start
  rw [hraw]
  exact h.pending raw hraw

theorem FiledUnder.start_lineNumber (h : r.FiledUnder n) : r.start r.state.lineNumber = n := by
  cases hp : r.pending with
  | some raw => exact h.start (by rw [hp]; rfl) _
  | none =>
    unfold Run.start
    rw [hp]
    exact h.lineNumber

theorem FiledUnder.renumber_eq (h : r.FiledUnder n) : r.state.renumber n = r.state := by
  rw [← h.lineNumber]
  rfl

theorem sourceLine_filed (line : Text) (hstart : r.start number = n)
    (hnumber : r.pending.isSome = true → r.state.lineNumber = n) :
    (∀ r', r.sourceLine number line = .ok r' →
        r'.FiledUnder n ∧ State.GathersAt False (r.state.renumber n) r'.state) ∧
      ∀ halt, r.sourceLine number line = .error halt → halt.line = n := by
  cases hdone : r.completed? number line with
  | none =>
    obtain ⟨r₁, hwait, w⟩ := r.sourceLine_waits hdone
    have hline : r₁.state.lineNumber = n := by
      rw [w.lineNumber]
      split
      · rename_i hp
        exact hnumber hp
      · rename_i hp
        rw [← hstart, start, Option.not_isSome_iff_eq_none.mp hp]
        rfl
    refine ⟨fun r' h => ?_, fun halt h => by cases hwait.symm.trans h⟩
    cases hwait.symm.trans h
    refine ⟨⟨hline, fun raw hraw => (w.pending raw hraw).trans hstart⟩, .of_eq ?_⟩
    rw [w.record, hline]
  | some l =>
    obtain ⟨hrecord, hrun⟩ := sourceLine_completes hdone
    rw [hstart] at hrecord
    have hl : l.state.lineNumber = n := congrArg State.Record.lineNumber hrecord
    refine ⟨fun r' h => ?_, fun halt h => (logicalLine_halt (hrun.symm.trans h)).trans hl⟩
    have hlogical := hrun.symm.trans h
    have hadd := gathersAt_logicalLine rfl hlogical
    refine ⟨⟨hadd.lineNumber.trans hl, ?_⟩, State.GathersAt.trans (.of_eq hrecord) (hadd.weaken False.elim)⟩
    have hpending : r'.pending = none := pending_logicalLine hlogical
    rw [hpending]
    nofun

theorem sourceLines_filed :
    ∀ {r : Run} {number : Nat}, r.Layered → r.context.Unbroken g → r.start number = n →
      (r.pending.isSome = true → r.state.lineNumber = n) →
      (∀ r', r.sourceLines number g = .ok r' →
          r'.FiledUnder n ∧ State.GathersAt False (r.state.renumber n) r'.state) ∧
        ∀ halt, r.sourceLines number g = .error halt → halt.line = n := by
  induction g with
  | nil =>
    intro r number _ hg
    exact hg.elim
  | cons line rest ih =>
    intro r number hl hg hstart hnumber
    obtain ⟨hok, herror⟩ := sourceLine_filed line hstart hnumber
    unfold sourceLines
    cases hline : r.sourceLine number line with
    | error halt =>
      refine ⟨fun r' h => ?_, fun halt' h => ?_⟩
      · cases h
      · cases h
        exact herror halt hline
    | ok r₁ =>
      obtain ⟨hfiled, hadd⟩ := hok r₁ hline
      cases rest with
      | nil =>
        refine ⟨fun r' h => ?_, fun halt h => by cases h⟩
        cases h
        exact ⟨hfiled, hadd⟩
      | cons second rest =>
        -- the statement goes on, so a literal is pending
        obtain ⟨hraw, hrest⟩ := hg
        have hopen : r₁.context = .raw := ((hl.step hline).2).trans hraw
        have hp := isSome_pending_of_context hopen
        obtain ⟨hok', herror'⟩ := ih (hl.sourceLine hline) (by rw [hopen]; exact hrest)
          (hfiled.start hp (number + 1)) (fun _ => hfiled.lineNumber)
        refine ⟨fun r' h => ?_, herror'⟩
        obtain ⟨hfiled', hadd'⟩ := hok' r' h
        rw [hfiled.renumber_eq] at hadd'
        exact ⟨hfiled', hadd.trans hadd'⟩

/-- One statement, and behind the last one the end of the source. -/
def statement (r : Run) (number : Nat) (g : List Text) (last : Bool) : Except Halt Run :=
  (r.sourceLines number g).bind fun r => if last then r.close else .ok r

theorem statement_filed {last : Bool} (hl : r.Layered) (hp : r.pending = none) (hg : r.context.Unbroken g) :
    (∀ r', r.statement number g last = .ok r' →
        State.GathersAt False (r.state.renumber number) r'.state) ∧
      ∀ halt, r.statement number g last = .error halt → halt.line = number := by
  have hstart : r.start number = number := by
    unfold start
    rw [hp]
    rfl
  obtain ⟨hok, herror⟩ := sourceLines_filed hl hg hstart (fun h => by rw [hp] at h; cases h)
  unfold statement
  cases hrun : r.sourceLines number g with
  | error halt =>
    refine ⟨fun r' h => ?_, fun halt' h => ?_⟩
    · cases h
    · cases h
      exact herror halt hrun
  | ok r₁ =>
    obtain ⟨hfiled, hadd⟩ := hok r₁ hrun
    cases last with
    | false => exact ⟨fun r' h => by cases h; exact hadd, nofun⟩
    | true =>
      refine ⟨fun r' h => ?_, fun halt h => (close_halt h).trans hfiled.start_lineNumber⟩
      have hclose := gathersAt_close h
      rw [hfiled.start_lineNumber, hfiled.renumber_eq] at hclose
      exact hadd.trans (hclose.weaken False.elim)

/-! ## 4. Whole runs -/

theorem stopping_statement :
    ∀ {r : Run} {number : Nat} {ls : List Text}, r.Layered → r.context ≠ .raw →
      statements r.context ls = gs → (r.sourceLines number ls).bind close = .error halt →
      ∃ a g b r₁, gs = a ++ g :: b ∧ r.sourceLines number a.flatten = .ok r₁ ∧
        r₁.statement (number + a.flatten.length) g b.isEmpty = .error halt := by
  induction gs with
  | nil =>
    intro r number ls hl hc hs h
    have hls : ls = [] := by
      rw [← flatten_statements r.context ls, hs]
      rfl
    subst hls
    have hnone : r.remainder? = none := by
      unfold remainder?
      rw [pending_of_context hc]
      rfl
    cases (close_waits hnone).2.symm.trans h
  | cons g gs ih =>
    intro r number ls hl hc hs h
    obtain ⟨_, rest, rfl, hrest, hne⟩ := statements_cons hs
    rw [sourceLines_append] at h
    cases hg : r.sourceLines number g with
    | error halt' =>
      rw [hg] at h
      cases h
      refine ⟨[], g, gs, r, rfl, rfl, ?_⟩
      unfold statement
      rw [show number + ([] : List (List Text)).flatten.length = number from rfl, hg]
      rfl
    | ok r₁ =>
      rw [hg] at h
      change (r₁.sourceLines (number + g.length) rest).bind close = .error halt at h
      cases gs with
      | nil =>
        -- the last statement: the end of the source is part of it
        have hnil : rest = [] := by
          rw [← flatten_statements (r.context.behind g) rest, hrest]
          rfl
        subst hnil
        refine ⟨[], g, [], r, rfl, rfl, ?_⟩
        unfold statement
        rw [show number + ([] : List (List Text)).flatten.length = number from rfl, hg]
        exact h
      | cons g' gs =>
        have hcontext := hl.context_sourceLines hg
        obtain ⟨a, g₁, b, r₂, hsplit, hrun, hstop⟩ := ih (hl.sourceLines hg)
          (by rw [hcontext]; exact hne (cons_ne_nil _ _)) (by rw [hcontext]; exact hrest) h
        refine ⟨g :: a, g₁, b, r₂, by rw [hsplit]; rfl, ?_, ?_⟩
        · rw [flatten_cons, sourceLines_append, hg]
          exact hrun
        · rw [flatten_cons, length_append, ← Nat.add_assoc]
          exact hstop

end Run

theorem pairwise_append_notices {old new : List Notice} {number : Nat}
    (hold : old.Pairwise fun m n => m.line ≤ n.line) (hle : ∀ n ∈ old, n.line ≤ number)
    (hnew : ∀ n ∈ new, n.line = number) : (old ++ new).Pairwise fun m n => m.line ≤ n.line := by
  refine pairwise_append.mpr ⟨hold, ?_, fun m hm n hn => hnew n hn ▸ hle m hm⟩
  refine List.Pairwise.imp_of_mem ?_ (pairwise_of_forall fun _ _ => trivial)
  exact fun hm hn _ => Nat.le_of_eq ((hnew _ hm).trans (hnew _ hn).symm)

namespace Run

variable {r r' : Run} {number : Nat} {line : Text}

/-- Notices in the order of their numbers, up to the number at hand. -/
structure InOrder (r : Run) : Prop where
  filed : r.FiledUnder r.state.lineNumber
  started : r.pending.isSome = true → 1 ≤ r.state.lineNumber
  sorted : r.state.notices.Pairwise fun m n => m.line ≤ n.line
  range : ∀ n ∈ r.state.notices, 1 ≤ n.line ∧ n.line ≤ r.state.lineNumber

theorem InOrder.gathersAt {q : Prop} (h : r.InOrder) (hle : r.state.lineNumber ≤ n) (hpos : 1 ≤ n) {s : State}
    (hadd : State.GathersAt q (r.state.renumber n) s) :
    s.lineNumber = n ∧ s.notices.Pairwise (fun m n => m.line ≤ n.line) ∧
      ∀ m ∈ s.notices, 1 ≤ m.line ∧ m.line ≤ n := by
  obtain ⟨new, hnew, hline⟩ := hadd.notices
  refine ⟨hadd.lineNumber, ?_, fun m hm => ?_⟩
  · rw [hnew]
    exact pairwise_append_notices h.sorted (fun m hm => Nat.le_trans (h.range m hm).2 hle) hline
  · rw [hnew] at hm
    rcases mem_append.mp hm with hm | hm
    · exact ⟨(h.range m hm).1, Nat.le_trans (h.range m hm).2 hle⟩
    · rw [show m.line = n from hline m hm]
      exact ⟨hpos, Nat.le_refl n⟩

theorem InOrder.sourceLine (h : r.InOrder) (hlt : r.state.lineNumber < number)
    (hrun : r.sourceLine number line = .ok r') :
    r'.InOrder ∧ 1 ≤ r'.state.lineNumber ∧ r'.state.lineNumber ≤ number := by
  -- the number of the pending literal, or that of the line itself
  obtain ⟨n, hstart, hpending, hle, hpos, hmax⟩ : ∃ n, r.start number = n ∧
      (r.pending.isSome = true → r.state.lineNumber = n) ∧ r.state.lineNumber ≤ n ∧ 1 ≤ n ∧ n ≤ number := by
    by_cases hp : r.pending.isSome = true
    · exact ⟨_, h.filed.start hp number, fun _ => rfl, Nat.le_refl _, h.started hp, Nat.le_of_lt hlt⟩
    · refine ⟨number, ?_, fun hp' => absurd hp' hp, Nat.le_of_lt hlt, by omega, Nat.le_refl _⟩
      unfold Run.start
      rw [Option.not_isSome_iff_eq_none.mp hp]
      rfl
  obtain ⟨hfiled, hadd⟩ := (sourceLine_filed line hstart hpending).1 r' hrun
  obtain ⟨hline, hsorted, hrange⟩ := h.gathersAt hle hpos hadd
  rw [hline]
  exact ⟨⟨by rw [hline]; exact hfiled, fun _ => by rw [hline]; exact hpos, hsorted, by rw [hline]; exact hrange⟩,
    hpos, hmax⟩

theorem InOrder.sourceLines : ∀ {r : Run} {number : Nat}, r.InOrder →
    r.state.lineNumber < number → r.sourceLines number ls = .ok r' →
      r'.InOrder ∧ (ls ≠ [] → 1 ≤ r'.state.lineNumber) ∧ r'.state.lineNumber < number + ls.length := by
  induction ls with
  | nil =>
    intro r number h hlt hrun
    cases hrun
    exact ⟨h, fun hne => absurd rfl hne, hlt⟩
  | cons line rest ih =>
    intro r number h hlt hrun
    obtain ⟨r₁, hline, hrun⟩ := exists_ok_of_bind hrun
    obtain ⟨h₁, hpos, hle⟩ := h.sourceLine hlt hline
    obtain ⟨h', hpos', hlt'⟩ := ih h₁ (Nat.lt_succ_of_le hle) hrun
    refine ⟨h', fun _ => ?_, by rw [length_cons]; omega⟩
    cases rest with
    | nil =>
      cases hrun
      exact hpos
    | cons second rest => exact hpos' (cons_ne_nil _ _)

theorem InOrder.close (h : r.InOrder) (hpos : 1 ≤ r.state.lineNumber) (hrun : r.close = .ok r') :
    r'.state.notices.Pairwise (fun m n => m.line ≤ n.line) ∧
      ∀ n ∈ r'.state.notices, 1 ≤ n.line ∧ n.line ≤ r.state.lineNumber := by
  have hadd := gathersAt_close hrun
  rw [h.filed.start_lineNumber] at hadd
  exact (h.gathersAt (Nat.le_refl _) hpos hadd).2

theorem statement_of_ok (h : (r.sourceLines number (a ++ g :: b).flatten).bind Run.close = .ok r') :
    ∃ r₁ r₂, r.sourceLines number a.flatten = .ok r₁ ∧
      r₁.statement (number + a.flatten.length) g b.isEmpty = .ok r₂ ∧ (b = [] → r₂ = r') := by
  obtain ⟨r₀, h, hclose⟩ := exists_ok_of_bind h
  rw [flatten_append, flatten_cons, sourceLines_append] at h
  obtain ⟨r₁, ha, h⟩ := exists_ok_of_bind h
  rw [sourceLines_append] at h
  obtain ⟨r₂, hg, h⟩ := exists_ok_of_bind h
  unfold statement
  cases b with
  | nil =>
    cases h
    refine ⟨r₁, r', ha, ?_, fun _ => rfl⟩
    rw [hg]
    exact hclose
  | cons g' b =>
    refine ⟨r₁, r₂, ha, ?_, nofun⟩
    rw [hg]
    rfl

theorem statement_placed (hsplit : statements .code ls = a ++ g :: b)
    (hbefore : Run.sourceLines {} 1 a.flatten = .ok r) (last : Bool) :
    g ≠ [] ∧
      (∀ r', r.statement (a.flatten.length + 1) g last = .ok r' →
        State.GathersAt False (r.state.renumber (a.flatten.length + 1)) r'.state) ∧
      ∀ halt, r.statement (a.flatten.length + 1) g last = .error halt →
        halt.line = a.flatten.length + 1 := by
  have hl : Run.Layered {} := .bare rfl ⟨.literals 0, nofun⟩
  have hcontext : r.context = Context.code.behind a.flatten := hl.context_sourceLines hbefore
  obtain ⟨hne, hg⟩ := statements_split (by decide) hsplit
  rw [← hcontext] at hne hg
  refine ⟨?_, statement_filed (hl.sourceLines hbefore) (pending_of_context hne) hg⟩
  rintro rfl
  exact hg

end Run

theorem notices_inOrder {source : Text} {r : Run} (h : runSource source = .ok r) :
    r.state.notices.Pairwise (fun m n => m.line ≤ n.line) ∧
      ∀ n ∈ r.state.notices, 1 ≤ n.line ∧ n.line ≤ (lines (stripStart ['\uFEFF'] source)).length := by
  unfold runSource at h
  generalize lines (stripStart ['\uFEFF'] source) = ls at h ⊢
  have hstart : Run.InOrder {} := ⟨⟨rfl, nofun⟩, nofun, .nil, nofun⟩
  obtain ⟨r₁, hlines, hclose⟩ := exists_ok_of_bind h
  cases ls with
  | nil =>
    cases hlines
    cases hclose
    exact ⟨.nil, nofun⟩
  | cons line rest =>
    obtain ⟨horder, hpos, hlt⟩ := hstart.sourceLines (Nat.zero_lt_one) hlines
    obtain ⟨hsorted, hrange⟩ := horder.close (hpos (cons_ne_nil _ _)) hclose
    refine ⟨hsorted, fun n hn => ⟨(hrange n hn).1, ?_⟩⟩
    have := (hrange n hn).2
    omega

/-- **Where notices and stops are placed.** The lines of a source fall into statements. Where it
    becomes a program, the numbers of its notices never go back, all are numbers of lines, and those
    that a statement leaves (the last one with the end of the source) are the number of its first
    line. Where it does not, the stop is at the first line of the statement that stops the run, and
    nothing stops it before. -/
theorem positions_sound (source : Text) :
    let ls := lines (stripStart ['\uFEFF'] source)
    (statements .code ls).flatten = ls ∧
    match lower source with
    | .ok program =>
      program.notices.Pairwise (fun m n => m.line ≤ n.line) ∧
      (∀ n ∈ program.notices, 1 ≤ n.line ∧ n.line ≤ ls.length) ∧
      ∀ a g b, statements .code ls = a ++ g :: b → ∃ r r' new,
        Run.sourceLines {} 1 a.flatten = .ok r ∧
        r.statement (a.flatten.length + 1) g b.isEmpty = .ok r' ∧
        r'.state.notices = r.state.notices ++ new ∧ (∀ n ∈ new, n.line = a.flatten.length + 1) ∧
        (b = [] → r'.state.notices = program.notices)
    | .error halt =>
      1 ≤ halt.line ∧ halt.line ≤ ls.length ∧
      ∃ a g b r, statements .code ls = a ++ g :: b ∧ halt.line = a.flatten.length + 1 ∧
        Run.sourceLines {} 1 a.flatten = .ok r ∧ r.statement halt.line g b.isEmpty = .error halt := by
  intro ls
  refine ⟨flatten_statements _ _, ?_⟩
  have hl : Run.Layered {} := .bare rfl ⟨.literals 0, nofun⟩
  cases hrun : runSource source with
  | error halt =>
    rw [show lower source = .error halt from by unfold lower; rw [hrun]; rfl]
    obtain ⟨a, g, b, r, hsplit, hbefore, hstop⟩ := Run.stopping_statement hl (by decide) rfl hrun
    obtain ⟨hne, _, herror⟩ := Run.statement_placed hsplit hbefore b.isEmpty
    rw [Nat.add_comm] at hstop
    have hline : halt.line = a.flatten.length + 1 := herror halt hstop
    have hlength : ls.length = a.flatten.length + (g.length + b.flatten.length) := by
      rw [← flatten_statements .code ls, show statements .code ls = a ++ g :: b from hsplit]
      simp
    have hpos : 0 < g.length := length_pos_iff.mpr hne
    refine ⟨by omega, by omega, a, g, b, r, hsplit, hline, hbefore, ?_⟩
    rw [hline]
    exact hstop
  | ok r' =>
    rw [show lower source = .ok ⟨finish r'.placed r'.flags, r'.state.notices⟩ from by
      unfold lower; rw [hrun]; rfl]
    obtain ⟨hsorted, hrange⟩ := notices_inOrder hrun
    refine ⟨hsorted, hrange, fun a g b hsplit => ?_⟩
    have hwhole : (Run.sourceLines {} 1 (a ++ g :: b).flatten).bind Run.close = .ok r' := by
      rw [← hsplit, flatten_statements]
      exact hrun
    obtain ⟨r, r₂, hbefore, hstatement, hlast⟩ := Run.statement_of_ok hwhole
    rw [Nat.add_comm] at hstatement
    obtain ⟨_, hok, _⟩ := Run.statement_placed hsplit hbefore b.isEmpty
    obtain ⟨new, hnew, hline⟩ := (hok r₂ hstatement).notices
    exact ⟨r, r₂, new, hbefore, hstatement, hnew, hline, fun hb => by rw [hlast hb]⟩

/-- The call goes over two lines and is passed through with a notice. -/
def callOverLines : Text := "x := 1\ngo f(\x60a\nb\x60)\ny := 2\n"

theorem positions_sound_callOverLines :
    statements .code (lines callOverLines)
        = ([["x := 1"], ["go f(\x60a", "b\x60)"], ["y := 2"]] : List (List Text)) ∧
      (lower callOverLines).toOption.map (·.notices.map (·.line)) = some [2] ∧
      ∃ r r' new, Run.sourceLines {} 1 ["x := 1"] = .ok r ∧
        r.statement 2 ["go f(\x60a", "b\x60)"] false = .ok r' ∧
        r'.state.notices = r.state.notices ++ new ∧ ∀ n ∈ new, n.line = 2 := by
  have hsplit : statements .code (lines callOverLines)
      = ([["x := 1"], ["go f(\x60a", "b\x60)"], ["y := 2"]] : List (List Text)) := by decide +kernel
  have hlines : (lower callOverLines).toOption.map (·.notices.map (·.line)) = some [2] := by decide +kernel
  refine ⟨hsplit, hlines, ?_⟩
  obtain ⟨_, hplaced⟩ := positions_sound callOverLines
  cases hprogram : lower callOverLines with
  | error halt =>
    rw [hprogram] at hlines
    cases hlines
  | ok program =>
    rw [hprogram] at hplaced
    obtain ⟨r, r', new, hbefore, hstatement, hnew, hnumber, _⟩ := hplaced.2.2 [["x := 1"]] _ [["y := 2"]] hsplit
    exact ⟨r, r', new, hbefore, hstatement, hnew, hnumber⟩

end Linewise
