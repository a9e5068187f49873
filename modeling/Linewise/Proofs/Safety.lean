/-
  A source is lowered, or stops at a fault; no text is cut inside a character.

  Only the head of a range loop can be cut so: the word is searched for in the masked head, where a
  character of a literal is one byte. Literals are those of the logical line, where one between
  backquotes already stands as a raw one.
-/
import Linewise.Proofs.Construct
import Linewise.Proofs.InBytes
import Linewise.Proofs.PlainLine
import Linewise.Proofs.SourceLines

namespace Linewise

open Text List

/-! ## 1. Logical lines -/

namespace LogicalLine

/-- If it is a loop, its literals are ASCII. -/
def AsciiLoop (l : LogicalLine) : Prop := l.kind = .forLoop → AsciiLiterals l.code

instance (l : LogicalLine) : Decidable l.AsciiLoop := inferInstanceAs (Decidable (_ → _))

end LogicalLine

/-! ## 2. One line -/

theorem AsciiLiterals.loopHead {line : Text} (h : AsciiLiterals line) :
    AsciiLiterals (Lower.loopHead line) := by
  have hfor : (Lexer.start.run "for").Fresh := ⟨rfl, by decide⟩
  exact ((h.stripStart hfor).trim.stripEnd _).trim

namespace Lower

theorem splitRange?_ne_none {head : Text} (h : AsciiLiterals head) : splitRange? head ≠ some none := by
  unfold splitRange?
  cases stripStart? "range " head with
  | some container => exact fun hnone => by cases hnone
  | none =>
    cases hword : indexOf? rangeWord (mask head) with
    | none => exact fun hnone => by cases hnone
    | some i =>
      have hstart : Utf8.offset (mask head) i = Utf8.offset head i := offset_mask h i
      have hend : Utf8.offset (mask head) i + Utf8.size rangeWord
          = Utf8.offset head (i + rangeWord.length) := by
        rw [← Utf8.offset_add_size (startsWith_of_indexOf? hword).1, offset_mask h]
      intro hnone
      simp only [Option.map_some, hend] at hnone
      rw [hstart, Utf8.splitAt?_offset, Utf8.splitAt?_offset] at hnone
      cases hnone

-- a character of two bytes in a literal moves the cut into the character in front of the word
example : splitRange? "m[\"é\"], é range xs" = some none := by decide +kernel

/-- A line stops at faults only, loops apart. -/
theorem faults_line (t : Text) (kind : StatementKind) (hloop : kind = .forLoop → AsciiLiterals t) :
    Keeps Stop.IsFault (fun _ _ => True) (Lower.line kind t) := by
  have faults : ∀ {m : Lower Lowered} {R : State → State → Prop}, Keeps Stop.IsFault R m →
      Keeps Stop.IsFault (fun _ _ => True) m := fun hm => hm.mono (fun _ hf => hf) fun _ _ _ => trivial
  cases hp : kind.isPlain with
  | true =>
    -- the loop is the one kind with another way to stop
    exact (spec_line t hp).keeps.mono
      (fun _ hstop => hstop fun hk => splitRange?_ne_none (hloop hk).loopHead) fun _ _ _ => trivial
  | false =>
    cases kind with
    | fallthrough => exact fun _ => trivial
    | blockOpen block => exact fun _ => trivial
    | blockClose block => exact Keeps.of_ok (blockClose_run block t) fun _ => trivial
    | closureEnd => exact Keeps.of_ok (closureEnd_run t) fun _ => trivial
    | functionSignature =>
      exact (keeps_functionDefinition t).mono (fun _ hstop => hstop.elim) fun _ _ _ => trivial
    | switch => exact faults (keeps_switch (P := False) (Q := False) t nofun nofun)
    | caseClause => exact faults (keeps_caseClause t)
    | defaultClause => exact faults keeps_defaultClause
    | typeDeclaration => exact faults (keeps_typeDeclaration t)
    | structField => exact faults (meets_structField t).keeps
    | mapLiteralOpen => exact faults (keeps_mapLiteralOpen t)
    | _ => cases hp

end Lower

theorem LogicalLine.faults {l : LogicalLine} (hl : l.AsciiLoop) {r : Run} (hr : r.state = l.state)
    {indent : Text} {spans : Bool} {halt : Halt}
    (h : r.logicalLine indent l.text spans = .error halt) : halt.stop.IsFault := by
  obtain ⟨s', hrun⟩ := Run.codeLine_eq_error (Run.logicalLine_eq_error h)
  rw [hr] at hrun
  exact (Lower.faults_line l.code l.kind hl).error hrun

/-! ## 3. A run -/

namespace Run

theorem sourceLine_cases (r : Run) (number : Nat) (line : Text) :
    match r.completed? number line with
    | some l => ∃ r' : Run, r'.state = l.state ∧ ∃ indent spans,
        r.sourceLine number line = r'.logicalLine indent l.text spans
    | none => ∃ r', r.sourceLine number line = .ok r' := by
  have hreads := r.reads number line
  generalize r.completed? number line = done, r.sourceLine number line = result at hreads ⊢
  cases hreads with
  | code => exact ⟨_, rfl, _, _, rfl⟩
  | closesRaw => exact ⟨_, rfl, _, _, rfl⟩
  | _ => exact ⟨_, rfl⟩

theorem close_cases (r : Run) :
    match r.remainder? with
    | some l => ∃ r' : Run, r'.state = l.state ∧ ∃ indent,
        r.close = (r'.logicalLine indent l.text true).map
          fun r => { r with state := r.state.noticeOpenBlocks }
    | none => ∃ r', r.close = .ok r' := by
  unfold remainder? close
  cases hp : r.pending with
  | none => exact ⟨_, rfl⟩
  | some raw => exact ⟨_, rfl, _, rfl⟩

theorem faults {ls : List Text} : ∀ {r : Run} {number : Nat} {halt : Halt},
    (∀ l ∈ r.logicalLines number ls, l.AsciiLoop) →
      (r.sourceLines number ls).bind close = .error halt → halt.stop.IsFault := by
  induction ls with
  | nil =>
    intro r number halt hl h
    have hcases := r.close_cases
    unfold logicalLines at hl
    cases hrest : r.remainder? with
    | none =>
      rw [hrest] at hcases
      obtain ⟨r', hr'⟩ := hcases
      cases hr'.symm.trans h
    | some l =>
      rw [hrest] at hcases hl
      obtain ⟨r', hstate, indent, hclose⟩ := hcases
      have hmap : (r'.logicalLine indent l.text true).map _ = .error halt := hclose.symm.trans h
      cases hline : r'.logicalLine indent l.text true with
      | ok r'' =>
        rw [hline] at hmap
        cases hmap
      | error halt' =>
        rw [hline] at hmap
        cases hmap
        exact LogicalLine.faults (hl l mem_cons_self) hstate hline
  | cons line rest ih =>
    intro r number halt hl h
    have hcases := r.sourceLine_cases number line
    unfold sourceLines at h
    unfold logicalLines at hl
    cases hline : r.sourceLine number line with
    | ok r' =>
      rw [hline] at h hl
      exact ih (fun l hmem => hl l (mem_append_right _ hmem)) h
    | error halt' =>
      rw [hline] at h hcases
      cases h
      -- only a line that completes a logical line stops
      cases hdone : r.completed? number line with
      | none =>
        rw [hdone] at hcases
        obtain ⟨r', hr'⟩ := hcases
        cases hr'
      | some l =>
        rw [hdone] at hcases hl
        obtain ⟨r', hstate, indent, spans, hlogical⟩ := hcases
        exact LogicalLine.faults (hl l (mem_append_left _ mem_cons_self)) hstate hlogical.symm

end Run

/-! ## 4. A source -/

/-- **Lowering never cuts inside a character.** If the loops of a source have ASCII in their literals,
    it becomes a program or stops at a fault with its line; no head of a loop is cut inside a character;
    and no other function cuts there, made to cut at the byte offsets it computes. -/
theorem lower_safe {source : Text} (h : ∀ l ∈ logicalLines source, l.AsciiLoop) :
    ((∃ program, lower source = .ok program) ∨
        ∃ line fault, lower source = .error ⟨line, .fault fault⟩) ∧
      (∀ l ∈ logicalLines source, l.kind = .forLoop → Lower.splitRange? (Lower.loopHead l.code) ≠ some none) ∧
      InBytes.Agree := by
  refine ⟨?_, fun l hl hk => Lower.splitRange?_ne_none (h l hl hk).loopHead, InBytes.agree⟩
  unfold lower runSource
  cases hrun : (Run.sourceLines {} 1 (lines (stripStart ['\uFEFF'] source))).bind Run.close with
  | ok r => exact .inl ⟨_, rfl⟩
  | error halt =>
    have hstop : halt.stop.IsFault := Run.faults h hrun
    obtain ⟨line, stop⟩ := halt
    cases stop with
    | fault f => exact .inr ⟨line, f, rfl⟩
    | splitCharacter => exact hstop.elim

/-- Loops over characters of several bytes, and literals that hold some. -/
def wideSource : Text :=
  "func main() \x7b\n\ts := \x60é\n日\x60 // 日\n\tfor _, größe := range f(\"a\", s) \x7b\n"
    ++ "\t\tfmt.Println(\"größe\", größe)\n\t\x7d\n\x7d\n"

theorem lower_safe_wideSource :
    (∀ l ∈ logicalLines wideSource, l.AsciiLoop) ∧ (∃ l ∈ logicalLines wideSource, l.kind = .forLoop) ∧
      ((∃ program, lower wideSource = .ok program) ∨
        ∃ line fault, lower wideSource = .error ⟨line, .fault fault⟩) ∧
      InBytes.split? "größe := f" = .ok (some ⟨"größe", "f", .define⟩) := by
  have hloops : ∀ l ∈ logicalLines wideSource, l.AsciiLoop := by decide +kernel
  obtain ⟨hlower, _, hcut⟩ := lower_safe hloops
  refine ⟨hloops, by decide +kernel, hlower, (hcut.split? _).trans ?_⟩
  decide +kernel

end Linewise
