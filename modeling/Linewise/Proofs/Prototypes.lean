/-
  Where the declarations of functions are placed.

  They stand in one block right before the first function. The place is noted in the middle of a run;
  what is written again later opens classes, so the header still stands there at the end.
-/
import Linewise.Proofs.Course
import Linewise.Proofs.HeaderLine
import Linewise.Proofs.TrailingComment

namespace Linewise

open Text List

variable {output : List Text} {line : Text} {h : Heading} {draft : Option StructDraft} {number : Nat}

/-! ## 1. Headers in the output -/

theorem LogicalLine.code_subset (l : LogicalLine) : l.code ⊆ l.text := by
  have hcomment : (splitComment l.text).1 ⊆ l.text := by
    unfold splitComment
    split
    · exact fun c hc => mem_of_mem_take (dropEndWhile_subset _ _ hc)
    · exact dropEndWhile_subset _ _
  exact fun c hc => hcomment (mem_of_mem_trim (stripEnd_subset _ _ (dropEndWhile_subset _ _ hc)))

theorem head?_terminate {c : Char} (hc : isBlank c = false) (s : Text) :
    (terminate (c :: s)).head? = some c := by
  unfold terminate
  rw [trimEnd_cons_of_solid hc]
  dsimp only
  split
  · rfl
  · split
    · rfl
    · split
      · rfl
      · split <;> rfl

theorem getElem?_reopenClass {i : Nat} (hline : output[i]? = some line)
    (hclass : ∀ rest, startsWith (trimStart line) ("class " ++ rest) = false)
    (hd : ∀ d ∈ draft, OpensClass output d) : (reopenClass draft output)[i]? = some line := by
  unfold Linewise.reopenClass
  split
  · rename_i name fields bases index
    split
    · exact hline
    · -- the line written again opens a class, and this one does not
      have hne : index ≠ i := by
        rintro rfl
        obtain ⟨i, opener, hopener, hi', hstart⟩ := hd _ rfl
        cases hopener
        rw [hline] at hi'
        cases hi'
        rw [append_assoc, hclass] at hstart
        cases hstart
      rw [getElem?_modify, hline]
      exact congrArg some (if_neg hne)
  · exact hline

/-- A function header that a run comes to. -/
structure Heading where
  line : LogicalLine
  /-- which output line it starts on -/
  place : Nat

namespace Heading

/-- The signature that is read off the line. -/
def signature (h : Heading) : Signature := Signature.parse h.line.code

/-- The function is the entry point. -/
def isMain (h : Heading) : Bool := h.signature.isMain

/-- The function, declared ahead of its definition. -/
def declaration (h : Heading) : Text := h.signature.cpp ++ ";"

/-- The header: with the opening brace, or as a statement if the line does not end with it. -/
def header (h : Heading) : Text :=
  if endsWith h.line.code "\x7b" then h.signature.cpp ++ " \x7b" else terminate h.signature.cpp

/-- The header with the comment behind it. -/
def text (h : Heading) : Text :=
  h.header ++ ((splitComment h.line.text).2.map fun c => (" " : Text) ++ c).getD []

/-- The header stands in its place, behind its indentation. -/
def Stands (output : List Text) (h : Heading) : Prop :=
  ∃ indent, Blank indent ∧ output[h.place]? = some (indent ++ h.text)

theorem Stands.append (hs : h.Stands output) (more : List Text) : h.Stands (output ++ more) := by
  obtain ⟨indent, hi, hline⟩ := hs
  refine ⟨indent, hi, ?_⟩
  obtain ⟨hlt, _⟩ := List.getElem?_eq_some_iff.mp hline
  rw [getElem?_append_left hlt]
  exact hline

theorem Stands.lt_length (hs : h.Stands output) : h.place < output.length := by
  obtain ⟨_, _, hline⟩ := hs
  exact (List.getElem?_eq_some_iff.mp hline).1

theorem head?_header (h : Heading) : h.header.head? = some 'a' := by
  have hcpp : ∃ r, h.signature.cpp = 'a' :: r := ⟨_, rfl⟩
  obtain ⟨r, hr⟩ := hcpp
  unfold header
  split
  · rw [hr]
    rfl
  · rw [hr]
    exact head?_terminate rfl r

theorem newline_not_mem_header (h : Heading) (hn : '\n' ∉ h.line.text) : '\n' ∉ h.header := by
  have hcpp : '\n' ∉ h.signature.cpp :=
    Signature.newline_not_mem_cpp fun hm => hn (h.line.code_subset hm)
  unfold header
  split
  · exact not_mem_append hcpp (by decide)
  · have htrim : '\n' ∉ trimEnd h.signature.cpp := fun hm => hcpp (dropEndWhile_subset _ _ hm)
    have hsemi : '\n' ∉ trimEnd h.signature.cpp ++ ";" := not_mem_append htrim (by decide)
    unfold terminate
    dsimp only
    split
    · exact htrim
    · split
      · exact hsemi
      · split
        · exact htrim
        · split
          · exact htrim
          · exact hsemi

theorem not_startsWith_class (h : Heading) {indent : Text} (hi : Blank indent) (rest : Text) :
    startsWith (trimStart (indent ++ h.text)) ("class " ++ rest) = false := by
  obtain ⟨r, hr⟩ := head?_eq_some_iff.mp h.head?_header
  rw [trimStart_append_of_blank hi, text, hr, cons_append, trimStart_cons_of_solid rfl]
  exact startsWith_of_head? rfl rfl (by decide)

theorem Stands.reopenClass (hs : h.Stands output)
    (hd : ∀ d ∈ draft, OpensClass output d) : h.Stands (reopenClass draft output) := by
  obtain ⟨indent, hi, hline⟩ := hs
  exact ⟨indent, hi, getElem?_reopenClass hline (h.not_startsWith_class hi) hd⟩

end Heading

/-- The header of a logical line, if it is one. -/
def LogicalLine.headingAt? (place : Nat) (l : LogicalLine) : Option Heading :=
  if l.kind = .functionSignature then some ⟨l, place⟩ else none

/-- The headers of source lines, as far as the run gets. -/
def Run.headings (r : Run) (number : Nat) : List Text → List Heading
  | [] => (r.remainder?.bind (·.headingAt? r.output.length)).toList
  | line :: rest =>
    ((r.completed? number line).bind (·.headingAt? r.output.length)).toList ++
      match r.sourceLine number line with
      | .ok r => r.headings (number + 1) rest
      | .error _ => []

/-- **The function headers of a source**, each with its place in the output. -/
def headings (source : Text) : List Heading :=
  Run.headings {} 1 (lines (stripStart ['\uFEFF'] source))

/-- The declarations of the functions, the entry point left out. -/
def declarations (hs : List Heading) : List Text := (hs.filter (!·.isMain)).map Heading.declaration

theorem declarations_concat (hs : List Heading) (x : Heading) :
    declarations (hs ++ [x]) = declarations hs ++ (if x.isMain then [] else [x.declaration]) := by
  unfold declarations
  rw [filter_append, map_append]
  cases hx : x.isMain <;> simp [hx]

theorem layout_header (x : Heading) (spans : Bool) (hn : spans = false → '\n' ∉ x.line.text) (indent : Text) :
    layout indent spans (some x.header) (splitComment x.line.text).2 = [indent ++ x.text] := by
  have hlines : (if spans then [indent ++ x.header] else (lines x.header).map (indent ++ ·))
      = [indent ++ x.header] := by
    cases spans with
    | true => rfl
    | false =>
      have hheader : '\n' ∉ x.header := x.newline_not_mem_header (hn rfl)
      have hne : x.header ≠ [] := by
        intro hnil
        have hhead := x.head?_header
        rw [hnil] at hhead
        cases hhead
      rw [lines_eq_singleton hne hheader]
      rfl
  unfold layout Heading.text
  dsimp only
  rw [hlines]
  cases (splitComment x.line.text).2 with
  | none => rw [Option.map_none, Option.getD_none, append_nil]
  | some c =>
    show [indent ++ x.header ++ " " ++ c] = [indent ++ (x.header ++ (" " ++ c))]
    rw [append_assoc, append_assoc]

/-! ## 2. What a run keeps of its headers -/

namespace Run

/-- The headers so far are declared in order, the first is noted, and all stand one behind the other. -/
structure Headed (hs : List Heading) (r : Run) : Prop where
  prototypes : r.state.prototypes = declarations hs
  first : r.firstFunction = hs.head?.map (·.place)
  stands : ∀ h ∈ hs, h.Stands r.output
  ordered : hs.Pairwise (·.place < ·.place)

variable {r r' : Run} {hs : List Heading} {l : LogicalLine} {indent : Text} {spans : Bool}

theorem Headed.append (h : r.Headed hs) (hp : r'.state.prototypes = r.state.prototypes)
    (hf : r'.firstFunction = r.firstFunction) (ho : ∃ ls, r'.output = r.output ++ ls) : r'.Headed hs := by
  obtain ⟨ls, ho⟩ := ho
  refine ⟨hp.trans h.prototypes, hf.trans h.first, fun x hx => ?_, h.ordered⟩
  rw [ho]
  exact (h.stands x hx).append ls

theorem Headed.heading (h : r.Headed hs) (hstate : r.state = l.state) (hi : Blank indent)
    (hn : spans = false → '\n' ∉ l.text) (hk : l.kind = .functionSignature)
    (hrun : r.logicalLine indent l.text spans = .ok r') : r'.Headed (hs ++ [⟨l, r.output.length⟩]) := by
  have hkind : (r.state.countBraces l.code).classify l.code = .functionSignature := by
    rw [hstate]
    exact hk
  obtain ⟨hempty, _⟩ | ⟨_, hrun⟩ := logicalLine_eq_ok hrun
  · rw [show l.code = [] from hempty] at hkind
    cases hkind
  · have hrun : r.codeLine indent l.code (splitComment l.text).2 spans = .ok r' := hrun
    obtain ⟨lowered, s', hline, rfl⟩ := codeLine_eq_ok hrun
    rw [hkind] at hline ⊢
    rw [show Lower.line .functionSignature l.code = Lower.functionDefinition l.code from rfl,
      functionDefinition_eq] at hline
    cases hline
    have hrender : Lowered.render (if endsWith l.code "\x7b" then .line ((Signature.parse l.code).cpp ++ " \x7b")
        else .statement (Signature.parse l.code).cpp) = some (Heading.header ⟨l, r.output.length⟩) := by
      unfold Heading.header
      split <;> rfl
    refine ⟨?_, ?_, fun x hx => ?_, ?_⟩
    · rw [declarations_concat, ← h.prototypes]
      rfl
    · -- the place is noted only where none is noted yet
      rw [h.first]
      cases hs <;> rfl
    · show x.Stands (r.output ++ layout indent spans (Lowered.render _) (splitComment l.text).2)
      rw [hrender, layout_header ⟨l, r.output.length⟩ spans hn]
      rcases mem_append.mp hx with hx | hx
      · exact (h.stands x hx).append _
      · rw [mem_singleton.mp hx]
        refine ⟨indent, hi, ?_⟩
        rw [getElem?_append_right (Nat.le_refl _), Nat.sub_self]
        rfl
    · refine pairwise_append.mpr ⟨h.ordered, pairwise_singleton _ _, fun x hx y hy => ?_⟩
      rw [mem_singleton.mp hy]
      exact (h.stands x hx).lt_length

/-- Any other line adds no declaration and no header. -/
theorem Headed.other (h : r.Headed hs) (hstate : r.state = l.state) (hst : r.Steady)
    (hk : l.kind ≠ .functionSignature) (hrun : r.logicalLine indent l.text spans = .ok r') :
    r'.Headed hs := by
  have hkind : (r.state.countBraces l.code).classify l.code ≠ .functionSignature := by
    rw [hstate]
    exact hk
  have hprotos := (gathersAt_logicalLine hstate hrun).declaresNone hk
  obtain ⟨_, rfl⟩ | ⟨_, hrun⟩ := logicalLine_eq_ok hrun
  · exact h.append rfl rfl ⟨_, rfl⟩
  · have hrun : r.codeLine indent l.code (splitComment l.text).2 spans = .ok r' := hrun
    obtain ⟨lowered, s', hline, rfl⟩ := codeLine_eq_ok hrun
    refine ⟨hprotos.trans h.prototypes, ?_, fun x hx => ?_, h.ordered⟩
    · dsimp only
      rw [if_neg (by simpa using hkind)]
      exact h.first
    · refine (Heading.Stands.reopenClass (h.stands x hx) fun d hd => ?_).append _
      split at hd
      · exact hst.opener d hd
      · cases hd

theorem Headed.logicalLine (h : r.Headed hs) (hstate : r.state = l.state) (hst : r.Steady) (hi : Blank indent)
    (hn : spans = false → '\n' ∉ l.text) (hrun : r.logicalLine indent l.text spans = .ok r') :
    r'.Headed (hs ++ (l.headingAt? r.output.length).toList) := by
  unfold LogicalLine.headingAt?
  split
  · rename_i hk
    exact h.heading hstate hi hn hk hrun
  · rename_i hk
    rw [Option.toList_none, append_nil]
    exact h.other hstate hst hk hrun

/-! ## 3. Source lines -/

theorem Layered.arrive (h : r.Layered) (hdone : r.completed? number line = some l) :
    (r.arrive l).Steady ∧ Blank (r.margin line) ∧
      (r.pending.isSome = false → '\n' ∉ line → '\n' ∉ l.text) := by
  have hreads := r.reads number line
  rw [hdone] at hreads
  generalize r.sourceLine number line = result at hreads
  unfold margin Run.arrive
  cases hreads with
  | code hp hb =>
    have hst := h.steady hp hb
    rw [hp]
    refine ⟨⟨hst.settled, hst.opener⟩, blank_indentation line, fun _ hn hm => ?_⟩
    rcases Raw.mem_of_mem_convertFrom hm with hm | hm
    · exact hn (mem_of_mem_trim hm)
    · revert hm
      decide
  | closesRaw text hp =>
    obtain ⟨hi, _, hst⟩ := h.below_raw hp
    rw [hp]
    exact ⟨⟨hst.settled, hst.opener⟩, hi, nofun⟩

theorem Layered.arrive_remainder (h : r.Layered) (hrest : r.remainder? = some l) :
    (r.arrive l).Steady ∧ Blank (r.margin []) := by
  obtain ⟨raw, hp, rfl⟩ := Option.map_eq_some_iff.mp hrest
  obtain ⟨hi, _, hst⟩ := h.below_raw hp
  unfold margin Run.arrive
  rw [hp]
  exact ⟨⟨hst.settled, hst.opener⟩, hi⟩

theorem output_arrive (r : Run) (l : LogicalLine) : (r.arrive l).output = r.output := rfl

theorem Headed.arrive (h : r.Headed hs) (hp : l.state.prototypes = r.state.prototypes) : (r.arrive l).Headed hs :=
  ⟨hp.trans h.prototypes, h.first, h.stands, h.ordered⟩

theorem Headed.sourceLine (h : r.Headed hs) (hl : r.Layered) (hn : '\n' ∉ line)
    (hrun : r.sourceLine number line = .ok r') :
    r'.Headed (hs ++ ((r.completed? number line).bind (·.headingAt? r.output.length)).toList) := by
  cases hdone : r.completed? number line with
  | none =>
    obtain ⟨r₁, hwait, w⟩ := r.sourceLine_waits hdone
    cases hwait.symm.trans hrun
    rw [Option.bind_none, Option.toList_none, append_nil]
    exact h.append (congrArg State.Record.prototypes w.record) w.firstFunction w.output
  | some l =>
    obtain ⟨hrecord, hline⟩ := sourceLine_completes hdone
    obtain ⟨hst, hi, htext⟩ := hl.arrive hdone
    rw [hline] at hrun
    have hadded := (h.arrive (congrArg State.Record.prototypes hrecord)).logicalLine rfl hst hi
      (fun hspans => htext hspans hn) hrun
    rw [output_arrive] at hadded
    rw [Option.bind_some]
    exact hadded

theorem Headed.close (h : r.Headed hs) (hl : r.Layered) (hrun : r.close = .ok r') :
    r'.Headed (hs ++ (r.remainder?.bind (·.headingAt? r.output.length)).toList) := by
  have noticed : ∀ {r : Run} {hs : List Heading}, r.Headed hs →
      Run.Headed hs { r with state := r.state.noticeOpenBlocks } := by
    intro r hs h
    have hp := (State.gathersAt_noticeOpenBlocks r.state).declaresNone trivial
    exact ⟨hp.trans h.prototypes, h.first, h.stands, h.ordered⟩
  cases hrest : r.remainder? with
  | none =>
    cases (close_waits hrest).2.symm.trans hrun
    rw [Option.bind_none, Option.toList_none, append_nil]
    exact noticed h
  | some l =>
    obtain ⟨hbefore, _⟩ := close_completes hrest
    obtain ⟨hst, hi⟩ := hl.arrive_remainder hrest
    obtain ⟨r₁, hline, rfl⟩ := close_eq_ok hrest hrun
    have hadded := (h.arrive (hbefore.declaresNone trivial)).logicalLine rfl hst hi
      (fun hspans => Bool.noConfusion hspans) hline
    rw [output_arrive] at hadded
    rw [Option.bind_some]
    exact noticed hadded

theorem Headed.sourceLines {ls : List Text} : ∀ {r : Run} {hs : List Heading} {number : Nat}, r.Headed hs →
    r.Layered → (∀ line ∈ ls, '\n' ∉ line) → (r.sourceLines number ls).bind Run.close = .ok r' →
      r'.Headed (hs ++ r.headings number ls) := by
  induction ls with
  | nil =>
    intro r hs number h hl _ hrun
    exact h.close hl hrun
  | cons line rest ih =>
    intro r hs number h hl hn hrun
    obtain ⟨r₁, hline, hrun⟩ := exists_sourceLine_of_cons hrun
    unfold headings
    rw [hline, ← append_assoc]
    exact ih (h.sourceLine hl (hn line mem_cons_self) hline) (hl.sourceLine hline)
      (forall_mem_cons.mp hn).2 hrun

theorem map_line_headings (ls : List Text) : ∀ (r : Run) (number : Nat),
    (r.headings number ls).map (·.line)
      = (r.logicalLines number ls).filter fun l => l.kind = .functionSignature := by
  have one : ∀ (place : Nat) (line? : Option LogicalLine),
      (line?.bind (·.headingAt? place)).toList.map (·.line)
        = line?.toList.filter fun l => l.kind = .functionSignature := by
    intro place line?
    cases line? with
    | none => rfl
    | some l =>
      rw [Option.bind_some, LogicalLine.headingAt?, Option.toList_some, filter_cons]
      by_cases hk : l.kind = .functionSignature <;> simp [hk]
  induction ls with
  | nil => exact fun r number => one _ _
  | cons line rest ih =>
    intro r number
    unfold headings logicalLines
    rw [map_append, filter_append, one]
    cases r.sourceLine number line with
    | error halt => rfl
    | ok r₁ => exact congrArg _ (ih r₁ (number + 1))

end Run

/-! ## 4. Sources -/

theorem headed_of_runSource {source : Text} {r : Run} (h : runSource source = .ok r) :
    r.Headed (headings source) := by
  have hstart : Run.Headed [] {} := ⟨rfl, rfl, nofun, .nil⟩
  exact hstart.sourceLines (.bare rfl ⟨.literals 0, nofun⟩) (fun _ => newline_not_mem_of_mem_lines) h

/-- **Where the declarations are placed.** Of the function headers of a source, which all stand in the
    output in their order, each but that of the entry point is declared. The declarations, one each and
    in the same order, and an empty line behind them are put right before the first header of all; with
    none to declare the output is left as it is. -/
theorem prototypes_placed {source : Text} {r : Run} (h : runSource source = .ok r) :
    lower source = .ok ⟨finish r.placed r.flags, r.state.notices⟩ ∧
    (headings source).map (·.line) = (logicalLines source).filter (fun l => l.kind = .functionSignature) ∧
    (∀ x ∈ headings source, x.Stands r.output) ∧
    (headings source).Pairwise (·.place < ·.place) ∧
    (declarations (headings source) = [] → r.placed = r.output) ∧
    (declarations (headings source) ≠ [] → ∃ first rest before indent after,
      headings source = first :: rest ∧ Blank indent ∧
      r.output = before ++ (indent ++ first.text) :: after ∧
      r.placed = before ++ declarations (headings source) ++ [[]] ++ (indent ++ first.text) :: after ∧
      ∀ x ∈ headings source, before.length ≤ x.place) := by
  have hh := headed_of_runSource h
  refine ⟨?_, Run.map_line_headings _ _ _, hh.stands, hh.ordered, fun hnone => ?_, fun hsome => ?_⟩
  · unfold lower
    rw [h]
    rfl
  · unfold Run.placed
    rw [hh.prototypes, hnone]
    rfl
  · cases hs : headings source with
    | nil =>
      rw [hs] at hsome
      exact absurd rfl hsome
    | cons first rest =>
      rw [hs] at hh hsome
      obtain ⟨indent, hi, hline⟩ := hh.stands first mem_cons_self
      obtain ⟨hlt, hget⟩ := List.getElem?_eq_some_iff.mp hline
      have hdrop : r.output.drop first.place = (indent ++ first.text) :: r.output.drop (first.place + 1) := by
        rw [drop_eq_getElem_cons hlt, hget]
      refine ⟨first, rest, r.output.take first.place, indent, r.output.drop (first.place + 1), rfl, hi, ?_, ?_,
        fun x hx => ?_⟩
      · rw [← hdrop, take_append_drop]
      · have hempty : (declarations (first :: rest)).isEmpty = false := by
          rw [isEmpty_eq_false_iff]
          exact hsome
        unfold Run.placed
        dsimp only
        rw [hh.prototypes, hempty, hh.first, ← hdrop]
        rfl
      · rw [length_take_of_le (Nat.le_of_lt hlt)]
        rcases mem_cons.mp hx with rfl | hx
        · exact Nat.le_refl _
        · exact Nat.le_of_lt (rel_of_pairwise_cons hh.ordered hx)

/-- A struct with a base, the entry point before the others, and a literal over two lines. -/
def mainFirst : Text :=
  "type Point struct \x7b\n\tShape\n\x7d\nfunc main() \x7b // entry\n\tuse(\x60one\ntwo\x60)\n\x7d\n\tfunc use(t string) \x7b\n\t\x7d\nfunc area(p Point) (int, error) \x7b\n\x7d\n"

theorem prototypes_placed_mainFirst :
    declarations (headings mainFirst)
        = (["auto use(std::string t) -> void;", "auto area(Point p) -> std::tuple<int, error>;"] : List Text) ∧
      ∃ r, runSource mainFirst = .ok r ∧ ∃ first rest before indent after,
        headings mainFirst = first :: rest ∧ Blank indent ∧
        r.output = before ++ (indent ++ first.text) :: after ∧
        r.placed = before ++ declarations (headings mainFirst) ++ [[]] ++ (indent ++ first.text) :: after ∧
        ∀ x ∈ headings mainFirst, before.length ≤ x.place := by
  have hdeclared : declarations (headings mainFirst)
      = (["auto use(std::string t) -> void;", "auto area(Point p) -> std::tuple<int, error>;"] : List Text) := by
    decide +kernel
  obtain ⟨r, hr⟩ : ∃ r, runSource mainFirst = .ok r := exists_ok_of_isOk (by decide +kernel)
  have hne : declarations (headings mainFirst) ≠ [] := by
    rw [hdeclared]
    exact cons_ne_nil _ _
  obtain ⟨_, _, _, _, _, hplaced⟩ := prototypes_placed hr
  exact ⟨hdeclared, r, hr, hplaced hne⟩

end Linewise
