/-
  What becomes of the comment behind a line of code.

  It goes to the end of the last line that is emitted. Two things can come in between: an append of
  nothing has no last line, and the line that opens a class is written again without its comment once
  the class has bases:

      type Dog struct { // a pet            class Dog : public Animal { public:
-/
import Linewise.Proofs.Prototypes

namespace Linewise

open Text List State

variable {p : Passage} {code line : Text} {draft : Option StructDraft} {i number : Nat} {lowered : Lowered}
  {output : List Text}

/-! ## 1. Laying out a comment -/

/-- A comment ends the last line laid out with it. -/
theorem layout_comment (indent : Text) (spans : Bool) (rendered : Option Text) (c : Text) :
    (layout indent spans rendered (some c) = [] ↔ spans = false ∧ rendered = some []) ∧
      (layout indent spans rendered (some c) ≠ [] →
        ∃ front line, layout indent spans rendered (some c) = front ++ [line] ∧ endsWith line c = true) := by
  cases rendered with
  | none => exact ⟨iff_of_false (cons_ne_nil _ _) nofun, fun _ => ⟨[], _, rfl, endsWith_append _ _⟩⟩
  | some text =>
    have hlayout : layout indent spans (some text) (some c)
        = appendComment c (if spans then [indent ++ text] else (lines text).map (indent ++ ·)) := rfl
    have hnil : (if spans then [indent ++ text] else (lines text).map (indent ++ ·)) = []
        ↔ spans = false ∧ some text = some [] := by
      cases spans with
      | true => exact iff_of_false (cons_ne_nil _ _) nofun
      | false =>
        refine ⟨fun h => ⟨rfl, ?_⟩, fun h => ?_⟩
        · refine congrArg some (Classical.byContradiction fun hne => ?_)
          exact lines_ne_nil hne (map_eq_nil_iff.mp h)
        · rw [Option.some.inj h.2]
          rfl
    rw [hlayout, ← hnil]
    generalize (if spans then [indent ++ text] else (lines text).map (indent ++ ·)) = ls
    rcases eq_nil_or_concat' ls with rfl | ⟨ls, last, rfl⟩
    · exact ⟨iff_of_true rfl rfl, fun h => absurd rfl h⟩
    · rw [appendComment_concat]
      refine ⟨by simp, fun _ => ⟨ls, _, rfl, ?_⟩⟩
      rw [← singleton_append, ← append_assoc]
      exact endsWith_append _ _

theorem State.finishLine_eq_nil {s : State} {kind : StatementKind} :
    (s.finishLine kind code lowered).1 = some [] → lowered.render = some [] := by
  have hfunction : ∀ s : State, (s.closeFunction code lowered.render).1 = some [] → lowered.render = some [] := by
    intro s h
    unfold closeFunction at h
    split at h
    · dsimp only at h
      split at h
      · obtain ⟨t, _, ht⟩ := Option.map_eq_some_iff.mp h
        exact absurd ht (cons_ne_nil _ _)
      · exact h
    · exact h
  intro h
  unfold finishLine at h
  split at h
  · unfold closeBrace at h
    split at h
    · split at h
      · cases h
      · exact hfunction _ h
    · exact hfunction _ h
  · exact h

theorem State.classify_ne_blank (s : State) (h : code ≠ []) : s.classify code ≠ .blank := by
  intro hblank
  rcases s.classify_cases code with ⟨hnil, _⟩ | hk | ⟨_, hk | hk⟩ | ⟨b, _, hk | hk⟩
  · exact h hnil
  · cases hk.symm.trans hblank
  · cases hk.symm.trans hblank
  · have hcode : StatementKind.ofCode code = .blank := hk.symm.trans hblank
    rcases StatementKind.ofCode_cases code with ⟨block, _, hk⟩ | ⟨hk, _⟩ | hk <;> rw [hcode] at hk <;> cases hk
  · cases hk.symm.trans hblank
  · have hinside : .inside b = StatementKind.blank := hk.symm.trans hblank
    cases b <;> cases hinside

theorem getLast?_code (l : LogicalLine) {c : Char} (h : l.code.getLast? = some c) : isBlank c = false :=
  getLast?_trimEnd h

theorem LogicalLine.finishLine_eq_nil_iff {l : LogicalLine} (hne : l.code ≠ []) {s' : State}
    (hrun : (Lower.line l.kind l.code).run (l.state.countBraces l.code) = .ok lowered s') :
    (s'.finishLine l.kind l.code lowered).1 = some [] ↔ l.kind = .assignment ∧ IdleAppend l.code := by
  have hyield := Lower.shows_line _ _ _ _ _ hrun hne (fun c => getLast?_code l) (classify_ne_blank _ hne)
  refine ⟨fun h => hyield.mp (finishLine_eq_nil h), fun h => ?_⟩
  unfold finishLine
  rw [h.1, if_neg nofun]
  exact hyield.mpr h

/-! ## 2. Passages -/

/-- A logical line with the lines of output for it, from `start` up to `stop`. -/
structure Passage where
  line : LogicalLine
  /-- it holds a literal over several lines -/
  spans : Bool
  start : Nat
  stop : Nat

namespace Passage

/-- The comment behind the line of the passage. -/
def comment? (p : Passage) : Option Text := (splitComment p.line.text).2

/-- It appends nothing, and so comes to empty text. -/
def Idle (p : Passage) : Prop := p.spans = false ∧ p.line.kind = .assignment ∧ IdleAppend p.line.code

/-- It opens a class, and `line` is its opener written again with the bases of the class. -/
def Reopens (p : Passage) (line : Text) : Prop :=
  p.line.kind = .typeDeclaration ∧
    ∃ indent name bases, Blank indent ∧ bases ≠ [] ∧ line = indent ++ classOpener name bases

/-- A passage with a comment has a last line unless it is idle, and that ends in the comment or
    opens a class again. -/
def Kept (output : List Text) (p : Passage) : Prop :=
  ∀ c ∈ p.comment?, (p.stop = p.start ↔ p.Idle) ∧
    (p.start < p.stop → ∃ line, output[p.stop - 1]? = some line ∧ (endsWith line c = true ∨ p.Reopens line))

theorem Kept.append (h : p.Kept output) (more : List Text) : p.Kept (output ++ more) := by
  intro c hc
  refine ⟨(h c hc).1, fun hlt => ?_⟩
  obtain ⟨line, hline, hend⟩ := (h c hc).2 hlt
  obtain ⟨hbound, _⟩ := List.getElem?_eq_some_iff.mp hline
  rw [getElem?_append_left hbound]
  exact ⟨line, hline, hend⟩

/-- Opening a class again changes only its own passage. -/
theorem Kept.reopenClass (h : p.Kept output)
    (hd : ∀ d ∈ draft, p.start < p.stop → d.opener = some (p.stop - 1) → p.line.kind = .typeDeclaration) :
    p.Kept (reopenClass draft output) := by
  intro c hc
  refine ⟨(h c hc).1, fun hlt => ?_⟩
  obtain ⟨line, hline, hend⟩ := (h c hc).2 hlt
  unfold Linewise.reopenClass
  split
  · rename_i name fields bases index
    split
    · exact ⟨line, hline, hend⟩
    · rename_i hbases
      rw [getElem?_modify, hline]
      by_cases hindex : index = p.stop - 1
      · refine ⟨_, congrArg some (if_pos hindex), .inr ⟨hd _ rfl hlt (congrArg some hindex), ?_⟩⟩
        exact ⟨_, name, bases, blank_indentation line, fun hnil => hbases (hnil ▸ rfl), rfl⟩
      · exact ⟨line, congrArg some (if_neg hindex), hend⟩
  · exact ⟨line, hline, hend⟩

end Passage

/-- The passages of source lines, as far as the run gets. -/
def Run.passages (r : Run) (number : Nat) : List Text → List Passage
  | [] =>
    match r.close with
    | .ok r' => (r.remainder?.map fun l => ⟨l, true, r.output.length, r'.output.length⟩).toList
    | .error _ => []
  | line :: rest =>
    match r.sourceLine number line with
    | .ok r' =>
      ((r.completed? number line).map fun l =>
        ⟨l, r.pending.isSome, r.output.length, r'.output.length⟩).toList ++ r'.passages (number + 1) rest
    | .error _ => []

/-- **The passages of a source.** -/
def passages (source : Text) : List Passage := Run.passages {} 1 (lines (stripStart ['\uFEFF'] source))

/-! ## 3. What a run keeps of its passages -/

theorem length_reopenClass (draft : Option StructDraft) (output : List Text) :
    (reopenClass draft output).length = output.length := by
  unfold reopenClass
  split
  · split
    · rfl
    · exact length_modify _ _ _
  · rfl

namespace Run

/-- The passages lie in the output one behind the other, each is kept, and one opened the struct
    under way. -/
structure Passed (ps : List Passage) (r : Run) : Prop where
  bounded : ∀ p ∈ ps, p.start ≤ p.stop ∧ p.stop ≤ r.output.length
  ordered : ps.Pairwise (·.stop ≤ ·.start)
  kept : ∀ p ∈ ps, p.Kept r.output
  opener : ∀ d ∈ r.state.struct, ∃ p ∈ ps, p.line.kind = .typeDeclaration ∧ p.start < p.stop ∧
    d.opener = some p.start

variable {r r' : Run} {ps : List Passage} {l : LogicalLine} {indent : Text} {spans : Bool}

theorem Passed.eq_of_shared (h : r.Passed ps) {q : Passage} (hp : p ∈ ps) (hq : q ∈ ps)
    (hip : p.start ≤ i ∧ i < p.stop) (hiq : q.start ≤ i ∧ i < q.stop) : p = q := by
  obtain ⟨m, hm, rfl⟩ := getElem_of_mem hp
  obtain ⟨n, hn, rfl⟩ := getElem_of_mem hq
  have hord := pairwise_iff_getElem.mp h.ordered
  rcases Nat.lt_trichotomy m n with hlt | rfl | hlt
  · have := hord m n hm hn hlt
    omega
  · rfl
  · have := hord n m hn hm hlt
    omega

theorem Passed.kept_reopenClass (h : r.Passed ps) (hd : ∀ d ∈ draft, d ∈ r.state.struct) :
    ∀ p ∈ ps, p.Kept (reopenClass draft r.output) := by
  intro p hp
  refine (h.kept p hp).reopenClass fun d hmem hlt hopener => ?_
  obtain ⟨q, hq, hkind, hqlt, hstart⟩ := h.opener d (hd d hmem)
  have hindex : p.stop - 1 = q.start := Option.some.inj (hopener.symm.trans hstart)
  rw [h.eq_of_shared hp hq (i := q.start) (by omega) (by omega)]
  exact hkind

theorem Passed.append (h : r.Passed ps) (hs : r'.state.struct = r.state.struct)
    (ho : ∃ ls, r'.output = r.output ++ ls) : r'.Passed ps := by
  obtain ⟨ls, ho⟩ := ho
  refine ⟨fun p hp => ⟨(h.bounded p hp).1, ?_⟩, h.ordered, fun p hp => ?_, fun d hd => h.opener d (hs ▸ hd)⟩
  · rw [ho, length_append]
    exact Nat.le_trans (h.bounded p hp).2 (Nat.le_add_right _ _)
  · rw [ho]
    exact (h.kept p hp).append ls

theorem Passed.concat (h : r.Passed ps) (hd : ∀ d ∈ draft, d ∈ r.state.struct) {added : List Text}
    (ho : r'.output = reopenClass draft r.output ++ added) (hstart : p.start = r.output.length)
    (hstop : p.stop = r'.output.length) (hlast : ∀ c ∈ p.comment?, (added = [] ↔ p.Idle) ∧
      (added ≠ [] → ∃ front line, added = front ++ [line] ∧ endsWith line c = true))
    (hopener : ∀ d ∈ r'.state.struct, ∃ q ∈ ps ++ [p], q.line.kind = .typeDeclaration ∧ q.start < q.stop ∧
      d.opener = some q.start) : r'.Passed (ps ++ [p]) := by
  have hlen : r'.output.length = r.output.length + added.length := by
    rw [ho, length_append, length_reopenClass]
  have hnew : p.Kept r'.output := by
    intro c hc
    obtain ⟨hidle, hend⟩ := hlast c hc
    have hnil : p.stop = p.start ↔ added = [] := by
      rw [hstart, hstop, hlen, ← length_eq_zero_iff]
      omega
    refine ⟨hnil.trans hidle, fun hlt => ?_⟩
    obtain ⟨front, line, hadded, hline⟩ := hend fun hempty => Nat.ne_of_gt hlt (hnil.mpr hempty)
    refine ⟨line, ?_, .inl hline⟩
    rw [hstop, ho, hadded, ← append_assoc, length_append, length_singleton, Nat.add_sub_cancel]
    exact getElem?_concat_length
  refine ⟨fun q hq => ?_, ?_, fun q hq => ?_, hopener⟩
  · rcases mem_append.mp hq with hq | hq
    · have := h.bounded q hq
      omega
    · rw [mem_singleton.mp hq]
      omega
  · refine pairwise_append.mpr ⟨h.ordered, pairwise_singleton _ _, fun q hq q' hq' => ?_⟩
    rw [mem_singleton.mp hq', hstart]
    exact (h.bounded q hq).2
  · rcases mem_append.mp hq with hq | hq
    · rw [ho]
      exact (h.kept_reopenClass hd q hq).append added
    · rw [mem_singleton.mp hq]
      exact hnew

theorem Passed.opener_codeLine (h : r.Passed ps) (hst : r.Steady) (hi : Blank indent) {comment : Option Text}
    (hrun : r.codeLine indent code comment spans = .ok r') :
    ∀ d ∈ r'.state.struct, (∃ q ∈ ps, q.line.kind = .typeDeclaration ∧ q.start < q.stop ∧
        d.opener = some q.start) ∨
      ((r.state.countBraces code).classify code = .typeDeclaration ∧ r.output.length < r'.output.length ∧
        d.opener = some r.output.length) := by
  intro d hd
  obtain ⟨⟨i, line, hi, hline, _⟩, ⟨d₀, hd₀, hsame⟩ | ⟨hk, hnew⟩⟩ := hst.struct_codeLine hi hrun hd
  · obtain ⟨q, hq, hqk, hlt, hopener⟩ := h.opener d₀ hd₀
    exact .inl ⟨q, hq, hqk, hlt, hsame.trans hopener⟩
  · cases hi.symm.trans hnew
    exact .inr ⟨hk, (List.getElem?_eq_some_iff.mp hline).1, hnew⟩

theorem Passed.logicalLine (h : r.Passed ps) (hstate : r.state = l.state) (hst : r.Steady) (hi : Blank indent)
    (hrun : r.logicalLine indent l.text spans = .ok r') :
    r'.Passed (ps ++ [⟨l, spans, r.output.length, r'.output.length⟩]) := by
  obtain ⟨hempty, rfl⟩ | ⟨hcode, hrun⟩ := logicalLine_eq_ok hrun
  · -- no code: the comment is a line of its own
    have hnone : ∀ d ∈ (none : Option StructDraft), d ∈ r.state.struct := nofun
    refine h.concat hnone rfl rfl rfl (fun c hc => ?_) fun d hd => ?_
    · have hkind : l.kind = .blank := by
        exact if_pos (isEmpty_iff.mpr hempty)
      refine ⟨iff_of_false (cons_ne_nil _ _) fun hidle => ?_, fun _ => ⟨[], _, rfl, ?_⟩⟩
      · cases hkind.symm.trans hidle.2.1
      · rw [show (splitComment l.text).2 = some c from hc]
        exact endsWith_append _ _
    · obtain ⟨q, hq, hopener⟩ := h.opener d hd
      exact ⟨q, mem_append_left _ hq, hopener⟩
  · have hrun : r.codeLine indent l.code (splitComment l.text).2 spans = .ok r' := hrun
    have hopener := h.opener_codeLine hst hi hrun
    obtain ⟨lowered, s', hline, hr'⟩ := codeLine_eq_ok hrun
    have hkind : (r.state.countBraces l.code).classify l.code = l.kind := by
      rw [hstate]
      rfl
    rw [hkind] at hline hr' hopener
    rw [hstate] at hline
    refine h.concat (fun d hd => ?_) (congrArg Run.output hr') rfl rfl (fun c hc => ?_) fun d hd => ?_
    · split at hd
      · exact hd
      · cases hd
    · obtain ⟨hnil, hlast⟩ := layout_comment indent spans (s'.finishLine l.kind l.code lowered).1 c
      rw [show (splitComment l.text).2 = some c from hc]
      exact ⟨hnil.trans (and_congr Iff.rfl (l.finishLine_eq_nil_iff hcode hline)), hlast⟩
    · rcases hopener d hd with ⟨q, hq, hopened⟩ | hopened
      · exact ⟨q, mem_append_left _ hq, hopened⟩
      · exact ⟨_, mem_append_right _ mem_cons_self, hopened⟩

/-! ## 4. Source lines -/

theorem struct_of_completed? (h : r.completed? number line = some l) : l.state.struct = r.state.struct := by
  have hreads := r.reads number line
  rw [h] at hreads
  generalize r.sourceLine number line = result at hreads
  cases hreads <;> rfl

theorem struct_of_remainder? (h : r.remainder? = some l) : l.state.struct = r.state.struct := by
  obtain ⟨raw, _, rfl⟩ := Option.map_eq_some_iff.mp h
  rfl

theorem struct_of_waits (hdone : r.completed? number line = none) (hrun : r.sourceLine number line = .ok r') :
    r'.state.struct = r.state.struct := by
  have hreads := r.reads number line
  rw [hdone, hrun] at hreads
  cases hreads with
  | inComment =>
    unfold commentLine
    split <;> rfl
  | _ => rfl

theorem struct_noticeOpenBlocks (s : State) : s.noticeOpenBlocks.struct = s.struct := by
  have hfold : ∀ (frames : List BlockFrame) (s : State),
      (frames.foldl (fun s f => s.notice (f.block.name ++ " block not closed before end of input")) s).struct
        = s.struct := by
    intro frames
    induction frames with
    | nil => exact fun _ => rfl
    | cons f frames ih => exact fun s => ih _
  exact hfold s.blocks s

theorem Passed.arrive (h : r.Passed ps) (hs : l.state.struct = r.state.struct) : (r.arrive l).Passed ps :=
  h.append hs ⟨[], (append_nil _).symm⟩

theorem Passed.sourceLine (h : r.Passed ps) (hl : r.Layered) (hrun : r.sourceLine number line = .ok r') :
    r'.Passed (ps ++ ((r.completed? number line).map fun l =>
      ⟨l, r.pending.isSome, r.output.length, r'.output.length⟩).toList) := by
  cases hdone : r.completed? number line with
  | none =>
    obtain ⟨r₁, hwait, w⟩ := r.sourceLine_waits hdone
    cases hwait.symm.trans hrun
    rw [Option.map_none, Option.toList_none, append_nil]
    exact h.append (struct_of_waits hdone hrun) w.output
  | some l =>
    obtain ⟨_, hline⟩ := sourceLine_completes hdone
    obtain ⟨hst, hi, _⟩ := hl.arrive hdone
    rw [hline] at hrun
    exact (h.arrive (struct_of_completed? hdone)).logicalLine rfl hst hi hrun

theorem Passed.close (h : r.Passed ps) (hl : r.Layered) (hrun : r.close = .ok r') :
    r'.Passed (ps ++ (r.remainder?.map fun l => ⟨l, true, r.output.length, r'.output.length⟩).toList) := by
  cases hrest : r.remainder? with
  | none =>
    cases (close_waits hrest).2.symm.trans hrun
    rw [Option.map_none, Option.toList_none, append_nil]
    exact h.append (struct_noticeOpenBlocks _) ⟨[], (append_nil _).symm⟩
  | some l =>
    obtain ⟨hst, hi⟩ := hl.arrive_remainder hrest
    obtain ⟨r₁, hline, rfl⟩ := close_eq_ok hrest hrun
    have hadded := (h.arrive (struct_of_remainder? hrest)).logicalLine rfl hst hi hline
    exact hadded.append (struct_noticeOpenBlocks _) ⟨[], (append_nil _).symm⟩

theorem Passed.sourceLines {ls : List Text} : ∀ {r : Run} {ps : List Passage} {number : Nat}, r.Passed ps →
    r.Layered → (r.sourceLines number ls).bind Run.close = .ok r' →
      r'.Passed (ps ++ r.passages number ls) ∧ (r.passages number ls).map (·.line) = r.logicalLines number ls := by
  induction ls with
  | nil =>
    intro r ps number h hl hrun
    change r.close = .ok r' at hrun
    unfold passages logicalLines
    rw [hrun]
    refine ⟨h.close hl hrun, ?_⟩
    cases r.remainder? <;> rfl
  | cons line rest ih =>
    intro r ps number h hl hrun
    obtain ⟨r₁, hline, hrun⟩ := exists_sourceLine_of_cons hrun
    unfold passages logicalLines
    rw [hline]
    obtain ⟨hpassed, hlines⟩ := ih (h.sourceLine hl hline) (hl.sourceLine hline) hrun
    rw [← append_assoc, map_append, hlines]
    refine ⟨hpassed, congrArg (· ++ _) ?_⟩
    cases r.completed? number line <;> rfl

/-! ## 5. Sources -/

/-- Where a line of output stands once the declarations of the functions are in place. -/
def shift (r : Run) (i : Nat) : Nat :=
  if r.state.prototypes = [] ∨ i < r.firstFunction.getD r.output.length then i
  else i + (r.state.prototypes.length + 1)

theorem shift_lt_shift (r : Run) {j : Nat} (h : i < j) : r.shift i < r.shift j := by
  unfold shift
  split <;> split
  · exact h
  · omega
  · rename_i hi hj
    exact absurd (hj.imp_right (Nat.lt_trans h)) hi
  · omega

theorem getElem?_placed (r : Run) (hi : i < r.output.length) : r.placed[r.shift i]? = r.output[i]? := by
  unfold placed shift
  by_cases hnone : r.state.prototypes = []
  · rw [if_pos (isEmpty_iff.mpr hnone), if_pos (.inl hnone)]
  · rw [if_neg (mt List.isEmpty_iff.mp hnone)]
    generalize r.firstFunction.getD r.output.length = first
    by_cases hlt : i < first
    · -- in front of the declarations
      rw [if_pos (.inr hlt), append_assoc, append_assoc, getElem?_append_left, getElem?_take,
        if_pos hlt]
      rw [length_take]
      omega
    · have hfront : (r.output.take first ++ r.state.prototypes ++ [[]]).length
          = first + (r.state.prototypes.length + 1) := by
        rw [length_append, length_append, length_take_of_le (by omega), length_singleton,
          Nat.add_assoc]
      rw [if_neg (not_or.mpr ⟨hnone, hlt⟩), getElem?_append_right (by omega), hfront, Nat.add_sub_add_right,
        getElem?_drop, Nat.add_sub_cancel' (Nat.le_of_not_lt hlt)]

end Run

theorem passed_of_runSource {source : Text} {r : Run} (h : runSource source = .ok r) :
    r.Passed (passages source) ∧ (passages source).map (·.line) = logicalLines source := by
  have hnone (p : Passage) (hp : p ∈ []) : False := not_mem_nil hp
  have hstart : Run.Passed [] {} :=
    ⟨fun p hp => (hnone p hp).elim, .nil, fun p hp => (hnone p hp).elim, fun _ hd => nomatch hd⟩
  exact hstart.sourceLines (.bare rfl ⟨.literals 0, nofun⟩) h

/-- **Which comments are kept.** Each logical line of a source has its own lines in the output that
    is handed on, in the order of the source. Of a line with a comment, and with or without code before
    it, there are none if and only if it appends nothing; else the last of them ends in the comment, or it
    is the opener of a class that was written again with its bases. -/
theorem comments_kept {source : Text} {r : Run} (h : runSource source = .ok r) :
    lower source = .ok ⟨finish r.placed r.flags, r.state.notices⟩ ∧
    (passages source).map (·.line) = logicalLines source ∧
    (passages source).Pairwise (·.stop ≤ ·.start) ∧
    (∀ i j, i < j → r.shift i < r.shift j) ∧
    ∀ p ∈ passages source, p.start ≤ p.stop ∧ ∀ c ∈ p.comment?,
      (p.stop = p.start ↔ p.Idle) ∧
      (¬ p.Idle → ∃ line, r.placed[r.shift (p.stop - 1)]? = some line ∧
        (endsWith line c = true ∨ p.Reopens line)) := by
  obtain ⟨hpassed, hlines⟩ := passed_of_runSource h
  refine ⟨?_, hlines, hpassed.ordered, fun _ _ => r.shift_lt_shift, fun p hp => ?_⟩
  · unfold lower
    rw [h]
    rfl
  · have hbound := hpassed.bounded p hp
    refine ⟨hbound.1, fun c hc => ?_⟩
    obtain ⟨hidle, hlast⟩ := hpassed.kept p hp c hc
    refine ⟨hidle, fun hne => ?_⟩
    have hlt : p.start < p.stop := Nat.lt_of_le_of_ne hbound.1 fun heq => hne (hidle.mp heq.symm)
    obtain ⟨line, hline, hend⟩ := hlast hlt
    refine ⟨line, ?_, hend⟩
    rw [r.getElem?_placed (by omega)]
    exact hline

/-- Comments behind the opener of a class, a header, a literal over two lines, and two statements for
    one. -/
def remarked : Text :=
  "type P struct \x7b // where\n\x7d\nfunc f() \x7b // declared\n\tt := \x60a\nb\x60 // both\n\tx, y := 1, 2 // apart\n\x7d\n"

theorem comments_kept_remarked :
    (passages remarked).filterMap Passage.comment?
        = (["// where", "// declared", "// both", "// apart"] : List Text) ∧
      ∃ r, runSource remarked = .ok r ∧ ∀ p ∈ passages remarked, ∀ c ∈ p.comment?,
        ∃ line, r.placed[r.shift (p.stop - 1)]? = some line ∧ (endsWith line c = true ∨ p.Reopens line) := by
  have hwritten : ∀ p ∈ passages remarked, p.stop ≠ p.start := by decide +kernel
  refine ⟨by decide +kernel, ?_⟩
  obtain ⟨r, hrun⟩ : ∃ r, runSource remarked = .ok r := exists_ok_of_isOk (by decide +kernel)
  obtain ⟨_, _, _, _, hkept⟩ := comments_kept hrun
  refine ⟨r, hrun, fun p hp c hc => ?_⟩
  obtain ⟨hidle, hlast⟩ := (hkept p hp).2 c hc
  exact hlast fun h => hwritten p hp (hidle.mpr h)

/-- The comment stands behind code in the source, and no line of the output ends in it. -/
def Loses (source c : Text) : Prop :=
  ∃ r, runSource source = .ok r ∧ (∃ p ∈ passages source, p.comment? = some c ∧ p.line.code ≠ []) ∧
    ∀ line ∈ r.placed, endsWith line c = false

/-- An append of nothing, with a comment. -/
def idleRemark : Text := "func main() \x7b\n\txs = append(xs) // keep\n\x7d\n"

/-- A struct with an embedded type, with a comment behind its opener. -/
def baseRemark : Text := "type Dog struct \x7b // a pet\n\tAnimal\n\tName string\n\x7d\n"

theorem comments_lost : Loses idleRemark "// keep" ∧ Loses baseRemark "// a pet" := by
  have lost : ∀ {source c : Text}, (∃ p ∈ passages source, p.comment? = some c ∧ p.line.code ≠ []) →
      (runSource source).toOption.any (fun r => r.placed.all fun line => !endsWith line c) = true →
        Loses source c := by
    intro source c hp hrun
    cases hr : runSource source with
    | error halt =>
      rw [hr] at hrun
      cases hrun
    | ok r =>
      rw [hr] at hrun
      refine ⟨r, hr, hp, fun line hline => ?_⟩
      have hends := all_eq_true.mp (show r.placed.all _ = true from hrun) line hline
      rwa [Bool.not_eq_true'] at hends
  exact ⟨lost (by decide +kernel) (by decide +kernel), lost (by decide +kernel) (by decide +kernel)⟩

end Linewise
