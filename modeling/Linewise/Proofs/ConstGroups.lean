/-
  The entries of a group of constants, one after the other.

      const (
          A, _ T = iota, "a"      const T A = 0;
          B, C                    const T B = 1;
                                  const T C = "a";
      )

  An entry without expressions repeats the type and the expressions of the last entry with some, and
  `iota` is the number of entries in front.
-/
import Linewise.Proofs.ConstEntries
import Linewise.Proofs.HeaderLine
import Linewise.Proofs.TrailingComment

namespace Linewise

open Text List StatementKind

variable {s gap line symbol opening replacement : Text} {e : ConstEntry} {r : Run}
  {es before : List ConstEntry} {depth : Nat} {c : Char} {ls : List Text} {l : GroupLine}
  {group : List GroupLine}

/-! ## 1. Groups as they are meant -/

/-- The last explicit entry. -/
def latest (es : List ConstEntry) : Option ConstEntry := es.reverse.find? (·.isExplicit)

/-- The constants of an entry: one for each name that is not blank, with the type and expression of
    the last explicit entry, and the number of entries in front for `iota`. -/
def constants (before : List ConstEntry) (e : ConstEntry) : List Text :=
  match latest (before ++ [e]) with
  | none => []
  | some t => ((e.names.zip (t.exprs.map trim)).filter (·.1 != ("_" : Text))).map fun (name, expr) =>
      "const " ++ t.cppType?.getD "auto" ++ " " ++ name ++ " = " ++
        replaceWord expr "iota" (decimal before.length) ++ ";"

/-- There are as many names as the last explicit entry, up to this one, has expressions. A first
    entry repeats only itself. -/
def Fits (before : List ConstEntry) (e : ConstEntry) : Prop :=
  ∃ t ∈ latest (before ++ [e]), t.exprs.length = e.names.length

instance (before : List ConstEntry) (e : ConstEntry) : Decidable (Fits before e) :=
  decidable_of_iff ((latest (before ++ [e])).any (·.exprs.length == e.names.length) = true)
    (by simp [Fits, Option.any_eq_true])

/-- Each entry fits behind those in front of it. -/
def FitAll (before : List ConstEntry) : List ConstEntry → Prop
  | [] => True
  | e :: es => Fits before e ∧ FitAll (before ++ [e]) es

instance decidableFitAll : (before es : List ConstEntry) → Decidable (FitAll before es)
  | _, [] => inferInstanceAs (Decidable True)
  | before, e :: es =>
    have := decidableFitAll (before ++ [e]) es
    inferInstanceAs (Decidable (Fits before e ∧ FitAll (before ++ [e]) es))

/-- A line of a group, and the entry on it if there is one. -/
structure GroupLine where
  line : Text
  entry : Option ConstEntry
  deriving DecidableEq, Repr

/-- The line holds its entry and nothing else. A line without entry is blank or a comment. -/
def GroupLine.Reads (l : GroupLine) : Prop :=
  match l.entry with
  | some e => trim l.line = e.text ∧ e.Valid
  | none => Blank l.line ∨ startsWith (trim l.line) "//" = true

instance : (l : GroupLine) → Decidable l.Reads
  | ⟨line, some e⟩ => inferInstanceAs (Decidable (trim line = e.text ∧ e.Valid))
  | ⟨line, none⟩ => inferInstanceAs (Decidable (Blank line ∨ startsWith (trim line) "//" = true))

/-- The entries among the lines. -/
def entries (ls : List GroupLine) : List ConstEntry := ls.filterMap (·.entry)

/-- The lines that are written for a line of a group, behind the given entries. -/
def GroupLine.output (before : List ConstEntry) (l : GroupLine) : List Text :=
  match l.entry with
  | some e => (constants before e).map (indentation l.line ++ ·)
  | none => [trimEnd l.line]

/-- What the lines become behind the entries that came before. -/
def groupOutput (before : List ConstEntry) : List GroupLine → List Text
  | [] => []
  | l :: ls => l.output before ++ groupOutput (before ++ l.entry.toList) ls

/-! ## 2. Constants as lines -/

theorem mem_replaceFrom {skip : Nat} {before : Option Char}
    (h : c ∈ replaceFrom symbol replacement skip before s) : c ∈ s ∨ c ∈ symbol ∨ c ∈ replacement := by
  induction s generalizing skip before with
  | nil =>
    cases h
  | cons d s ih =>
    have hrest {skip : Nat} {before : Option Char} (h : c ∈ replaceFrom symbol replacement skip before s) :
        c ∈ d :: s ∨ c ∈ symbol ∨ c ∈ replacement := (ih h).imp_left (mem_cons_of_mem d)
    cases skip with
    | succ skip => exact hrest h
    | zero =>
      unfold replaceFrom at h
      split at h
      · rcases mem_append.mp h with h | h
        · split at h
          · exact .inr (.inr h)
          · exact .inr (.inl h)
        · exact hrest h
      · rcases mem_cons.mp h with rfl | h
        · exact .inl mem_cons_self
        · exact hrest h

theorem newline_not_mem_replaceWord (hs : '\n' ∉ s) (hsymbol : '\n' ∉ symbol) (hr : '\n' ∉ replacement) :
    '\n' ∉ replaceWord s symbol replacement := fun h =>
  (mem_replaceFrom h).elim hs fun h => h.elim hsymbol hr

theorem lines_unlines (hne : ls ≠ [])
    (h : ∀ l ∈ ls, '\n' ∉ l ∧ ∃ c ∈ l.getLast?, c ≠ '\r') : lines (unlines ls) = ls := by
  induction ls with
  | nil => exact absurd rfl hne
  | cons l ls ih =>
    obtain ⟨hn, c, hc, hr⟩ := h l mem_cons_self
    obtain ⟨a, rfl⟩ := getLast?_eq_some_iff.mp hc
    have hcn : c ≠ '\n' := fun e => hn (by simp [e])
    have hline : lines (a ++ [c]) = [a ++ [c]] := lines_eq_singleton (by simp) hn
    cases ls with
    | nil => rw [unlines_singleton, hline]
    | cons q qs =>
      rw [unlines_cons_cons, lines_append hcn hr, hline,
        ih (cons_ne_nil q qs) (forall_mem_cons.mp h).2]
      rfl

theorem latest_concat (before : List ConstEntry) (e : ConstEntry) :
    latest (before ++ [e]) = if e.isExplicit then some e else latest before := by
  unfold latest
  rw [reverse_append, reverse_singleton, singleton_append, find?_cons]
  cases e.isExplicit <;> rfl

theorem map_template_latest (before : List ConstEntry) (e : ConstEntry) :
    (latest (before ++ [e])).map ConstEntry.template
      = if e.isExplicit then some e.template else (latest before).map ConstEntry.template := by
  rw [latest_concat]
  cases e.isExplicit <;> rfl

theorem mem_of_latest {t : ConstEntry} (h : t ∈ latest es) : t ∈ es :=
  mem_reverse.mp (mem_of_find?_eq_some h)

theorem constants_eq {t : ConstEntry} (he : e.Valid) (ht : latest (before ++ [e]) = some t) :
    constants before e = constLines e.names t.template before.length := by
  unfold constants constLines
  rw [ht]
  rw [filter_congr fun p hp => ?_]
  · rfl
  · have hname : isIdentifier p.1 = true := (he.names p.1 (of_mem_zip hp).1).1
    unfold isDiscard
    rw [trim_eq_self_of_solid (solid_of_isIdentifier hname)]
    rfl

namespace ConstEntry.Valid

variable {e : ConstEntry} (h : e.Valid)

include h

theorem newline_not_mem_type : '\n' ∉ e.type := by
  intro hm
  have hleft : '\n' ∈ e.left := mem_joinWith_of_mem (p := e.last ++ e.type) (by simp) (by simp [hm])
  refine h.oneLine ?_
  unfold text
  split
  · exact mem_append_left _ hleft
  · exact hleft

theorem newline_not_mem_expr {x : Text} (hx : x ∈ e.exprs) : '\n' ∉ x := by
  intro hm
  have hright : '\n' ∈ e.right := mem_joinWith_of_mem hx hm
  have hexplicit : e.isExplicit = true := by
    unfold isExplicit
    rw [Bool.not_eq_true', isEmpty_eq_false_iff]
    exact ne_nil_of_mem hx
  refine h.oneLine ?_
  unfold text
  rw [if_pos hexplicit]
  exact mem_append_right _ (mem_cons_of_mem _ hright)

theorem line_of_mem_constLines {names : List Text} (hnames : ∀ n ∈ names, '\n' ∉ n) {index : Nat} {l : Text}
    (hl : l ∈ constLines names e.template index) : '\n' ∉ l ∧ ∃ c ∈ l.getLast?, c ≠ '\r' := by
  obtain ⟨p, hp, rfl⟩ := mem_map.mp hl
  obtain ⟨hname, hexpr⟩ := of_mem_zip (mem_filter.mp hp).1
  obtain ⟨x, hx, hpx⟩ := mem_map.mp hexpr
  have htype : '\n' ∉ e.cppType?.getD "auto" := by
    unfold cppType?
    split
    · decide
    · exact GoType.newline_not_mem_cppType fun hm => h.newline_not_mem_type (mem_of_mem_trim hm)
  have hvalue : '\n' ∉ replaceWord p.2 "iota" (decimal index) := by
    refine newline_not_mem_replaceWord ?_ (by decide) (not_mem_decimal rfl index)
    rw [← hpx]
    exact fun hm => h.newline_not_mem_expr hx (mem_of_mem_trim hm)
  refine ⟨?_, ';', getLast?_concat, by decide⟩
  have hhead : '\n' ∉ "const " ++ e.cppType?.getD "auto" ++ " " :=
    not_mem_append (not_mem_append (by decide) htype) (by decide)
  have hbound : '\n' ∉ "const " ++ e.cppType?.getD "auto" ++ " " ++ p.1 ++ " = " :=
    not_mem_append (not_mem_append hhead (hnames p.1 hname)) (by decide)
  exact not_mem_append (not_mem_append hbound hvalue) (by decide)

end ConstEntry.Valid

theorem layout_constLowered (h : ∀ l ∈ ls, '\n' ∉ l ∧ ∃ c ∈ l.getLast?, c ≠ '\r') (indent : Text) :
    layout indent false (constLowered ls).render none = ls.map (indent ++ ·) := by
  cases ls with
  | nil => rfl
  | cons l ls =>
    show (lines (unlines (l :: ls))).map (indent ++ ·) = _
    rw [lines_unlines (cons_ne_nil l ls) h]

/-! ## 3. Lines of a group -/

section Entries

variable {r : Run} {line t : Text} {number : Nat} (ht : trim line = t) (hplain : Plain t) (hne : t ≠ [])
  (hp : r.pending = none) (hb : r.state.block? ≠ some .blockComment)
  (hclass : (r.stateAt number t).classify t = .constDeclaration)

include ht hplain hne hp hb hclass

theorem Run.sourceLine_const {x : ConstEntry} (he : e.Valid) (hx : x.Valid)
    (hentry : constEntryOf (r.stateAt number t).constGroup t = .ok (e.names, x.template)) :
    r.sourceLine number line = .ok { r with
      state := State.noteOpener { r.stateAt number t with
        consts := ⟨(r.stateAt number t).constGroup.index + 1, some x.template⟩ } r.output.length
      output := r.output ++ (constLines e.names x.template (r.stateAt number t).constGroup.index).map
        (indentation line ++ ·) } := by
  have hnames : ∀ n ∈ e.names, '\n' ∉ n := fun n hn => not_mem_of_isIdentifier (he.names n hn).1 rfl
  rw [Run.sourceLine_kind number ht hplain hne hp hb hclass rfl,
    show (Lower.line .constDeclaration t).run (r.stateAt number t) = _ from Lower.constDeclaration_ok hentry,
    ← layout_constLowered fun l hl => hx.line_of_mem_constLines hnames hl]
  rfl

theorem Run.sourceLine_const_fault {f : Fault}
    (hentry : constEntryOf (r.stateAt number t).constGroup t = .error f) :
    r.sourceLine number line = .error ⟨number, .fault f⟩ := by
  obtain ⟨s', hrun, hnumber⟩ := Lower.constDeclaration_error hentry
  rw [Run.sourceLine_kind number ht hplain hne hp hb hclass rfl,
    show (Lower.line .constDeclaration t).run (r.stateAt number t) = _ from hrun]
  exact congrArg (fun n => Except.error (⟨n, .fault f⟩ : Halt)) hnumber

end Entries

/-- Inside a group that the given entries have come by. -/
structure InGroup (depth : Nat) (before : List ConstEntry) (r : Run) : Prop where
  pending : r.pending = none
  blocks : r.state.blocks = [⟨.constGroup, depth⟩]
  consts : r.state.consts = ⟨before.length, (latest before).map ConstEntry.template⟩
  valid : ∀ e ∈ before, e.Valid

namespace InGroup

variable {depth : Nat} {before : List ConstEntry} {r : Run} (h : InGroup depth before r)

include h

theorem block?_eq : r.state.block? = some .constGroup := by
  unfold State.block?
  rw [h.blocks]
  rfl

theorem block?_ne : r.state.block? ≠ some .blockComment := by
  rw [h.block?_eq]
  decide

theorem classify_eq {t : Text} (number : Nat) (hne : t ≠ []) (hplain : Plain t) :
    (r.stateAt number t).classify t
      = if startsWith t ")" then .blockClose .constGroup else .constDeclaration := by
  have hb : (r.stateAt number t).block? = some .constGroup := h.block?_eq
  have hcloses (d : Nat) : (r.stateAt number t).closesBlock t d
      = startsWith t ")" := by
    unfold State.closesBlock
    rw [show (r.stateAt number t).blocks = _ from h.blocks]
    rfl
  unfold State.classify
  rw [if_neg (by simpa using hne), hb]
  simp only [hplain.not_startsWith_comment, hcloses]
  rfl

theorem constGroup_eq (number : Nat) (t : Text) :
    (r.stateAt number t).constGroup = ⟨before.length, (latest before).map ConstEntry.template⟩ :=
  (if_pos h.block?_eq).trans h.consts

theorem classify_entry (number : Nat) (he : e.Valid) :
    (r.stateAt number e.text).classify e.text = .constDeclaration := by
  rw [h.classify_eq number he.text_ne_nil he.plain,
    show startsWith e.text ")" = false from he.not_startsWith rfl [], if_neg Bool.false_ne_true]

/-- The constants of an entry are written. -/
theorem entry_step (number : Nat) (hline : trim line = e.text) (he : e.Valid) (hfit : Fits before e) :
    ∃ r', r.sourceLine number line = .ok r' ∧ InGroup depth (before ++ [e]) r' ∧
      r'.output = r.output ++ (constants before e).map (indentation line ++ ·) := by
  obtain ⟨t, ht, hlen⟩ := hfit
  have hvalid : ∀ x ∈ before ++ [e], x.Valid :=
    forall_mem_append.mpr ⟨h.valid, forall_mem_singleton.mpr he⟩
  have htemplate := map_template_latest before e
  rw [Option.mem_def.mp ht, Option.map_some] at htemplate
  have hgroup := h.constGroup_eq number e.text
  have hentry : constEntryOf (r.stateAt number e.text).constGroup e.text = .ok (e.names, t.template) := by
    rw [hgroup]
    refine he.constEntryOf_eq ?_ htemplate.symm ?_
    · rw [he.stripStart_text, he.solid]
    · rw [← hlen]
      exact length_map _
  refine ⟨_, Run.sourceLine_const hline he.plain he.text_ne_nil h.pending h.block?_ne
    (h.classify_entry number he) he (hvalid t (mem_of_latest ht)) hentry, ⟨h.pending, h.blocks, ?_, hvalid⟩, ?_⟩
  · rw [hgroup, Option.mem_def.mp ht, length_append]
    rfl
  · rw [hgroup, constants_eq he ht]

theorem quiet_step (number : Nat) (hline : Blank line ∨ startsWith (trim line) "//" = true) :
    ∃ r', r.sourceLine number line = .ok r' ∧ InGroup depth before r' ∧ r'.output = r.output ++ [trimEnd line] := by
  rcases hline with hblank | hremark
  · have hnil : trim line = [] := trim_of_blank hblank
    have hend : trimEnd line = [] := trimEnd_append_of_blank (s := []) hblank
    refine ⟨_, Run.sourceLine_plain number hnil (by decide) h.pending h.block?_ne,
      ⟨h.pending, h.blocks, h.consts, h.valid⟩, ?_⟩
    rw [hend]
    rfl
  · exact ⟨_, Run.sourceLine_remark number hremark h.pending h.block?_ne,
      ⟨h.pending, h.blocks, h.consts, h.valid⟩, rfl⟩

theorem line_step (number : Nat) (hl : l.Reads) (hfit : ∀ e ∈ l.entry, Fits before e) :
    ∃ r', r.sourceLine number l.line = .ok r' ∧ InGroup depth (before ++ l.entry.toList) r' ∧
      r'.output = r.output ++ l.output before := by
  unfold GroupLine.Reads at hl
  unfold GroupLine.output
  cases hentry : l.entry with
  | none =>
    rw [hentry] at hl
    rw [Option.toList_none, append_nil]
    exact h.quiet_step number hl
  | some e =>
    rw [hentry] at hl
    exact h.entry_step number hl.1 hl.2 (hfit e hentry)

end InGroup

theorem entries_cons (l : GroupLine) (ls : List GroupLine) : entries (l :: ls) = l.entry.toList ++ entries ls := by
  unfold entries
  rw [filterMap_cons]
  cases l.entry <;> rfl

theorem FitAll.of_append {fs : List ConstEntry} (h : FitAll before (es ++ fs)) : FitAll (before ++ es) fs := by
  induction es generalizing before with
  | nil => rwa [append_nil]
  | cons e es ih =>
    have := ih h.2
    rwa [append_assoc, singleton_append] at this

theorem InGroup.lines_run (hreads : ∀ l ∈ group, l.Reads) :
    ∀ {before : List ConstEntry} {r : Run} (number : Nat), InGroup depth before r → FitAll before (entries group) →
      ∃ r', r.sourceLines number (group.map (·.line)) = .ok r' ∧ InGroup depth (before ++ entries group) r' ∧
        r'.output = r.output ++ groupOutput before group := by
  induction group with
  | nil =>
    intro before r number h _
    exact ⟨r, rfl, by simpa [entries] using h, by simp [groupOutput]⟩
  | cons l group ih =>
    intro before r number h hfit
    rw [entries_cons] at hfit
    have hone : ∀ e ∈ l.entry, Fits before e := by
      intro e he
      rw [Option.mem_def.mp he] at hfit
      exact hfit.1
    obtain ⟨r₁, hrun₁, hin₁, hout₁⟩ := h.line_step number (hreads l mem_cons_self) hone
    obtain ⟨r₂, hrun₂, hin₂, hout₂⟩ :=
      ih (forall_mem_cons.mp hreads).2 (number + 1) hin₁ hfit.of_append
    refine ⟨r₂, ?_, ?_, ?_⟩
    · rw [map_cons, Run.sourceLines, hrun₁]
      exact hrun₂
    · rwa [entries_cons, ← append_assoc]
    · rw [hout₂, hout₁, groupOutput, append_assoc]

/-! ## 4. Where constants start -/

/-- Between blocks: no block is open, and no literal. -/
structure Run.Between (r : Run) : Prop where
  pending : r.pending = none
  blocks : r.state.blocks = []

/-- The line that opens a group. -/
def OpensGroup (line : Text) : Prop := ∃ gap, Blank gap ∧ trim line = "const" ++ (gap ++ "(")

/-- A line with one entry that is in no group. -/
structure SingleConst (line : Text) (e : ConstEntry) : Prop where
  text : ∃ gap, Blank gap ∧ trim line = "const " ++ (gap ++ e.text)
  valid : e.Valid

theorem Run.Between.block?_ne (h : r.Between) : r.state.block? ≠ some .blockComment := by
  rw [State.block?_eq_none h.blocks]
  nofun

theorem not_mem_keyword_gap (hgap : Blank gap) (hb : isBlank c = false) {w : Text} (hc : c ∉ w) :
    c ∉ w ++ gap := not_mem_append hc (not_mem_of_blank hgap hb)

theorem OpensGroup.plain (h : OpensGroup line) : Plain (trim line) := by
  obtain ⟨gap, hgap, htext⟩ := h
  have hmem {c : Char} (hb : isBlank c = false) (hw : c ∉ ("const" : Text)) (hp : c ≠ '(') : c ∉ trim line := by
    rw [htext, ← append_assoc]
    exact not_mem_append (not_mem_keyword_gap hgap hb hw) fun hm => hp (mem_singleton.mp hm)
  refine plain_of_not_mem (hmem rfl (by decide) (by decide)) (hmem rfl (by decide) (by decide)) ?_
  rw [htext, ← append_assoc]
  exact endsWith_concat_of_ne _ (by decide)

theorem OpensGroup.groupOpener?_eq (h : OpensGroup line) : Block.groupOpener? (trim line) = some .constGroup := by
  obtain ⟨gap, hgap, htext⟩ := h
  have hstrip : stripEnd? "(" (trim line) = some ("const" ++ gap) := by
    rw [htext, ← append_assoc, stripEnd?_append]
  have hkeyword : trimEnd ("const" ++ gap) = "const" :=
    (trimEnd_append_of_blank hgap).trans rfl
  unfold Block.groupOpener?
  rw [hstrip, Option.bind_some, hkeyword]
  rfl

namespace Run.Between

variable {r : Run} (h : r.Between)

include h

theorem classify_eq {t : Text} (number : Nat) (hne : t ≠ []) (hplain : Plain t)
    (hbrace : startsWith t "\x7d" = false) : (r.stateAt number t).classify t = .ofCode t :=
  State.classify_eq_ofCode hne hplain h.blocks (closesClosure_eq_false hbrace)

theorem constGroup_eq (number : Nat) (t : Text) : (r.stateAt number t).constGroup = {} := by
  unfold State.constGroup
  rw [State.block?_eq_none (s := r.stateAt number t) h.blocks, if_neg (by decide)]

theorem open_step (number : Nat) (hline : OpensGroup line) :
    ∃ r', r.sourceLine number line = .ok r' ∧ InGroup r.state.depth [] r' ∧ r'.output = r.output := by
  obtain ⟨gap, -, htext⟩ := id hline
  have hne : trim line ≠ [] := by
    rw [htext]
    exact cons_ne_nil _ _
  have hbrace : startsWith (trim line) "\x7d" = false := by
    rw [htext]
    rfl
  have hclass : (r.stateAt number (trim line)).classify (trim line) = .blockOpen .constGroup := by
    rw [h.classify_eq number hne hline.plain hbrace, ofCode, hline.groupOpener?_eq]
  have hsource := Run.sourceLine_kind number rfl hline.plain hne h.pending h.block?_ne hclass rfl
  refine ⟨_, hsource, ⟨h.pending, ?_, rfl, nofun⟩, append_nil _⟩
  show (⟨.constGroup, _⟩ : BlockFrame) :: r.state.blocks = _
  rw [h.blocks]
  rfl

end Run.Between

theorem InGroup.close_step (h : InGroup depth before r) (number : Nat) (hline : trim line = ")") :
    ∃ r', r.sourceLine number line = .ok r' ∧ r'.Between ∧ r'.output = r.output := by
  have hclass := h.classify_eq (t := ")") number (by decide) (by decide)
  have hsource := Run.sourceLine_kind number hline (by decide) (by decide) h.pending h.block?_ne hclass rfl
  refine ⟨_, hsource, ⟨h.pending, ?_⟩, append_nil _⟩
  show r.state.blocks.tail = []
  rw [h.blocks]
  rfl

theorem InGroup.bare_step (h : InGroup depth [] r) (number : Nat) (hline : trim line = e.text) (he : e.Valid)
    (hx : e.isExplicit = false) :
    r.sourceLine number line = .error ⟨number, .fault (.unrecognized .const e.text)⟩ := by
  refine Run.sourceLine_const_fault hline he.plain he.text_ne_nil h.pending h.block?_ne
    (h.classify_entry number he) ?_
  rw [h.constGroup_eq]
  exact he.constEntryOf_bare (by rw [he.stripStart_text, he.solid]) hx rfl

theorem bare_constKeyword (h : Blank gap) : Bare (("const " : Text) ++ gap) :=
  Bare.append (fun c hc => by revert c; decide) (bare_of_blank h)

namespace SingleConst

variable {line : Text} {e : ConstEntry} (h : SingleConst line e)

include h

theorem trim_stripStart : trim (stripStart "const " (trim line)) = e.text := by
  obtain ⟨gap, hgap, htext⟩ := h.text
  rw [htext, stripStart_append, trim_blank_append hgap, h.valid.solid]

theorem wellNested : WellNested (trim line) := by
  obtain ⟨gap, hgap, htext⟩ := h.text
  rw [htext, ← append_assoc]
  refine (bare_constKeyword hgap).wellNested.join h.valid.wellNested (.inl fun hlast => ?_)
  exact not_mem_keyword_gap hgap rfl (by decide) (mem_of_getLast? hlast)

theorem plain : Plain (trim line) := by
  obtain ⟨gap, hgap, htext⟩ := h.text
  have hmem {c : Char} (hb : isBlank c = false) (hw : c ∉ ("const " : Text)) : c ∉ "const " ++ gap :=
    not_mem_keyword_gap hgap hb hw
  have hanew : (Lexer.start.run ("const " ++ gap)).Anew e.text :=
    (bare_constKeyword hgap).wellNested.anew (.inl fun hlast => hmem rfl (by decide) (mem_of_getLast? hlast))
  rw [htext, ← append_assoc]
  refine ⟨?_, rfl, not_mem_append (hmem rfl (by decide)) h.valid.noBackquote, endsWith_of_getLast? ?_⟩
  · refine Lexer.commentIndex?_eq_none (hmem rfl (by decide)) ?_
    rw [hanew.commentIndex?_eq]
    exact h.valid.noComment
  · rw [getLast?_append_of_ne_nil _ h.valid.text_ne_nil]
    exact h.valid.last_ne_semicolon

theorem text_ne_nil : trim line ≠ [] := by
  obtain ⟨gap, -, htext⟩ := h.text
  rw [htext]
  exact cons_ne_nil _ _

theorem classify_eq (hr : r.Between) (number : Nat) :
    (r.stateAt number (trim line)).classify (trim line) = .constDeclaration := by
  obtain ⟨gap, -, htext⟩ := h.text
  have hbrace : startsWith (trim line) "\x7d" = false := by
    rw [htext]
    rfl
  have hword : firstWord (trim line) = "const" := by
    rw [htext]
    exact firstWord_append (w := "const") (by decide)
      fun c hc => by
        cases hc
        decide
  rw [hr.classify_eq number h.text_ne_nil h.plain hbrace]
  exact ofCode_keyword (h.wellNested.not_endsWith (c := '(') rfl) hword (by decide) rfl

variable {r : Run} (hr : r.Between) (number : Nat)

include hr

theorem explicit_step (hx : e.isExplicit = true) (hlen : e.exprs.length = e.names.length) :
    ∃ r', r.sourceLine number line = .ok r' ∧ r'.Between ∧
      r'.output = r.output ++ (constants [] e).map (indentation line ++ ·) := by
  have hgroup := hr.constGroup_eq number (trim line)
  have hlatest : latest ([] ++ [e]) = some e := by rw [latest_concat, hx, if_pos rfl]
  have hentry : constEntryOf (r.stateAt number (trim line)).constGroup (trim line)
      = .ok (e.names, e.template) := by
    rw [hgroup]
    refine h.valid.constEntryOf_eq h.trim_stripStart (by rw [hx, if_pos rfl]) ?_
    rw [← hlen]
    exact length_map _
  refine ⟨_, Run.sourceLine_const rfl h.plain h.text_ne_nil hr.pending hr.block?_ne (h.classify_eq hr number)
    h.valid h.valid hentry, ⟨hr.pending, hr.blocks⟩, ?_⟩
  rw [hgroup, constants_eq h.valid hlatest]
  rfl

theorem bare_step (hx : e.isExplicit = false) :
    r.sourceLine number line = .error ⟨number, .fault (.unrecognized .const (trim line))⟩ := by
  refine Run.sourceLine_const_fault rfl h.plain h.text_ne_nil hr.pending hr.block?_ne (h.classify_eq hr number) ?_
  rw [hr.constGroup_eq]
  exact h.valid.constEntryOf_bare h.trim_stripStart hx rfl

end SingleConst

/-! ## 5. Groups -/

namespace Run.Between

variable {r : Run} (hr : r.Between)

include hr

theorem group_run (number : Nat) {closing : Text} (ho : OpensGroup opening)
    (hc : trim closing = ")") (hreads : ∀ l ∈ group, l.Reads) (hfit : FitAll [] (entries group)) :
    ∃ r', r.sourceLines number (opening :: (group.map (·.line) ++ [closing])) = .ok r' ∧ r'.Between ∧
      r'.output = r.output ++ groupOutput [] group := by
  obtain ⟨r₁, hrun₁, hin₁, hout₁⟩ := hr.open_step number ho
  obtain ⟨r₂, hrun₂, hin₂, hout₂⟩ := InGroup.lines_run hreads (number + 1) hin₁ hfit
  obtain ⟨r₃, hrun₃, hbetween, hout₃⟩ := hin₂.close_step (number + 1 + (group.map (·.line)).length) hc
  refine ⟨r₃, ?_, hbetween, by rw [hout₃, hout₂, hout₁]⟩
  rw [Run.sourceLines, hrun₁]
  show r₁.sourceLines (number + 1) _ = _
  rw [Run.sourceLines_append, hrun₂]
  show (r₂.sourceLine _ closing).bind _ = _
  rw [hrun₃]
  rfl

theorem bareGroup_run (number : Nat) {quiet : List GroupLine} (ho : OpensGroup opening)
    (hquiet : ∀ q ∈ quiet, q.Reads ∧ q.entry = none) (hl : l.Reads) (he : l.entry = some e)
    (hx : e.isExplicit = false) (rest : List Text) :
    r.sourceLines number (opening :: (quiet.map (·.line) ++ l.line :: rest))
      = .error ⟨number + 1 + quiet.length, .fault (.unrecognized .const e.text)⟩ := by
  have hentries : entries quiet = [] := filterMap_eq_nil_iff.mpr fun q hq => (hquiet q hq).2
  obtain ⟨hline, hvalid⟩ : trim l.line = e.text ∧ e.Valid := by
    unfold GroupLine.Reads at hl
    rwa [he] at hl
  obtain ⟨r₁, hrun₁, hin₁, -⟩ := hr.open_step number ho
  obtain ⟨r₂, hrun₂, hin₂, -⟩ := InGroup.lines_run (fun q hq => (hquiet q hq).1) (number + 1) hin₁
    (by rw [hentries]; trivial)
  rw [hentries] at hin₂
  rw [Run.sourceLines, hrun₁]
  show r₁.sourceLines (number + 1) _ = _
  rw [Run.sourceLines_append, hrun₂, length_map]
  show (r₂.sourceLine _ l.line).bind _ = _
  rw [hin₂.bare_step _ hline hvalid hx]
  rfl

end Run.Between

/-- **Constants count from zero in every group and repeat what their group has.** From every state between blocks:
    * every group of well written entries that fit is accepted, and each entry becomes the constants it
      declares behind those in front; lines that are no entries are copied;
    * an explicit entry that is in no group becomes the constants it declares behind none;
    * a bare entry that is in no group or comes first in its group stops the run. -/
theorem constGroup_constants {r : Run} (hr : r.Between) (number : Nat) :
    (∀ {opening closing : Text} {group : List GroupLine}, OpensGroup opening → trim closing = ")" →
      (∀ l ∈ group, l.Reads) → FitAll [] (entries group) →
      ∃ r', r.sourceLines number (opening :: (group.map (·.line) ++ [closing])) = .ok r' ∧ r'.Between ∧
        r'.output = r.output ++ groupOutput [] group) ∧
    (∀ {line : Text} {e : ConstEntry}, SingleConst line e → e.isExplicit = true →
      e.exprs.length = e.names.length →
      ∃ r', r.sourceLine number line = .ok r' ∧ r'.Between ∧
        r'.output = r.output ++ (constants [] e).map (indentation line ++ ·)) ∧
    (∀ {line : Text} {e : ConstEntry}, SingleConst line e → e.isExplicit = false →
      r.sourceLine number line = .error ⟨number, .fault (.unrecognized .const (trim line))⟩) ∧
    (∀ {opening : Text} {quiet : List GroupLine} {l : GroupLine} {e : ConstEntry} (rest : List Text),
      OpensGroup opening → (∀ q ∈ quiet, q.Reads ∧ q.entry = none) → l.Reads → l.entry = some e →
      e.isExplicit = false →
      r.sourceLines number (opening :: (quiet.map (·.line) ++ l.line :: rest))
        = .error ⟨number + 1 + quiet.length, .fault (.unrecognized .const e.text)⟩) :=
  ⟨fun ho hc hreads hfit => hr.group_run number ho hc hreads hfit,
    fun h hx hlen => h.explicit_step hr number hx hlen,
    fun h hx => h.bare_step hr number hx,
    fun rest ho hquiet hl he hx => hr.bareGroup_run number ho hquiet hl he hx rest⟩

/-- A run that has just left a group of constants. -/
def afterGroup : Run := { state := { consts := ⟨7, some ⟨some "int", ["iota"]⟩⟩ } }

/-- Explicit and bare entries, blank names, and lines that are no entries. -/
def shiftGroup : List GroupLine :=
  [⟨"\tA, _ T = iota, \"a, b\"", some ⟨["A"], " _", " T ", [" iota", " \"a, b\""]⟩⟩,
   ⟨"", none⟩,
   ⟨"\t// remark = iota", none⟩,
   ⟨"\tB, C", some ⟨["B"], " C", "", []⟩⟩,
   ⟨"\tD = 1 << (10 * iota)", some ⟨[], "D ", "", [" 1 << (10 * iota)"]⟩⟩,
   ⟨"\t_", some ⟨[], "_", "", []⟩⟩,
   ⟨"\tE", some ⟨[], "E", "", []⟩⟩]

/-- The constants of the group. -/
def shiftOutput : List Text :=
  ["\tconst T A = 0;", "", "\t// remark = iota", "\tconst T B = 1;", "\tconst T C = \"a, b\";",
   "\tconst auto D = 1 << (10 * 2);", "\tconst auto E = 1 << (10 * 4);"]

theorem constGroup_constants_shifts :
    (∃ r', afterGroup.sourceLines 1 ("const (" :: (shiftGroup.map (·.line) ++ ([")"] : List Text))) = .ok r' ∧
      r'.Between ∧ r'.output = shiftOutput) ∧
    (∃ r', afterGroup.sourceLine 1 "const F = iota" = .ok r' ∧ r'.Between ∧
      r'.output = [("const auto F = 0;" : Text)]) ∧
    afterGroup.sourceLine 1 "const G" = .error ⟨1, .fault (.unrecognized .const "const G")⟩ := by
  have hr : afterGroup.Between := ⟨rfl, rfl⟩
  have hopens : OpensGroup "const (" := ⟨" ", by decide, rfl⟩
  have hcloses : trim ")" = ")" := rfl
  have hreads : ∀ l ∈ shiftGroup, l.Reads := by decide +kernel
  have hfit : FitAll [] (entries shiftGroup) := by decide
  have hF : SingleConst "const F = iota" ⟨[], "F ", "", [" iota"]⟩ :=
    ⟨⟨[], by decide, rfl⟩, by decide +kernel⟩
  have hG : SingleConst "const G" ⟨[], "G", "", []⟩ := ⟨⟨[], by decide, rfl⟩, by decide +kernel⟩
  have hout : afterGroup.output ++ groupOutput [] shiftGroup = shiftOutput := by decide +kernel
  obtain ⟨hgroup, hexplicit, hbare, -⟩ := constGroup_constants hr 1
  rw [← hout]
  exact ⟨hgroup hopens hcloses hreads hfit, hexplicit hF rfl rfl, hbare hG rfl⟩

end Linewise
