/-
  The blocks that can be open, and what the state knows of them.

  Few stacks of blocks are possible, and on top of each a literal between backquotes or a comment may
  lie. The struct under way and the type of map values are known exactly as long as the body or the
  literal is open.
-/
import Linewise.Proofs.PlainLine
import Linewise.Proofs.Construct
import Linewise.Proofs.Kind
import Linewise.Proofs.SourceLines

namespace Linewise

open Text List Lower State

variable {r r' : Run} {s s' : State} {lowered : Lowered} {t indent : Text} {b v : Block}
  {kind : StatementKind} {bs : List Block} {Q : Prop} {number : Nat}

/-! ## 1. Stacks -/

/-- **The stacks of blocks, innermost first, with the struct and the value type that go with them.** -/
inductive Settled : List Block → Option StructDraft → Option Text → Prop where
  | literals (n : Nat) : Settled (replicate n .compositeLiteral) none none
  | group {b : Block} (h : b.isGroup = true) : Settled [b] none none
  | interface {bs : List Block} (h : bs = [] ∨ bs = [.typeGroup]) :
      Settled (.interfaceBody :: bs) none none
  | struct (d : StructDraft) {bs : List Block} (h : bs = [] ∨ bs = [.typeGroup]) :
      Settled (.structBody :: bs) (some d) none
  | mapLiteral (v : Text) : Settled [.mapLiteral] none (some v)

theorem settled_types (h : bs = [] ∨ bs = [.typeGroup]) : Settled bs none none := by
  rcases h with rfl | rfl
  · exact .literals 0
  · exact .group rfl

namespace Settled

variable {b : Block} {bs : List Block} {struct : Option StructDraft} {mapValue : Option Text}

theorem map_struct (h : Settled bs struct mapValue) (g : StructDraft → StructDraft) :
    Settled bs (struct.map g) mapValue := by
  cases h with
  | literals n => exact .literals n
  | group hb => exact .group hb
  | interface hbs => exact .interface hbs
  | struct d hbs => exact .struct (g d) hbs
  | mapLiteral v => exact .mapLiteral v

theorem of_nil (h : Settled [] struct mapValue) : struct = none ∧ mapValue = none := by
  generalize hl : ([] : List Block) = l at h
  cases h with
  | literals n => exact ⟨rfl, rfl⟩
  | _ => cases hl

theorem of_typeGroup (h : Settled (.typeGroup :: bs) struct mapValue) :
    bs = [] ∧ struct = none ∧ mapValue = none := by
  generalize hl : Block.typeGroup :: bs = l at h
  cases h with
  | literals n => cases n <;> cases hl
  | group _ =>
    cases hl
    exact ⟨rfl, rfl, rfl⟩
  | _ => cases hl

theorem not_isVerbatim (h : Settled bs struct mapValue) : ∀ b ∈ bs, b.isVerbatim = false := by
  have htypes : ∀ {bs : List Block}, bs = [] ∨ bs = [.typeGroup] → ∀ b ∈ bs, b.isVerbatim = false := by
    intro bs hbs b hb
    rcases hbs with rfl | rfl
    · cases hb
    · rw [mem_singleton.mp hb]
      rfl
  intro b hb
  cases h with
  | literals n =>
    rw [eq_of_mem_replicate hb]
    rfl
  | @group c hg =>
    rw [mem_singleton.mp hb]
    revert hg
    cases c <;> decide
  | interface hbs | struct d hbs =>
    rcases mem_cons.mp hb with rfl | hb
    · rfl
    · exact htypes hbs b hb
  | mapLiteral v =>
    rw [mem_singleton.mp hb]
    rfl

theorem close (h : Settled (b :: bs) struct mapValue) :
    Settled bs (if b = .structBody then none else struct) (if b = .mapLiteral then none else mapValue) := by
  generalize hl : b :: bs = l at h
  cases h with
  | literals n =>
    cases n with
    | zero => cases hl
    | succ n =>
      cases hl
      exact .literals n
  | group hb =>
    cases hl
    rw [if_neg (by rintro rfl; cases hb), if_neg (by rintro rfl; cases hb)]
    exact .literals 0
  | interface hbs | struct d hbs =>
    cases hl
    exact settled_types hbs
  | mapLiteral v =>
    cases hl
    exact .literals 0

end Settled

/-- The open blocks without their depths. -/
def State.stack (s : State) : List Block := s.blocks.map (·.block)

theorem State.block?_eq (s : State) : s.block? = s.stack.head? := head?_map.symm

theorem State.stack_exitBlock (s : State) : s.exitBlock.stack = s.stack.tail := map_tail

/-- The open blocks, the struct and the type of map values fit together. -/
def State.Settled (s : State) : Prop := Linewise.Settled s.stack s.struct s.mapValue

theorem Block.isGroup_of_groupOpener? {line : Text} (h : groupOpener? line = some b) : b.isGroup = true := by
  obtain ⟨r, _, hb⟩ := Option.bind_eq_some_iff.mp h
  simp only at hb
  split at hb
  · cases hb
    rfl
  · split at hb
    · cases hb
      rfl
    · split at hb
      · cases hb
        rfl
      · split at hb
        · cases hb
          rfl
        · cases hb

/-! ## 2. What a line does to the struct under way -/

/-- **A line keeps the struct under way, closes it, or opens one** with a line that opens the class. -/
inductive StructMove (kind : StatementKind) (before : Option StructDraft) (lowered : Lowered) :
    Option StructDraft → Prop where
  | keeps (g : StructDraft → StructDraft) (hk : kind ≠ .blockClose .structBody)
      (hg : ∀ d, (g d).name = d.name ∧ (g d).opener = d.opener) :
      StructMove kind before lowered (before.map g)
  | ends : StructMove kind before lowered none
  | opens {name : Text} (hk : kind = .typeDeclaration) (hid : isIdentifier name = true)
      (hl : lowered = .line (classOpener name [])) :
      StructMove kind before lowered (some { name })

theorem StructMove.same (hk : kind ≠ .blockClose .structBody) (before : Option StructDraft) (lowered : Lowered) :
    StructMove kind before lowered before := by
  have hkeeps : StructMove kind before lowered (before.map id) := .keeps id hk fun _ => ⟨rfl, rfl⟩
  rwa [Option.map_id] at hkeeps

/-! ## 3. Lines outside every block -/

namespace Lower

/-- Literals may be left open on top of what is open, and nothing else changes. -/
def Piles (s s' : State) : Prop :=
  s'.struct = s.struct ∧ s'.mapValue = s.mapValue
    ∧ ∃ n, s'.stack = replicate n .compositeLiteral ++ s.stack

theorem Piles.refl (s : State) : Piles s s := ⟨rfl, rfl, 0, rfl⟩

theorem piles_of_opens {P : Prop} (h : Opens P Q s s') : Piles s s' := by
  obtain ⟨n, hn, _⟩ := h.blocks
  refine ⟨congrArg Control.struct h.control, congrArg Control.mapValue h.control, n, ?_⟩
  unfold stack
  rw [hn, map_append, map_replicate]

theorem piles_line (t : Text) (hk : kind.isSelfContained = true) (ht : kind ≠ .typeDeclaration) :
    Keeps (fun _ => True) Piles (Lower.line kind t) := by
  cases hp : kind.isPlain with
  | true => exact (spec_line t hp).keeps.mono (fun _ _ => trivial) fun _ _ => piles_of_opens
  | false =>
    cases kind with
    | functionSignature =>
      refine (keeps_functionDefinition t).mono (fun _ _ => trivial) ?_
      rintro s s' ⟨known, prototypes, f, rfl, _⟩
      exact Piles.refl s
    | switch =>
      refine (keeps_switch (P := False) (Q := False) t nofun nofun).mono (fun _ _ => trivial) ?_
      rintro s s' ⟨s₁, hopens, names, notices, discriminant, rfl⟩
      have hpiles : Piles s s₁ := piles_of_opens hopens
      exact hpiles
    | caseClause =>
      refine (keeps_caseClause t).mono (fun _ _ => trivial) ?_
      rintro s s' ⟨f, fs, _, rfl⟩
      exact Piles.refl s
    | defaultClause =>
      refine keeps_defaultClause.mono (fun _ _ => trivial) ?_
      rintro s s' (⟨_, message, rfl⟩ | ⟨f, fs, _, rfl⟩)
      · exact Piles.refl s
      · unfold noticeDefault
        split <;> exact Piles.refl s
    | fallthrough => exact Piles.refl
    | typeDeclaration => exact absurd rfl ht
    | _ => exact nomatch hk, hp

end Lower

theorem settled_type (hs : s.struct = none) (hm : s.mapValue = none) (hb : s.stack = [] ∨ s.stack = [.typeGroup])
    (hrun : (Lower.line .typeDeclaration t).run s = .ok lowered s') :
    s'.Settled ∧ StructMove .typeDeclaration s.struct lowered s'.struct := by
  have hcases := typeDeclaration_cases t s
  rw [show (typeDeclaration t).run s = .ok lowered s' from hrun] at hcases
  have hsame : Settled s.stack none none := settled_types hb
  cases hcases with
  | structBody name hid _ =>
    refine ⟨?_, .opens rfl hid rfl⟩
    show Settled (.structBody :: s.stack) (some { name }) s.mapValue
    rw [hm]
    exact .struct _ hb
  | interfaceBody message _ =>
    refine ⟨?_, .same (by decide) _ _⟩
    show Settled (.interfaceBody :: s.stack) s.struct s.mapValue
    rw [hm, hs]
    exact .interface hb
  | inlineStruct text known notices =>
    refine ⟨?_, .ends⟩
    rw [hm]
    exact hsame
  | other lowered notices =>
    refine ⟨?_, .same (by decide) _ _⟩
    rw [hm, hs]
    exact hsame

theorem settled_ofCode (hs : s.struct = none) (hm : s.mapValue = none) (hb : s.stack = [])
    (hrun : (Lower.line (.ofCode t) t).run s = .ok lowered s') :
    s'.Settled ∧ StructMove (.ofCode t) s.struct lowered s'.struct := by
  rcases StatementKind.ofCode_cases t with ⟨block, hg, hk⟩ | ⟨hk, _⟩ | hk
  · rw [hk] at hrun ⊢
    cases hrun
    refine ⟨?_, .same (by simp) _ _⟩
    show Settled (block :: s.stack) s.struct s.mapValue
    rw [hb, hs, hm]
    exact .group (Block.isGroup_of_groupOpener? hg)
  · rw [hk] at hrun ⊢
    obtain ⟨known, valueType, rfl⟩ := (keeps_mapLiteralOpen t).ok hrun
    refine ⟨?_, .same (by simp) _ _⟩
    show Settled (.mapLiteral :: s.stack) s.struct (some valueType)
    rw [hb, hs]
    exact .mapLiteral valueType
  · by_cases htype : StatementKind.ofCode t = .typeDeclaration
    · rw [htype] at hrun ⊢
      exact settled_type hs hm (.inl hb) hrun
    · obtain ⟨hstruct, hmap, n, hstack⟩ := (piles_line t hk htype).ok hrun
      rw [hb, append_nil] at hstack
      have hkind : StatementKind.ofCode t ≠ .blockClose .structBody := by
        intro h
        rw [h] at hk
        cases hk
      refine ⟨?_, by rw [hstruct]; exact .same hkind _ _⟩
      show Settled s'.stack s'.struct s'.mapValue
      rw [hstack, hstruct, hmap, hs, hm]
      exact .literals n

/-! ## 4. Lines in a block -/

theorem settled_close (hstack : s.stack = b :: bs) (hset : s.Settled)
    (hrun : (Lower.line (.blockClose b) t).run s = .ok lowered s') :
    s'.Settled ∧ StructMove (.blockClose b) s.struct lowered s'.struct := by
  obtain ⟨text, hclose, _⟩ := blockClose_run b t s
  rw [show (Lower.line (.blockClose b) t).run s = _ from hclose] at hrun
  cases hrun
  unfold State.Settled at hset
  rw [hstack] at hset
  refine ⟨?_, ?_⟩
  · show Settled s.exitBlock.stack _ _
    rw [stack_exitBlock, hstack]
    exact hset.close
  · by_cases hb : b = .structBody
    · rw [if_pos hb]
      exact .ends
    · rw [if_neg hb]
      exact .same (by simpa using hb) _ _

theorem settled_keep (hk : kind ≠ .blockClose .structBody) (hset : s.Settled) (hb : s'.stack = s.stack)
    (hs : s'.struct = s.struct) (hm : s'.mapValue = s.mapValue) :
    s'.Settled ∧ StructMove kind s.struct lowered s'.struct := by
  refine ⟨?_, by rw [hs]; exact .same hk _ _⟩
  unfold State.Settled
  rw [hb, hs, hm]
  exact hset

theorem settled_opens (hk : kind ≠ .blockClose .structBody) (hset : s.Settled) (ho : Opens True Q s s') :
    s'.Settled ∧ StructMove kind s.struct lowered s'.struct := by
  obtain ⟨n, hn, hn0⟩ := ho.blocks
  rw [hn0 trivial] at hn
  have hstack : s'.stack = s.stack := congrArg (map BlockFrame.block) hn
  exact settled_keep hk hset hstack (congrArg Control.struct ho.control)
    (congrArg Control.mapValue ho.control)

theorem settled_inside (hstack : s.stack = b :: bs) (hset : s.Settled)
    (hrun : (Lower.line (.inside b) t).run s = .ok lowered s') :
    s'.Settled ∧ StructMove (.inside b) s.struct lowered s'.struct := by
  cases b with
  | importGroup | interfaceBody | compositeLiteral | rawString | blockComment =>
    cases hrun
    exact settled_keep (by decide) hset rfl rfl rfl
  | varGroup => exact settled_opens (by decide) hset ((spec_varDeclaration t).keeps.ok hrun)
  | constGroup =>
    exact settled_opens (Q := True) (by decide) hset ((spec_constDeclaration t).keeps.ok hrun)
  | typeGroup =>
    have htop := hset
    unfold State.Settled at htop
    rw [hstack] at htop
    obtain ⟨hbs, hst, hmv⟩ := htop.of_typeGroup
    exact settled_type hst hmv (.inr (by rw [hstack, hbs])) hrun
  | structBody =>
    obtain ⟨known, notices, g, rfl, hg⟩ := (meets_structField t).keeps.ok hrun
    exact ⟨hset.map_struct g, .keeps g (by decide) hg⟩
  | mapLiteral =>
    exact settled_opens (Q := True) (by decide) hset ((spec_mapLiteralEntry t).keeps.ok hrun)

/-- What a line of code does to the stack of blocks. -/
theorem State.Settled.line (hset : s.Settled) (hrun : (Lower.line (s.classify t) t).run s = .ok lowered s') :
    s'.Settled ∧ StructMove (s.classify t) s.struct lowered s'.struct := by
  rcases s.classify_cases t with ⟨_, hk⟩ | hk | ⟨hnone, hk⟩ | ⟨b, hb, hk⟩
  · rw [hk] at hrun ⊢
    cases hrun
    exact settled_keep (by decide) hset rfl rfl rfl
  · rw [hk] at hrun ⊢
    cases hrun
    exact settled_keep (by decide) hset rfl rfl rfl
  · have hstack : s.stack = [] := head?_eq_none_iff.mp (s.block?_eq.symm.trans hnone)
    rcases hk with hk | hk
    · rw [hk] at hrun ⊢
      obtain ⟨text, hend, _⟩ := Lower.closureEnd_run t s
      rw [show (Lower.line .closureEnd t).run s = _ from hend] at hrun
      cases hrun
      exact settled_keep (by decide) hset rfl rfl rfl
    · rw [hk] at hrun ⊢
      have hout := hset
      unfold State.Settled at hout
      rw [hstack] at hout
      exact settled_ofCode hout.of_nil.1 hout.of_nil.2 hstack hrun
  · obtain ⟨bs, hstack⟩ := head?_eq_some_iff.mp (s.block?_eq.symm.trans hb)
    rcases hk with hk | hk
    · rw [hk] at hrun ⊢
      exact settled_close hstack hset hrun
    · rw [hk] at hrun ⊢
      exact settled_inside hstack hset hrun

/-! ## 5. The line that opens a class -/

/-- The struct knows a line of output that, behind its indentation, opens its class. -/
def OpensClass (output : List Text) (d : StructDraft) : Prop :=
  ∃ i line, d.opener = some i ∧ output[i]? = some line ∧
    startsWith (trimStart line) ("class " ++ d.name ++ " \x7b public:") = true

theorem OpensClass.append {output : List Text} {d : StructDraft} (h : OpensClass output d)
    (more : List Text) : OpensClass (output ++ more) d := by
  obtain ⟨i, line, hi, hline, hs⟩ := h
  refine ⟨i, line, hi, ?_, hs⟩
  obtain ⟨hlt, _⟩ := List.getElem?_eq_some_iff.mp hline
  rw [getElem?_append_left hlt]
  exact hline

theorem OpensClass.congr {output : List Text} {d d' : StructDraft} (h : OpensClass output d)
    (hn : d'.name = d.name) (ho : d'.opener = d.opener) : OpensClass output d' := by
  unfold OpensClass
  rw [hn, ho]
  exact h

theorem layout_class {name : Text} (hid : isIdentifier name = true) (hi : Blank indent) (spans : Bool)
    (comment : Option Text) :
    ∃ line more, layout indent spans (some (classOpener name [])) comment = line :: more ∧
      startsWith (trimStart line) ("class " ++ name ++ " \x7b public:") = true := by
  have hnl : '\n' ∉ classOpener name [] :=
    not_mem_append (not_mem_append (by decide) (not_mem_of_isIdentifier hid rfl)) (by decide)
  have hlines : (if spans then [indent ++ classOpener name []]
      else (lines (classOpener name [])).map (indent ++ ·)) = [indent ++ classOpener name []] := by
    cases spans with
    | true => rfl
    | false =>
      have hne : classOpener name [] ≠ [] := append_ne_nil_of_right_ne_nil _ (by decide)
      rw [lines_eq_singleton hne hnl]
      rfl
  have hstart : ∀ tail : Text, startsWith (trimStart (indent ++ (classOpener name [] ++ tail)))
      ("class " ++ name ++ " \x7b public:") = true := by
    intro tail
    rw [trimStart_append_of_blank hi]
    exact startsWith_append _ tail
  unfold layout
  simp only [hlines]
  cases comment with
  | none =>
    refine ⟨_, [], rfl, ?_⟩
    have := hstart []
    rwa [append_nil] at this
  | some c =>
    refine ⟨_, [], rfl, ?_⟩
    rw [append_assoc, append_assoc]
    exact hstart _

/-! ## 6. Lines of code in a run -/

/-- The stack is one of the stacks, and the struct under way knows the line of its class. -/
structure Run.Steady (r : Run) : Prop where
  settled : r.state.Settled
  opener : ∀ d ∈ r.state.struct, OpensClass r.output d

theorem Run.Steady.struct_codeLine (h : r.Steady) {code : Text} {comment : Option Text} {spans : Bool}
    (hi : Blank indent) (hrun : r.codeLine indent code comment spans = .ok r') {d : StructDraft}
    (hd : d ∈ r'.state.struct) :
    OpensClass r'.output d ∧ ((∃ d₀ ∈ r.state.struct, d.opener = d₀.opener) ∨
      ((r.state.countBraces code).classify code = .typeDeclaration ∧ d.opener = some r.output.length)) := by
  obtain ⟨lowered, s', hline, rfl⟩ := Run.codeLine_eq_ok hrun
  have hset : (r.state.countBraces code).Settled := h.settled
  obtain ⟨_, hmove⟩ := hset.line hline
  generalize (r.state.countBraces code).classify code = kind at *
  obtain ⟨switches, function, hfinish⟩ := s'.finishLine_eq kind code lowered
  rw [hfinish] at hd
  obtain ⟨d', hd', rfl⟩ := Option.map_eq_some_iff.mp hd
  have hmove : StructMove kind r.state.struct lowered (some d') := by
    rw [← show s'.struct = some d' from hd']
    exact hmove
  generalize hst : some d' = after at hmove
  cases hmove with
  | keeps g hk hg =>
    obtain ⟨d₀, hd₀, rfl⟩ := Option.map_eq_some_iff.mp hst.symm
    have hold := h.opener d₀ hd₀
    have hsame : ∀ index, ((g d₀).opener.or (some index)) = d₀.opener := by
      intro index
      obtain ⟨i, line, hi, _⟩ := hold
      rw [(hg d₀).2, hi]
      rfl
    rw [if_neg (by simpa using hk)]
    exact ⟨(hold.append _).congr (hg d₀).1 (hsame _), .inl ⟨d₀, hd₀, hsame _⟩⟩
  | ends => cases hst
  | opens hk hid hl =>
    cases hst
    rw [hk, hl]
    obtain ⟨line, more, hlayout, hstart⟩ := layout_class hid hi spans comment
    refine ⟨⟨r.output.length, line, rfl, ?_, hstart⟩, .inr ⟨rfl, rfl⟩⟩
    show (r.output ++ layout indent spans (some (classOpener _ [])) comment)[r.output.length]? = some line
    rw [hlayout, getElem?_append_right (Nat.le_refl _), Nat.sub_self]
    rfl

theorem Run.Steady.codeLine (h : r.Steady) {code : Text} {comment : Option Text} {spans : Bool}
    (hi : Blank indent) (hrun : r.codeLine indent code comment spans = .ok r') :
    r'.Steady ∧ r'.pending = r.pending := by
  obtain ⟨lowered, s', hline, hr'⟩ := Run.codeLine_eq_ok hrun
  have hset : (r.state.countBraces code).Settled := h.settled
  refine ⟨⟨?_, fun d hd => (h.struct_codeLine hi hrun hd).1⟩, hr' ▸ rfl⟩
  obtain ⟨switches, function, hfinish⟩ := s'.finishLine_eq _ code lowered
  rw [hr', hfinish]
  exact (hset.line hline).1.map_struct _

theorem Run.Steady.block?_ne (h : r.Steady) : r.state.block? ≠ some .blockComment := by
  intro hb
  rw [block?_eq] at hb
  cases h.settled.not_isVerbatim _ (mem_of_mem_head? hb)

theorem Run.Steady.emit (h : r.Steady) (ls : List Text) : (r.emit ls).Steady :=
  ⟨h.settled, fun d hd => (h.opener d hd).append ls⟩

theorem Run.Steady.logicalLine (h : r.Steady) {text : Text} {spans : Bool} (hi : Blank indent)
    (hrun : r.logicalLine indent text spans = .ok r') : r'.Steady ∧ r'.pending = r.pending := by
  obtain ⟨_, rfl⟩ | ⟨_, hrun⟩ := logicalLine_eq_ok hrun
  · exact ⟨h.emit _, rfl⟩
  · exact h.codeLine hi hrun

/-! ## 7. Source lines -/

/-- **A run between source lines**: steady, or steady below the comment or literal on top. -/
inductive Run.Layered (r : Run) : Prop where
  | bare (hp : r.pending = none) (h : r.Steady)
  | comment (hp : r.pending = none) (hb : r.state.block? = some .blockComment)
      (h : Run.Steady { r with state := r.state.exitBlock })
  | raw {raw : PendingRaw} (hp : r.pending = some raw) (hi : Blank raw.indent)
      (hb : r.state.block? = some .rawString) (h : Run.Steady { r with state := r.state.exitBlock })

namespace Run.Layered

theorem steady (h : r.Layered) (hp : r.pending = none) (hb : r.state.block? ≠ some .blockComment) : r.Steady := by
  cases h with
  | bare _ h => exact h
  | comment _ hb' _ => exact absurd hb' hb
  | raw hp' _ _ _ => cases hp.symm.trans hp'

theorem below_comment (h : r.Layered) (hp : r.pending = none) (hb : r.state.block? = some .blockComment) :
    Run.Steady { r with state := r.state.exitBlock } := by
  cases h with
  | bare _ h => exact absurd hb h.block?_ne
  | comment _ _ h => exact h
  | raw hp' _ _ _ => cases hp.symm.trans hp'

theorem below_raw {raw : PendingRaw} (h : r.Layered) (hp : r.pending = some raw) :
    Blank raw.indent ∧ r.state.block? = some .rawString ∧ Run.Steady { r with state := r.state.exitBlock } := by
  cases h with
  | bare hp' _ => cases hp.symm.trans hp'
  | comment hp' _ _ => cases hp.symm.trans hp'
  | raw hp' hi hb h =>
    cases hp.symm.trans hp'
    exact ⟨hi, hb, h⟩

/-- **One source line** keeps the layers, and the run reads what is open off the line. -/
theorem step (h : r.Layered) {line : Text} (hrun : r.sourceLine number line = .ok r') :
    r'.Layered ∧ r'.context = r.context.next line := by
  have bare {r : Run} (hp : r.pending = none) (h : r.Steady) : r.Layered ∧ r.context = .code :=
    ⟨.bare hp h, context_of_code hp h.block?_ne⟩
  have hreads := r.reads number line
  generalize r.completed? number line = done, r.sourceLine number line = result at hreads hrun
  cases hreads with
  | inComment hp hb =>
    have hst := h.below_comment hp hb
    cases hrun
    rw [context_of_comment hp hb]
    unfold Run.commentLine Context.next
    by_cases hend : includes line "*/" = true
    · rw [if_pos hend, if_pos hend]
      exact bare hp ⟨hst.settled, (hst.emit _).opener⟩
    · rw [if_neg hend, if_neg hend]
      exact ⟨.comment hp hb ⟨hst.settled, (hst.emit _).opener⟩, context_of_comment hp hb⟩
  | opensComment hp hb hopen =>
    have hst := h.steady hp hb
    cases hrun
    rw [context_of_code hp hb, Context.next_code, if_pos hopen]
    exact ⟨.comment hp rfl ⟨hst.settled, (hst.emit _).opener⟩, context_of_comment hp rfl⟩
  | isComment hp hb hopen hwhole =>
    have hst := h.steady hp hb
    cases hrun
    rw [context_of_code hp hb, Context.next_code, if_neg hopen, if_pos hwhole]
    exact bare hp ⟨hst.settled, (hst.emit _).opener⟩
  | opensRaw hp hb hopen hwhole hraw =>
    have hst := h.steady hp hb
    cases hrun
    rw [context_of_code hp hb, Context.next_code, if_neg hopen, if_neg hwhole, if_pos hraw]
    exact ⟨.raw rfl (blank_indentation line) rfl ⟨hst.settled, hst.opener⟩, context_of_pending rfl⟩
  | code hp hb hopen hwhole hraw =>
    have hst := h.steady hp hb
    rw [context_of_code hp hb, Context.next_code, if_neg hopen, if_neg hwhole, if_neg hraw]
    obtain ⟨hs, hpending⟩ := Steady.logicalLine (r := r.at number) ⟨hst.settled, hst.opener⟩
      (blank_indentation line) hrun
    exact bare (hpending.trans hp) hs
  | inRaw text hp hclose =>
    obtain ⟨hi, hb, hst⟩ := h.below_raw hp
    cases hrun
    rw [context_of_pending hp, Context.next, hclose]
    exact ⟨.raw rfl hi hb ⟨hst.settled, hst.opener⟩, context_of_pending rfl⟩
  | @closesRaw raw text hp hclose =>
    obtain ⟨hi, _, hst⟩ := h.below_raw hp
    rw [context_of_pending hp, Context.next, hclose]
    have hsteady : Run.Steady { r with
        pending := none
        state := { r.state.exitBlock with lineNumber := raw.lineNumber } } := ⟨hst.settled, hst.opener⟩
    obtain ⟨hs, hpending⟩ := hsteady.logicalLine hi hrun
    exact bare hpending hs

theorem sourceLine (h : r.Layered) {line : Text} (hrun : r.sourceLine number line = .ok r') :
    r'.Layered := (h.step hrun).1

theorem sourceLines {ls : List Text} :
    ∀ {r r' : Run} {number : Nat}, r.Layered → r.sourceLines number ls = .ok r' → r'.Layered := by
  induction ls with
  | nil =>
    intro r r' number h hrun
    cases hrun
    exact h
  | cons line ls ih =>
    intro r r' number h hrun
    obtain ⟨r₁, hline, hrun⟩ := exists_ok_of_bind hrun
    exact ih (h.sourceLine hline) hrun

end Run.Layered

/-! ## 8. What the stacks have in common -/

/-- The blocks that nothing but a literal or a comment lies on. -/
def Block.isLast : Block → Bool
  | importGroup | varGroup | constGroup | structBody | interfaceBody | mapLiteral => true
  | _ => false

/-- **The shape of the stacks**, innermost block first. -/
structure Stacked (bs : List Block) : Prop where
  /-- what is copied as it stands is innermost -/
  verbatim : ∀ i b, bs[i]? = some b → b.isVerbatim = true → i = 0
  /-- groups are outermost -/
  group : ∀ i b, bs[i]? = some b → b.isGroup = true → i + 1 = bs.length
  onTypes : ∀ i b, bs[i + 1]? = some .typeGroup → bs[i]? = some b →
    b = .structBody ∨ b = .interfaceBody ∨ b.isVerbatim = true
  onLast : ∀ i b c, bs[i + 1]? = some b → b.isLast = true → bs[i]? = some c → c.isVerbatim = true
  oneStruct : bs.count .structBody ≤ 1
  oneMap : bs.count .mapLiteral ≤ 1

namespace Stacked

theorem literals (n : Nat) : Stacked (replicate n .compositeLiteral) := by
  have hall : ∀ {i : Nat} {b : Block}, (replicate n Block.compositeLiteral)[i]? = some b →
      b = .compositeLiteral := fun h => eq_of_mem_replicate (mem_of_getElem? h)
  refine ⟨?_, ?_, ?_, ?_, ?_, ?_⟩
  · intro i b hb hv
    rw [hall hb] at hv
    cases hv
  · intro i b hb hg
    rw [hall hb] at hg
    cases hg
  · intro i b hb _
    cases hall hb
  · intro i b c hb hl _
    rw [hall hb] at hl
    cases hl
  · rw [count_replicate]
    exact Nat.zero_le 1
  · rw [count_replicate]
    exact Nat.zero_le 1

theorem single (b : Block) : Stacked [b] := by
  have hnone : ∀ {i : Nat} {c : Block}, [b][i]? = some c → i = 0 := by
    intro i c h
    have := (List.getElem?_eq_some_iff.mp h).1
    simpa using this
  refine ⟨fun i c h _ => hnone h, ?_, ?_, ?_, count_le_length, count_le_length⟩
  · intro i c h _
    rw [hnone h]
    rfl
  · intro i c h _
    exact absurd (hnone h) (Nat.succ_ne_zero i)
  · intro i c d h _ _
    exact absurd (hnone h) (Nat.succ_ne_zero i)

theorem body (hb : b = .structBody ∨ b = .interfaceBody) : Stacked [b, .typeGroup] := by
  have hcases : ∀ {i : Nat} {c : Block}, [b, .typeGroup][i]? = some c →
      (i = 0 ∧ c = b) ∨ (i = 1 ∧ c = .typeGroup) := by
    intro i c h
    match i with
    | 0 => exact .inl ⟨rfl, (Option.some.inj h).symm⟩
    | 1 => exact .inr ⟨rfl, (Option.some.inj h).symm⟩
  have hplain : b.isVerbatim = false ∧ b.isGroup = false := by
    rcases hb with rfl | rfl <;> exact ⟨rfl, rfl⟩
  refine ⟨?_, ?_, ?_, ?_, ?_, ?_⟩
  · intro i c h hv
    rcases hcases h with ⟨hi, _⟩ | ⟨_, rfl⟩
    · exact hi
    · cases hv
  · intro i c h hg
    rcases hcases h with ⟨_, rfl⟩ | ⟨rfl, _⟩
    · rw [hplain.2] at hg
      cases hg
    · rfl
  · intro i c h hc
    rcases hcases h with ⟨hi, _⟩ | ⟨hi, _⟩
    · exact absurd hi (Nat.succ_ne_zero i)
    · cases hi
      cases hc
      rcases hb with hb | hb
      · exact .inl hb
      · exact .inr (.inl hb)
  · intro i c d h hl _
    rcases hcases h with ⟨hi, _⟩ | ⟨_, rfl⟩
    · exact absurd hi (Nat.succ_ne_zero i)
    · cases hl
  · rcases hb with rfl | rfl <;> decide
  · rcases hb with rfl | rfl <;> decide

theorem cons (h : Stacked bs) (hv : v.isVerbatim = true)
    (hbs : ∀ b ∈ bs, b.isVerbatim = false) : Stacked (v :: bs) := by
  have hne : v.isGroup = false ∧ v ≠ .structBody ∧ v ≠ .mapLiteral := by
    revert hv
    cases v <;> decide
  refine ⟨?_, ?_, ?_, ?_, ?_, ?_⟩
  · intro i b hb hverb
    cases i with
    | zero => rfl
    | succ i =>
      rw [hbs b (mem_of_getElem? hb)] at hverb
      cases hverb
  · intro i b hb hg
    cases i with
    | zero =>
      cases hb
      rw [hne.1] at hg
      cases hg
    | succ i =>
      rw [h.group i b hb hg]
      rfl
  · intro i b ht hb
    cases i with
    | zero =>
      cases hb
      exact .inr (.inr hv)
    | succ i => exact h.onTypes i b ht hb
  · intro i b c hb hl hc
    cases i with
    | zero =>
      cases hc
      exact hv
    | succ i => exact h.onLast i b c hb hl hc
  · rw [count_cons_of_ne hne.2.1]
    exact h.oneStruct
  · rw [count_cons_of_ne hne.2.2]
    exact h.oneMap

end Stacked

namespace Settled

variable {bs : List Block} {struct : Option StructDraft} {mapValue : Option Text}

theorem stacked (h : Settled bs struct mapValue) : Stacked bs := by
  cases h with
  | literals n => exact .literals n
  | group hb => exact .single _
  | interface hbs =>
    rcases hbs with rfl | rfl
    · exact .single _
    · exact .body (.inr rfl)
  | struct d hbs =>
    rcases hbs with rfl | rfl
    · exact .single _
    · exact .body (.inl rfl)
  | mapLiteral v => exact .single _

theorem struct_iff (h : Settled bs struct mapValue) : .structBody ∈ bs ↔ struct.isSome = true := by
  cases h with
  | literals n => simp [mem_replicate]
  | @group b hb => cases b <;> simp_all [Block.isGroup]
  | interface hbs => rcases hbs with rfl | rfl <;> simp
  | struct d hbs => simp
  | mapLiteral v => simp

theorem mapLiteral_iff (h : Settled bs struct mapValue) : .mapLiteral ∈ bs ↔ mapValue.isSome = true := by
  cases h with
  | literals n => simp [mem_replicate]
  | @group b hb => cases b <;> simp_all [Block.isGroup]
  | interface hbs | struct d hbs => rcases hbs with rfl | rfl <;> simp
  | mapLiteral v => simp

end Settled

/-! ## 9. Behind every source line -/

theorem Run.Steady.below (h : Run.Steady { r with state := r.state.exitBlock })
    (hb : r.state.block? = some v) : ∃ bs, r.state.stack = v :: bs ∧
      Settled bs r.state.struct r.state.mapValue ∧ ∀ d ∈ r.state.struct, OpensClass r.output d := by
  obtain ⟨bs, hbs⟩ := head?_eq_some_iff.mp (r.state.block?_eq.symm.trans hb)
  refine ⟨bs, hbs, ?_, h.opener⟩
  have htail := r.state.stack_exitBlock
  rw [hbs, tail_cons] at htail
  exact htail ▸ h.settled

/-- **Behind every source line**: at most the innermost block is a literal or a comment, and a
    literal just when one is pending; groups are outermost, and on each block lies only what may lie
    there; a struct is under way just when its body is open, once at most, and knows the line that
    opens its class; the type of a map's values is known just when its literal is open, once at
    most. -/
theorem blocks_sound {source : Text} {count : Nat} {r : Run}
    (hrun : Run.sourceLines {} 1 ((lines (stripStart ['\uFEFF'] source)).take count) = .ok r) :
    Stacked r.state.stack ∧ (.rawString ∈ r.state.stack ↔ r.pending.isSome = true) ∧
      (.structBody ∈ r.state.stack ↔ r.state.struct.isSome = true) ∧
      (∀ d ∈ r.state.struct, OpensClass r.output d) ∧
      (.mapLiteral ∈ r.state.stack ↔ r.state.mapValue.isSome = true) := by
  have hstart : Run.Layered {} := .bare rfl ⟨.literals 0, fun d hd => by cases hd⟩
  have hno : ∀ {bs : List Block}, (∀ b ∈ bs, b.isVerbatim = false) → .rawString ∉ bs :=
    fun h hmem => by cases h _ hmem
  have hbelow : ∀ {b v : Block} {bs : List Block}, b ≠ v → (b ∈ v :: bs ↔ b ∈ bs) := fun hne =>
    ⟨fun h => (mem_cons.mp h).resolve_left hne, mem_cons_of_mem _⟩
  cases hstart.sourceLines hrun with
  | bare hp h =>
    have hset := h.settled
    refine ⟨hset.stacked, ?_, hset.struct_iff, h.opener, hset.mapLiteral_iff⟩
    rw [hp]
    exact ⟨fun hmem => absurd hmem (hno hset.not_isVerbatim), fun h => by cases h⟩
  | comment hp hb h =>
    obtain ⟨bs, hbs, hset, hopener⟩ := h.below hb
    rw [hbs, hp, hbelow (by decide), hbelow (by decide), hbelow (by decide)]
    refine ⟨hset.stacked.cons rfl hset.not_isVerbatim, ?_, hset.struct_iff, hopener, hset.mapLiteral_iff⟩
    exact ⟨fun hmem => absurd hmem (hno hset.not_isVerbatim), fun h => by cases h⟩
  | raw hp hi hb h =>
    obtain ⟨bs, hbs, hset, hopener⟩ := h.below hb
    rw [hbs, hp, hbelow (b := .structBody) (by decide), hbelow (b := .mapLiteral) (by decide)]
    refine ⟨hset.stacked.cons rfl hset.not_isVerbatim, ?_, hset.struct_iff, hopener, hset.mapLiteral_iff⟩
    exact ⟨fun _ => rfl, fun _ => mem_cons_self⟩

/-- A struct in a group of types, and a literal that goes on below. -/
def taggedStruct : Text := "type (\n\tT struct \x7b // T\n\t\tx int \x60a\n\t\x7d\n"

theorem blocks_sound_taggedStruct :
    ∃ r, Run.sourceLines {} 1 ((lines (stripStart ['\uFEFF'] taggedStruct)).take 3) = .ok r ∧
      r.state.stack = [.rawString, .structBody, .typeGroup] ∧ r.pending.isSome = true ∧
      ∃ d ∈ r.state.struct, OpensClass r.output d := by
  have hstack : (Run.sourceLines {} 1 ((lines (stripStart ['\uFEFF'] taggedStruct)).take 3)).toOption.map
      (·.state.stack) = some [.rawString, .structBody, .typeGroup] := by decide +kernel
  cases h : Run.sourceLines {} 1 ((lines (stripStart ['\uFEFF'] taggedStruct)).take 3) with
  | error halt =>
    rw [h] at hstack
    cases hstack
  | ok r =>
    rw [h] at hstack
    have hstack : r.state.stack = [.rawString, .structBody, .typeGroup] := Option.some.inj hstack
    obtain ⟨_, hraw, hstruct, hopener, _⟩ := blocks_sound h
    rw [hstack] at hraw hstruct
    obtain ⟨d, hd⟩ := Option.isSome_iff_exists.mp (hstruct.mp (by decide))
    exact ⟨r, rfl, hstack, hraw.mp (by decide), d, hd, hopener d hd⟩

end Linewise
