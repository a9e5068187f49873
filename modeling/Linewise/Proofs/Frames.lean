/-
  What one line does to the open frames.

  The brace depth, the stacks and the function under way decide by bare depths which construct a
  brace closes. For every form of line this module says what it leaves of them.
-/
import Linewise.Proofs.PlainLine
import Linewise.Proofs.Construct
import Linewise.Proofs.Kind

namespace Linewise

open Text List StatementKind State Lower

variable {H T t v w x params results : Text} {F : Frames} {s s' : State} {d : Nat} {kind : StatementKind}
  {f : SwitchFrame} {fs : List SwitchFrame} {block : Block} {P Q : Prop} {rendered : Option Text}
  {cs : List ClosureFrame}

/-! ## 1. Frames -/

/-- What decides which construct a brace closes. -/
@[ext] structure Frames where
  depth : Nat
  blocks : List BlockFrame
  switches : List SwitchFrame
  closures : List ClosureFrame
  function : Option FunctionFrame
  deriving DecidableEq, Repr

/-- The frames of a state. -/
def State.frames (s : State) : Frames := ⟨s.depth, s.blocks, s.switches, s.closures, s.function⟩

/-- No block is open, and the innermost frames were opened below a depth. -/
structure Frames.Below (F : Frames) (depth : Nat) : Prop where
  blocks : F.blocks = []
  switches : ∀ f ∈ F.switches.head?, f.depth < depth
  closures : ∀ f ∈ F.closures.head?, f.depth < depth
  function : ∀ f ∈ F.function, f.depth < depth

theorem Opens.frames_eq (h : Opens P Q s s') (hP : P) (hQ : Q) : s'.frames = s.frames := by
  obtain ⟨n, hn, hn0⟩ := h.blocks
  obtain ⟨cs, hcs, hcs0⟩ := h.closures
  rw [hn0 hP] at hn
  rw [hcs0 hQ] at hcs
  exact Frames.ext (congrArg Control.depth h.control) hn (congrArg Control.switches h.control) hcs
    (congrArg Control.function h.control)

/-! ## 2. One line -/

/-- The state behind a trimmed line of code, before it is laid out. -/
def Takes (t : Text) (s s' : State) : Prop :=
  ∃ lowered s₁, (line ((s.countBraces t).classify t) t).run (s.countBraces t) = .ok lowered s₁
    ∧ s' = (s₁.finishLine ((s.countBraces t).classify t) t lowered).2

/-- Every run over this line from these frames that does not stop leads to frames of the given kind. -/
def Advances (t : Text) (F : Frames) (Q : Frames → Prop) : Prop :=
  ∀ s s', s.frames = F → Takes t s s' → Q s'.frames

theorem State.block?_eq_none (h : s.blocks = []) : s.block? = none := by
  rw [block?, h]
  rfl

theorem State.classify_code (hne : t ≠ []) (hcomment : startsWith t "//" = false) (hb : s.block? = none)
    (hc : s.closesClosure t s.depth = false) : s.classify t = .ofCode t := by
  have he : t.isEmpty = false := by simpa using hne
  rw [classify, he, hb]
  simp only [hcomment, hc, Bool.false_eq_true, if_false]

theorem State.classify_eq_ofCode (hne : t ≠ []) (hp : Plain t) (hb : s.blocks = [])
    (hc : s.closesClosure t s.depth = false) : s.classify t = .ofCode t :=
  classify_code hne hp.not_startsWith_comment (block?_eq_none hb) hc

theorem Takes.lower (h : Takes t s s') (hk : (s.countBraces t).classify t = kind)
    (hbrace : (kind == .expression && startsWith t "\x7d") = false) :
    ∃ lowered, (line kind t).run (s.countBraces t) = .ok lowered s' := by
  obtain ⟨lowered, s₁, hrun, rfl⟩ := h
  rw [hk] at hrun ⊢
  unfold finishLine
  rw [hbrace]
  exact ⟨lowered, hrun⟩

theorem closesClosure_eq_false (h : startsWith t "\x7d" = false) : s.closesClosure t d = false := by
  unfold closesClosure
  rw [h]
  rfl

theorem Takes.lowers (h : Takes t s s') (hne : t ≠ []) (hp : Plain t) (hb : s.blocks = [])
    (hs : startsWith t "\x7d" = false) (hk : ofCode t = kind) :
    ∃ lowered, (line kind t).run (s.countBraces t) = .ok lowered s' := by
  refine h.lower ?_ (by rw [hs, Bool.and_false])
  rw [classify_eq_ofCode (s := s.countBraces t) hne hp hb (closesClosure_eq_false hs), hk]

/-! ## 3. Simple lines -/

/-- The kinds that change what is open even on a well-nested line. -/
def StatementKind.movesFrames : StatementKind → Bool
  | functionSignature | switch | caseClause | defaultClause => true
  | _ => false

/-- A well-nested line that is no head of a function, a switch or a clause. -/
@[mk_iff] structure Simple (t : Text) : Prop where
  wellNested : WellNested t
  kind : (ofCode t).movesFrames = false

instance (t : Text) : Decidable (Simple t) := decidable_of_iff _ (simple_iff ..).symm

namespace Lower

/-- Steps after which the same frames are open. -/
def SameFrames (s s' : State) : Prop := s'.frames = s.frames

theorem Keeps.sameFrames {α : Type} {E : Stop → Prop} {m : Lower α} (h : Keeps E (Opens P Q) m)
    (hP : P) (hQ : Q) : Keeps (fun _ => True) SameFrames m :=
  h.mono (fun _ _ => trivial) fun _ _ ho => ho.frames_eq hP hQ

theorem sameFrames_forLoop (t : Text) : Keeps (fun _ => True) SameFrames (forLoop t) :=
  (spec_forLoop t).keeps.sameFrames trivial trivial

theorem sameFrames_typeDeclaration (h : WellNested t) : Keeps (fun _ => True) SameFrames (typeDeclaration t) := by
  refine (keeps_typeDeclaration t).mono (fun _ _ => trivial) ?_
  rintro s s' ⟨lowered, hs⟩
  cases hs with
  | structBody _ _ hn => exact absurd h hn
  | interfaceBody _ hn => exact absurd h hn
  | _ => rfl

/-- A well-nested line of most kinds keeps the frames. -/
theorem sameFrames_line (h : WellNested t) (hk : kind.isSelfContained = true) (hm : kind.movesFrames = false) :
    Keeps (fun _ => True) SameFrames (line kind t) := by
  cases hp : kind.isPlain with
  | true => exact (spec_line t hp).keeps.sameFrames h h
  | false =>
    cases kind with
    | typeDeclaration => exact sameFrames_typeDeclaration h
    | fallthrough => exact fun _ => rfl
    | _ => exact nomatch hk, hm, hp

theorem SameFrames.eq (h : SameFrames (s.countBraces t) s') (hd : braceDepth s.depth t = d) :
    s'.frames = { s.frames with depth := d } := by
  rw [h, ← hd]
  rfl

end Lower

theorem advances_simple (h : Simple t) (hp : Plain t) (hne : t ≠ []) (hF : F.blocks = []) :
    Advances t F (· = F) := by
  rintro s s' rfl ht
  obtain ⟨lowered, hrun⟩ := ht.lowers hne hp hF (h.wellNested.not_startsWith rfl) rfl
  have hsame := (sameFrames_line h.wellNested
    (isSelfContained_ofCode h.wellNested) h.kind).ok hrun
  exact SameFrames.eq hsame (h.wellNested.braceDepth_eq _)

theorem advances_signature (h : WellNested t) (hkind : ofCode t = .functionSignature) (hp : Plain t)
    (hne : t ≠ []) (hF : F.blocks = []) :
    Advances t F fun F' => ∃ f : FunctionFrame, f.depth = F.depth ∧ F' = { F with function := some f } := by
  rintro s s' rfl ht
  obtain ⟨lowered, hrun⟩ := ht.lowers hne hp hF (h.not_startsWith rfl) hkind
  obtain ⟨known, prototypes, f, rfl, hf⟩ := (keeps_functionDefinition t).ok hrun
  refine ⟨f, hf, ?_⟩
  show (⟨braceDepth s.depth t, s.blocks, s.switches, s.closures, some f⟩ : Frames) = _
  rw [h.braceDepth_eq]
  rfl

/-! ## 4. Heads -/

/-- The text between a keyword and what ends its line: well nested, with a space in front. -/
@[mk_iff] structure Head (H : Text) : Prop where
  wellNested : WellNested H
  space : H.head? = some ' '

instance (H : Text) : Decidable (Head H) := decidable_of_iff _ (head_iff ..).symm

theorem headText_eq (H : Text) : headText (H ++ "\x7b") = trim H :=
  trim_stripEnd_concat rfl H

/-- A keyword as the head of a line: it holds nothing but letters. -/
@[mk_iff] structure Keyword (w : Text) (kind : StatementKind) : Prop where
  lookup : keywords.lookup w = some kind
  bare : Bare w
  noBreak : ∀ c ∈ w, isBreak c = false
  notRuled : w ∉ ruled
  noBrace : startsWith w "\x7d" = false
  notEmpty : w ≠ []
  notR : w.getLast? ≠ some 'R'

instance (w : Text) (kind : StatementKind) : Decidable (Keyword w kind) := decidable_of_iff _ (keyword_iff ..).symm

namespace Keyword

variable {w H : Text} {kind : StatementKind} {c : Char}

theorem firstWord_eq (h : Keyword w kind) (hH : Head H) (r : Text) :
    firstWord (w ++ (H ++ r)) = w := by
  refine firstWord_append h.noBreak fun d hd => ?_
  have hsp := hH.space
  cases H with
  | nil => cases hsp
  | cons e H =>
    have he : e = ' ' := by simpa using hsp
    have hde : d = e := by simpa using hd.symm
    rw [hde, he]
    decide

theorem ofCode_eq (h : Keyword w kind) (hH : Head H) (hc : c ≠ '(') :
    ofCode (w ++ (H ++ [c])) = kind := by
  refine ofCode_keyword (w := w) ?_ (h.firstWord_eq hH [c]) h.notRuled h.lookup
  rw [← append_assoc]
  exact endsWith_concat_of_ne _ hc

theorem not_startsWith_brace (h : Keyword w kind) (r : Text) : startsWith (w ++ r) "\x7d" = false := by
  have hb := h.noBrace
  have hne := h.notEmpty
  cases w with
  | nil => exact absurd rfl hne
  | cons d w =>
    refine startsWith_of_head? rfl rfl fun hd => ?_
    rw [hd] at hb
    cases hb

theorem wellNested (h : Keyword w kind) (hH : Head H) : WellNested (w ++ H) :=
  h.bare.wellNested.append hH.wellNested h.notR

theorem classify_eq (h : Keyword w kind) (hH : Head H) (hc : c ≠ '(') (hp : Plain (w ++ (H ++ [c])))
    (hb : s.blocks = []) : s.classify (w ++ (H ++ [c])) = kind := by
  have hs := h.not_startsWith_brace (H ++ [c])
  rw [classify_eq_ofCode (by simp) hp hb (closesClosure_eq_false hs), h.ofCode_eq hH hc]

theorem lower (h : Keyword w kind) (hH : Head H) (hc : c ≠ '(') (hp : Plain (w ++ (H ++ [c])))
    (hb : s.blocks = []) (ht : Takes (w ++ (H ++ [c])) s s') :
    ∃ lowered, (line kind (w ++ (H ++ [c]))).run (s.countBraces (w ++ (H ++ [c])))
      = .ok lowered s' :=
  ht.lowers (by simp) hp hb (h.not_startsWith_brace _) (h.ofCode_eq hH hc)

end Keyword

theorem advances_head (h : Keyword w kind) (hH : Head H) (hp : Plain (w ++ (H ++ "\x7b"))) (hF : F.blocks = [])
    (hlow : Keeps (fun _ => True) SameFrames (line kind (w ++ (H ++ "\x7b")))) :
    Advances (w ++ (H ++ "\x7b")) F (· = { F with depth := F.depth + 1 }) := by
  rintro s s' rfl ht
  obtain ⟨lowered, hrun⟩ := h.lower hH (by decide) hp hF ht
  have hd : braceDepth s.depth (w ++ (H ++ "\x7b")) = s.depth + 1 := by
    rw [← append_assoc]
    exact (h.wellNested hH).braceDepth_open s.depth
  exact SameFrames.eq (hlow.ok hrun) hd

theorem sameFrames_if (hH : Head H) :
    Keeps (fun _ => True) SameFrames (line .ifStatement ("if" ++ (H ++ "\x7b"))) := by
  have hhead : WellNested (headText (stripStart "if" ("if" ++ (H ++ "\x7b")))) := by
    rw [stripStart_append, headText_eq]
    exact hH.wellNested.trim
  exact (spec_ifStatement _).keeps.sameFrames hhead hhead

theorem Head.wellNested_switchInit (hH : Head H) :
    ∀ c ∈ (splitSwitchHead ("switch" ++ (H ++ "\x7b"))).1, WellNested c := by
  intro c hc
  have hhead : trim (stripEnd "\x7b" (trim (stripStart "switch" ("switch" ++ (H ++ "\x7b")))))
      = trim H := by
    rw [stripStart_append]
    exact headText_eq H
  unfold splitSwitchHead at hc
  rw [hhead] at hc
  cases hi : topIndex? ';' (trim H) with
  | none =>
    simp only [hi] at hc
    cases hc
  | some i =>
    simp only [hi, Option.mem_def, Option.some.injEq] at hc
    rw [← hc]
    exact (hH.wellNested.trim.topIndex hi rfl (by decide)).1.trim

theorem advances_switch (hH : Head H) (hp : Plain ("switch" ++ (H ++ "\x7b"))) (hF : F.blocks = []) :
    Advances ("switch" ++ (H ++ "\x7b")) F fun F' => ∃ discriminant, F' = { F with
      depth := F.depth + 1
      switches := ⟨discriminant, true, F.depth⟩ :: F.switches } := by
  rintro s s' rfl ht
  have hword : Keyword "switch" .switch := by decide
  obtain ⟨lowered, hrun⟩ := hword.lower hH (by decide) hp hF ht
  have hd : braceDepth s.depth ("switch" ++ (H ++ "\x7b")) = s.depth + 1 := by
    rw [← append_assoc]
    exact (hword.wellNested hH).braceDepth_open s.depth
  have hinit := hH.wellNested_switchInit
  have hswitch := @keeps_switch True True ("switch" ++ (H ++ "\x7b")) (fun _ => hinit) fun _ => hinit
  obtain ⟨s₁, ho, names, notices, discriminant, rfl⟩ := hswitch.ok hrun
  have hframes := SameFrames.eq (ho.frames_eq trivial trivial) hd
  have hbefore : s₁.depthBefore = s.depth := ho.depthBefore_eq
  refine ⟨discriminant, ?_⟩
  show ({ s₁.frames with switches := ⟨discriminant, true, s₁.depthBefore⟩ :: s₁.frames.switches } : Frames) = _
  rw [hframes, hbefore]
  rfl

theorem advances_case {V : Text} (hV : Head V) (hp : Plain ("case" ++ (V ++ ":"))) (hF : F.blocks = [])
    (hs : F.switches = f :: fs) :
    Advances ("case" ++ (V ++ ":")) F
      (· = { F with switches := { f with firstClause := false } :: fs }) := by
  rintro s s' rfl ht
  have hword : Keyword "case" .caseClause := by decide
  obtain ⟨lowered, hrun⟩ := hword.lower (c := ':') hV (by decide) hp hF ht
  obtain ⟨g, gs, hg, rfl⟩ := (keeps_caseClause _).ok hrun
  obtain ⟨rfl, rfl⟩ := cons.inj (hg.symm.trans hs)
  have hd : braceDepth s.depth ("case" ++ (V ++ [':'])) = s.depth := by
    rw [← append_assoc]
    exact (Bare.append_wellNested (hword.wellNested hV) (by decide)).braceDepth_eq s.depth
  simp only [enterClause, frames, countBraces, hd]

theorem advances_default (hF : F.blocks = []) (hs : F.switches = f :: fs) :
    Advances "default:" F (· = { F with switches := { f with firstClause := false } :: fs }) := by
  rintro s s' rfl ht
  obtain ⟨lowered, hrun⟩ := ht.lowers (by decide) (by decide) hF rfl
    (by decide : ofCode "default:" = .defaultClause)
  rcases keeps_defaultClause.ok hrun with ⟨hnil, _⟩ | ⟨g, gs, hg, rfl⟩
  · cases hs.symm.trans hnil
  · obtain ⟨rfl, rfl⟩ := cons.inj (hg.symm.trans hs)
    have hd : braceDepth s.depth "default:" = s.depth :=
      WellNested.braceDepth_eq (by decide) s.depth
    simp only [noticeDefault]
    split <;> simp only [enterClause, frames, countBraces, notice, hd]

/-! ## 5. Braces -/

theorem Frames.Below.mono {d' : Nat} (h : F.Below d) (hd : d ≤ d') : F.Below d' :=
  ⟨h.blocks, fun f hf => Nat.lt_of_lt_of_le (h.switches f hf) hd,
    fun f hf => Nat.lt_of_lt_of_le (h.closures f hf) hd,
    fun f hf => Nat.lt_of_lt_of_le (h.function f hf) hd⟩

theorem any_eq_false_of_ne {α : Type} (depth : α → Nat) {x : Option α} (h : ∀ f ∈ x, depth f ≠ d) :
    x.any (fun f => depth f == d) = false := by
  cases x with
  | none => rfl
  | some f => simpa using h f rfl

theorem State.closesClosure_of_lt (h : ∀ f ∈ s.closures.head?, f.depth < d) : s.closesClosure t d = false := by
  unfold closesClosure
  rw [any_eq_false_of_ne ClosureFrame.depth fun f hf => Nat.ne_of_lt (h f hf), Bool.and_false]

theorem State.closeFunction_of_ne (h : ∀ f ∈ s.function, f.depth ≠ s.depth) :
    s.closeFunction t rendered = (rendered, s) := by
  unfold closeFunction closesFunction
  rw [any_eq_false_of_ne FunctionFrame.depth h, Bool.and_false]
  rfl

theorem State.closeBrace_of_ne (hs : ∀ f ∈ s.switches.head?, f.depth ≠ s.depth)
    (hf : ∀ f ∈ s.function, f.depth ≠ s.depth) : s.closeBrace t rendered = (rendered, s) := by
  have hnone : s.switchAt? s.depth = none := by
    unfold switchAt?
    cases hh : s.switches.head? with
    | none => rfl
    | some f =>
      rw [Option.filter_some, if_neg]
      simpa using hs f hh
  unfold closeBrace
  rw [hnone]
  exact closeFunction_of_ne hf

theorem Takes.brace (h : Takes t s s') (hkind : ofCode t = .expression)
    (hs : startsWith t "\x7d" = true) (hp : Plain t) (hb : s.blocks = [])
    (hc : ∀ f ∈ s.closures.head?, f.depth < braceDepth s.depth t) :
    s' = ((s.countBraces t).closeBrace t (expression t).render).2 := by
  obtain ⟨lowered, s₁, hrun, rfl⟩ := h
  have hne : t ≠ [] := fun e => by rw [e] at hs; cases hs
  have hk : (s.countBraces t).classify t = .expression := by
    rw [classify_eq_ofCode (s := s.countBraces t) hne hp hb (closesClosure_of_lt hc), hkind]
  rw [hk] at hrun ⊢
  obtain ⟨rfl, rfl⟩ : expression t = lowered ∧ s.countBraces t = s₁ := by
    simpa [line] using hrun
  unfold finishLine
  rw [hs]
  rfl

theorem advances_brace (hkind : ofCode t = .expression) (hs : startsWith t "\x7d" = true)
    (hp : Plain t) (hd : braceDepth F.depth t = d) (hb : F.blocks = [])
    (hsw : ∀ f ∈ F.switches.head?, f.depth < d) (hc : ∀ f ∈ F.closures.head?, f.depth < d)
    (hf : ∀ f ∈ F.function, f.depth ≠ d) : Advances t F (· = { F with depth := d }) := by
  subst hd
  rintro s s' rfl ht
  rw [ht.brace hkind hs hp hb hc, closeBrace_of_ne (s := s.countBraces t)
    (fun f hf => Nat.ne_of_lt (hsw f hf)) hf]
  rfl

theorem advances_switchEnd (hb : F.blocks = []) (hd : F.depth = d + 1) (hs : F.switches = f :: fs)
    (hf : f.depth = d) (hc : ∀ c ∈ F.closures.head?, c.depth < d) (hfun : ∀ g ∈ F.function, g.depth < d) :
    Advances "\x7d" F (· = { F with depth := d, switches := fs }) := by
  rintro s s' rfl ht
  have hdepth : braceDepth s.depth "\x7d" = d := by
    rw [show s.depth = d + 1 from hd]
    rfl
  have hat : (s.countBraces "\x7d").switchAt? (s.countBraces "\x7d").depth = some f := by
    show (s.switches.head?).filter (fun f => f.depth == braceDepth s.depth "\x7d") = some f
    rw [hdepth, show s.switches = f :: fs from hs, head?_cons, Option.filter_some,
      if_pos (by simpa using hf)]
  have hexit : ((s.countBraces "\x7d").exitSwitch).frames
      = { s.frames with depth := d, switches := fs } := by
    show (⟨braceDepth s.depth "\x7d", s.blocks, s.switches.tail, s.closures, s.function⟩ : Frames) = _
    rw [hdepth, show s.switches = f :: fs from hs]
    rfl
  rw [ht.brace rfl rfl (by decide) hb (hdepth ▸ hc)]
  unfold closeBrace
  rw [hat]
  simp only
  split
  · exact hexit
  · rw [closeFunction_of_ne]
    · exact hexit
    · show ∀ f ∈ s.function, f.depth ≠ braceDepth s.depth "\x7d"
      rw [hdepth]
      exact fun f hf => Nat.ne_of_lt (hfun f hf)

theorem State.classify_closureEnd {c : ClosureFrame} (hs : startsWith t "\x7d" = true)
    (hp : Plain t) (hb : s.blocks = []) (hc : s.closures = c :: cs) (hd : c.depth = s.depth) :
    s.classify t = .closureEnd := by
  have hne : t.isEmpty = false := by
    cases t with
    | nil => cases hs
    | cons => rfl
  have hcl : s.closesClosure t s.depth = true := by
    unfold closesClosure
    rw [hs, hc]
    simp only [head?_cons, Option.any_some, Bool.true_and, beq_iff_eq]
    exact hd
  unfold classify block?
  rw [hne, hb]
  simp only [Bool.false_eq_true, if_false, head?_nil, Option.map_none, hp.not_startsWith_comment, hcl, if_true]

theorem advances_closureEnd (hs : startsWith t "\x7d" = true) (hp : Plain t) {c : ClosureFrame}
    (hb : F.blocks = []) (hc : F.closures = c :: cs)
    (hd : braceDepth F.depth t = c.depth) : Advances t F (· = { F with depth := c.depth, closures := cs }) := by
  rintro s s' rfl ht
  have hk : (s.countBraces t).classify t = .closureEnd := classify_closureEnd hs hp hb hc hd.symm
  obtain ⟨lowered, hrun⟩ := ht.lower hk rfl
  obtain ⟨lowered', hend, _⟩ := closureEnd_run t (s.countBraces t)
  rw [show (line .closureEnd t).run (s.countBraces t) = _ from hend] at hrun
  cases hrun
  show (⟨braceDepth s.depth t, s.blocks, s.switches, s.closures.tail, s.function⟩ : Frames) = _
  rw [show braceDepth s.depth t = c.depth from hd, show s.closures = c :: cs from hc]
  rfl

theorem ofCode_elseIf (hH : Head H) : ofCode ("\x7d else if" ++ (H ++ "\x7b")) = .elseIf := by
  obtain ⟨r, rfl⟩ : ∃ r, H = ' ' :: r := by
    have hsp := hH.space
    cases H with
    | nil => cases hsp
    | cons c r => exact ⟨r, by simpa using hsp⟩
  have hlast : endsWith ("\x7d else if" ++ (' ' :: r ++ ("\x7b" : Text))) "(" = false := by
    rw [← append_assoc]
    exact endsWith_concat_of_ne _ (by decide)
  have hword : firstWord ("\x7d else if" ++ (' ' :: r ++ "\x7b")) = "\x7d" := by
    rw [show "\x7d else if" ++ (' ' :: r ++ "\x7b")
      = "\x7d" ++ (" else if" ++ (' ' :: r ++ "\x7b")) from rfl]
    refine firstWord_append (by decide) fun c hc => ?_
    have : c = ' ' := by simpa using hc.symm
    rw [this]
    decide
  have hfirst : ofFirstWord? ("\x7d else if" ++ (' ' :: r ++ "\x7b")) = none := by
    rw [ofFirstWord?_eq_lookup (by rw [hword]; decide), hword]
    decide
  unfold ofCode
  rw [groupOpener?_eq_none hlast, hfirst]
  unfold ofSigns
  rw [show startsWith ("\x7d else if" ++ (' ' :: r ++ "\x7b")) "\x7d else if " = true from
    startsWith_append "\x7d else if " (r ++ "\x7b")]
  rfl

theorem advances_elseIf (hH : Head H) (hp : Plain ("\x7d else if" ++ (H ++ "\x7b"))) (hd : F.depth = d + 1)
    (hF : F.Below (d + 1)) : Advances ("\x7d else if" ++ (H ++ "\x7b")) F (· = F) := by
  rintro s s' rfl ht
  have hdepth : braceDepth s.depth ("\x7d else if" ++ (H ++ "\x7b")) = s.depth := by
    have hw : WellNested (" else if" ++ H) :=
      (by decide : Bare (" else if" : Text)).wellNested.append hH.wellNested (by decide)
    rw [show s.depth = d + 1 from hd]
    have := hw.braceDepth_reopen d
    rw [append_assoc] at this
    exact this
  have hcl : (s.countBraces ("\x7d else if" ++ (H ++ "\x7b"))).closesClosure
      ("\x7d else if" ++ (H ++ "\x7b")) (s.countBraces ("\x7d else if" ++ (H ++ "\x7b"))).depth = false := by
    refine closesClosure_of_lt ?_
    show ∀ f ∈ s.closures.head?, f.depth < braceDepth s.depth _
    rw [hdepth, show s.depth = d + 1 from hd]
    exact hF.closures
  have hkind : (s.countBraces ("\x7d else if" ++ (H ++ "\x7b"))).classify
      ("\x7d else if" ++ (H ++ "\x7b")) = .elseIf := by
    rw [classify_eq_ofCode (s := s.countBraces _) (by simp) hp hF.blocks hcl, ofCode_elseIf hH]
  obtain ⟨lowered, hrun⟩ := ht.lower hkind rfl
  have hlow : Keeps (fun _ => True) SameFrames
      (line .elseIf ("\x7d else if" ++ (H ++ "\x7b"))) := by
    have hhead : WellNested (headText
        (stripStart "\x7d else if" ("\x7d else if" ++ (H ++ "\x7b")))) := by
      rw [stripStart_append, headText_eq]
      exact hH.wellNested.trim
    exact (spec_elseIf _).keeps.sameFrames hhead hhead
  exact SameFrames.eq (hlow.ok hrun) hdepth

/-! ## 6. Closures -/

theorem advances_deferred (hF : F.blocks = []) :
    Advances "defer func() \x7b" F (· = { F with
      depth := F.depth + 1
      closures := ⟨.deferred, F.depth⟩ :: F.closures }) := by
  rintro s s' rfl ht
  obtain ⟨lowered, hrun⟩ := ht.lowers (by decide) (by decide) hF rfl
    (by decide : ofCode "defer func() \x7b" = .defer)
  have hd : braceDepth s.depth "defer func() \x7b" = s.depth + 1 :=
    WellNested.braceDepth_open (s := "defer func() ") (by decide) s.depth
  cases hrun
  show (⟨braceDepth s.depth _, s.blocks, s.switches, ⟨.deferred, s.depth⟩ :: s.closures,
    s.function⟩ : Frames) = _
  rw [hd]
  rfl

theorem ne_nil_define (x v : Text) : x ++ ((" := " : Text) ++ v) ≠ [] := by
  have hsign : (" := " : Text) ++ v ≠ [] := append_ne_nil_of_left_ne_nil (by decide) v
  exact append_ne_nil_of_right_ne_nil x hsign

theorem takes_define (hx : IsName x) (hp : Plain (x ++ (" := " ++ v))) (hb : s.blocks = [])
    (ht : Takes (x ++ (" := " ++ v)) s s') (hkind : ofCode (x ++ (" := " ++ v)) = kind) :
    ∃ lowered, (line kind (x ++ (" := " ++ v))).run (s.countBraces (x ++ (" := " ++ v)))
      = .ok lowered s' :=
  ht.lowers (ne_nil_define x v) hp hb (not_startsWith_identifier hx.identifier rfl _) hkind

theorem binding_define (hx : IsName x) (v : Text) :
    Binding.split? (x ++ (" := " ++ v)) = some ⟨x, trim v, .define⟩ := by
  rw [Binding.split?_define (bare_of_isIdentifier hx.identifier)
    (not_mem_of_isIdentifier hx.identifier rfl) v,
    trim_eq_self_of_solid (solid_of_isIdentifier hx.identifier)]

/-- The head of a function literal, its body to come. -/
def functionHead (params results : Text) : Text := "func(" ++ (params ++ (")" ++ (results ++ "\x7b")))

theorem StatementKind.opensMapLiteral_func (hv : trim v = v) (hhead : v.head? = some 'f') :
    opensMapLiteral (trim v) = false := by
  unfold opensMapLiteral
  cases hl : Composite.split? (trim v) with
  | none => rfl
  | some lit =>
    have htype := Composite.head?_type hl
    rw [trim_trim, hv, hhead] at htype
    have : isMapType lit.type = false := by
      unfold isMapType
      cases ht : lit.type with
      | nil => rfl
      | cons c r =>
        have hc : c = 'f' := by
          rw [ht] at htype
          exact Option.some.inj htype
        rw [trimStart_cons_of_solid (by rw [hc]; decide), hc]
        rfl
    simp [this]

theorem trim_functionHead (params results : Text) :
    trim (functionHead params results) = functionHead params results := by
  unfold functionHead
  rw [← append_assoc, ← append_assoc, ← append_assoc]
  exact trim_concat_of_solid (fun c hc => by
    have : c = 'f' := by simpa using hc.symm
    rw [this]; decide) (by simp) rfl

theorem wellNested_functionHead (hx : IsName x) (hP : WellNested params) (hR : WellNested results) :
    WellNested (x ++ (" := func" ++ ('(' :: (params ++ [')']) ++ results))) := by
  have hparen := hP.bracketed (o := '(') (k := ')') rfl
  have htail : WellNested ('(' :: (params ++ [')']) ++ results) := by
    refine hparen.append hR ?_
    rw [← cons_append, getLast?_concat]
    decide
  rw [← append_assoc]
  refine ((bare_of_isIdentifier hx.identifier).append (by decide)).wellNested.append htail ?_
  simp

theorem advances_functionLiteral (hx : IsName x) (hP : WellNested params) (hR : WellNested results)
    (hp : Plain (x ++ (" := " ++ functionHead params results))) (hF : F.blocks = []) :
    Advances (x ++ (" := " ++ functionHead params results)) F fun F' =>
      F' = { F with depth := F.depth + 1 } ∨
      F' = { F with depth := F.depth + 1, closures := ⟨.lambda, F.depth⟩ :: F.closures } := by
  rintro s s' rfl ht
  have hshape : x ++ (" := " ++ functionHead params results)
      = (x ++ (" := func" ++ ('(' :: (params ++ [')']) ++ results))) ++ "\x7b" := by
    unfold functionHead
    rw [append_assoc, append_assoc, append_assoc, cons_append, append_assoc]
    rfl
  have hlast : endsWith (x ++ (" := " ++ functionHead params results)) "(" = false := by
    rw [hshape]
    exact endsWith_concat_of_ne _ (by decide)
  have hd : braceDepth s.depth (x ++ (" := " ++ functionHead params results)) = s.depth + 1 := by
    rw [hshape]
    exact (wellNested_functionHead hx hP hR).braceDepth_open s.depth
  have hmap := opensMapLiteral_func (trim_functionHead params results) rfl
  have hkind := ofCode_define hx.identifier hx.notReserved hlast
  rw [hmap] at hkind
  by_cases hch : mentionsChannel (x ++ (" := " ++ functionHead params results)) = true
  · -- passed through as it stands
    rw [if_pos hch] at hkind
    obtain ⟨lowered, hrun⟩ := takes_define hx hp hF ht hkind
    exact .inl (SameFrames.eq
      (((spec_passThrough _ _).keeps.sameFrames trivial trivial).ok hrun) hd)
  · rw [if_neg hch, if_neg Bool.false_ne_true] at hkind
    obtain ⟨lowered, hrun⟩ := takes_define hx hp hF ht hkind
    right
    have hend : endsWith (functionHead params results) "\x7b" = true := by
      unfold functionHead
      rw [← append_assoc, ← append_assoc, ← append_assoc]
      exact endsWith_append _ _
    obtain ⟨lowered', known, hlit⟩ := functionLiteral_run x .define hend
      (s.countBraces (x ++ (" := " ++ functionHead params results)))
    have hassign : Lower.assignment (x ++ (" := " ++ functionHead params results))
        = Lower.functionLiteral x .define (functionHead params results) := by
      unfold Lower.assignment
      rw [binding_define hx, trim_functionHead]
      rfl
    have hrun : (Lower.assignment _).run _ = .ok lowered s' := hrun
    rw [hassign, hlit] at hrun
    cases hrun
    show (⟨braceDepth s.depth _, s.blocks, s.switches, ⟨.lambda, s.depth⟩ :: s.closures,
      s.function⟩ : Frames) = _
    rw [hd]
    rfl

/-! ## 7. Literals over several lines -/

/-- A type in front of the brace of a literal: a name, a slice, an array or a map. -/
@[mk_iff] structure LiteralType (T : Text) : Prop where
  wellNested : WellNested T
  shape : isIdentifier T = true ∨ startsWith T "[" = true ∨ startsWith T "map[" = true

instance (T : Text) : Decidable (LiteralType T) := decidable_of_iff _ (literalType_iff ..).symm

namespace LiteralType

variable {T : Text}

theorem head_cases (h : LiteralType T) : ∃ c r, T = c :: r ∧
    (isIdentifier T = true ∧ isWordChar c = true ∨ c = '[' ∨ c = 'm' ∧ isIdentifier T = false) := by
  by_cases hid : isIdentifier T = true
  · obtain ⟨c, r, rfl, hc⟩ := exists_cons_of_isIdentifier hid
    exact ⟨c, r, rfl, .inl ⟨hid, hc⟩⟩
  · rcases h.shape with hs | hs | hs
    · exact absurd hs hid
    · obtain ⟨r, rfl⟩ := startsWith_iff.mp hs
      exact ⟨'[', r, rfl, .inr (.inl rfl)⟩
    · obtain ⟨r, rfl⟩ := startsWith_iff.mp hs
      exact ⟨'m', "ap[" ++ r, rfl, .inr (.inr ⟨rfl, by simpa using hid⟩)⟩

theorem solid (h : LiteralType T) : SolidStart T := by
  intro d hd
  obtain ⟨c, r, rfl, hc⟩ := h.head_cases
  obtain rfl : c = d := by simpa using hd
  rcases hc with ⟨_, hw⟩ | rfl | ⟨rfl, _⟩
  · exact not_isBlank_of_isWordChar hw
  · decide
  · decide

theorem ne_nil (h : LiteralType T) : T ≠ [] := by
  obtain ⟨c, r, rfl, _⟩ := h.head_cases
  exact cons_ne_nil c r

theorem trim_open (h : LiteralType T) : trim (T ++ "\x7b") = T ++ "\x7b" :=
  trim_concat_of_solid h.solid h.ne_nil rfl

theorem not_startsWith (h : LiteralType T) {c d : Char} (hw : w.head? = some c) (hc : c ≠ '[' ∧ c ≠ 'm')
    (hd : d ∈ w) (hdw : isWordChar d = false) (hb : '{' ∉ w) : startsWith (T ++ "\x7b") w = false := by
  refine Bool.eq_false_iff.mpr fun hs => ?_
  obtain ⟨t, ht⟩ := startsWith_iff.mp hs
  obtain ⟨e, r, rfl, he⟩ := h.head_cases
  cases w with
  | nil => cases hw
  | cons c' w =>
    obtain rfl : c' = c := by simpa using hw
    have hec : e = c' := (cons.inj ht).1
    rcases he with ⟨hid, _⟩ | rfl | ⟨rfl, _⟩
    · obtain ⟨u, hu⟩ := prefix_of_append_cons hb ⟨t, ht.symm⟩
      exact not_mem_of_isIdentifier hid hdw (hu ▸ mem_append_left u hd)
    · exact hc.1 hec.symm
    · exact hc.2 hec.symm

end LiteralType

/-- The line opens a block for entries below: no brace in the type, and no channels. -/
def OpensLiteral (x T : Text) : Prop :=
  topIndex? '{' T = none ∧ mentionsChannel (x ++ (" := " ++ (T ++ "\x7b"))) = false

instance (x T : Text) : Decidable (OpensLiteral x T) := inferInstanceAs (Decidable (_ ∧ _))

/-- The blocks of literals. -/
def Block.isLiteral : Block → Bool
  | mapLiteral | compositeLiteral => true
  | _ => false

theorem LiteralType.callArguments?_append (h : LiteralType T) : callArguments? "append" (T ++ "\x7b") = none := by
  unfold callArguments?
  cases hs : stripStart? "append" (T ++ "\x7b") with
  | none => rfl
  | some r =>
    have hno : startsWith r "(" = false := by
      refine Bool.eq_false_iff.mpr fun hr => ?_
      obtain ⟨t, rfl⟩ := startsWith_iff.mp hr
      have hfit : startsWith (T ++ "\x7b") "append(" = true := by
        rw [eq_append_of_stripStart? hs]
        exact startsWith_append "append(" t
      rw [h.not_startsWith (w := "append(") (d := '(') rfl (by decide) (by decide)
        rfl (by decide)] at hfit
      cases hfit
    rw [Option.bind_some, hno]
    rfl

theorem length_splitTop_name (hx : IsName x) : (splitTop ',' x).length ≤ 1 := by
  unfold splitTop
  split
  · exact Nat.zero_le 1
  · have hcount : x.count ',' = 0 :=
      count_eq_zero.mpr (not_mem_of_isIdentifier hx.identifier rfl)
    have hlen : (cutsFrom ',' Lexer.start 0 x).length = x.count ',' + 1 :=
      (bare_of_isIdentifier hx.identifier).length_cutsFrom rfl
    exact Nat.le_of_eq (by rw [length_map, hlen, hcount])

theorem assignment_literal (hx : IsName x) (hT : LiteralType T) :
    Lower.assignment (x ++ (" := " ++ (T ++ "\x7b"))) = assignOne x (T ++ "\x7b") .define := by
  have hf : ∀ w ∈ [("func(" : Text), "func ("], startsWith (T ++ "\x7b") w = false := by
    intro w hw
    refine hT.not_startsWith (c := 'f') (d := '(') ?_ (by decide) ?_ rfl ?_ <;> revert w <;>
      decide
  unfold Lower.assignment
  rw [binding_define hx, hT.trim_open]
  simp only [hf "func(" (by decide), hf "func (" (by decide), Bool.or_self, Bool.false_eq_true,
    if_false, length_splitTop_name hx, if_true]

theorem advances_literal (hx : IsName x) (hT : LiteralType T)
    (hp : Plain (x ++ (" := " ++ (T ++ "\x7b")))) (hF : F.blocks = []) :
    Advances (x ++ (" := " ++ (T ++ "\x7b"))) F fun F' =>
      (¬ OpensLiteral x T ∧ F' = { F with depth := F.depth + 1 }) ∨
      OpensLiteral x T ∧ ∃ block, Block.isLiteral block = true
        ∧ F' = { F with depth := F.depth + 1, blocks := [⟨block, F.depth⟩] } := by
  rintro s s' rfl ht
  have hlast : endsWith (x ++ (" := " ++ (T ++ "\x7b"))) "(" = false := by
    rw [← append_assoc, ← append_assoc]
    exact endsWith_concat_of_ne _ (by decide)
  have hd : braceDepth s.depth (x ++ (" := " ++ (T ++ "\x7b"))) = s.depth + 1 := by
    have hw : WellNested (x ++ " := " ++ T) :=
      ((bare_of_isIdentifier hx.identifier).append (by decide)).wellNested.append hT.wellNested
        (by simp)
    rw [← append_assoc, ← append_assoc]
    exact hw.braceDepth_open s.depth
  have hkind := ofCode_define hx.identifier hx.notReserved hlast
  rw [hT.trim_open] at hkind
  by_cases hch : mentionsChannel (x ++ (" := " ++ (T ++ "\x7b"))) = true
  · -- passed through as it stands
    rw [if_pos hch] at hkind
    obtain ⟨lowered, hrun⟩ := takes_define hx hp hF ht hkind
    refine .inl ⟨fun ho => ?_, SameFrames.eq ?_ hd⟩
    · rw [ho.2] at hch
      cases hch
    · exact ((spec_passThrough _ _).keeps.sameFrames trivial trivial).ok hrun
  · rw [if_neg hch] at hkind
    cases hi : topIndex? '{' T with
    | some i =>
      -- the brace of the type is taken for that of the literal, which it is not
      have hnone := Composite.split?_eq_none hT.wellNested hT.solid hi
      have hmap : StatementKind.opensMapLiteral (T ++ "\x7b") = false := by
        unfold StatementKind.opensMapLiteral
        rw [hnone]
        rfl
      rw [hmap, if_neg Bool.false_ne_true] at hkind
      obtain ⟨lowered, hrun⟩ := takes_define hx hp hF ht hkind
      have hrun : (Lower.assignment _).run _ = .ok lowered s' := hrun
      rw [assignment_literal hx hT] at hrun
      refine .inl ⟨fun ho => ?_, SameFrames.eq ?_ hd⟩
      · rw [ho.1] at hi
        cases hi
      · refine ((spec_assignOne (E := fun _ => True) _ _ _
          (fun _ _ => trivial) fun _ lit hl => ?_).keeps.sameFrames trivial trivial).ok hrun
        rw [hnone] at hl
        cases hl
    | none =>
      have hopen := Composite.split?_open hT.wellNested hT.solid hT.ne_nil hi
      have pushed : ∀ block : Block,
          (⟨braceDepth s.depth (x ++ (" := " ++ (T ++ "\x7b"))), ⟨block, s.depth⟩ :: s.blocks, s.switches,
            s.closures, s.function⟩ : Frames)
          = { s.frames with depth := s.depth + 1, blocks := [⟨block, s.depth⟩] } := by
        intro block
        rw [hd, show s.blocks = [] from hF]
        rfl
      refine .inr ⟨⟨hi, by simpa using hch⟩, ?_⟩
      by_cases hmap : StatementKind.opensMapLiteral (T ++ "\x7b") = true
      · rw [if_pos hmap] at hkind
        obtain ⟨lowered, hrun⟩ := takes_define hx hp hF ht hkind
        obtain ⟨known, valueType, rfl⟩ := (keeps_mapLiteralOpen _).ok hrun
        exact ⟨.mapLiteral, rfl, pushed .mapLiteral⟩
      · rw [if_neg hmap] at hkind
        obtain ⟨lowered, hrun⟩ := takes_define hx hp hF ht hkind
        have hrun : (Lower.assignment _).run _ = .ok lowered s' := hrun
        have hdiscard : isDiscard x = false := by
          unfold isDiscard
          rw [trim_eq_self_of_solid (solid_of_isIdentifier hx.identifier)]
          simpa using hx.notBlank
        obtain ⟨lowered', aggregates, hone⟩ := assignOne_run .define hdiscard
          hT.callArguments?_append hopen rfl (s.countBraces (x ++ (" := " ++ (T ++ "\x7b"))))
        rw [assignment_literal hx hT, hone] at hrun
        cases hrun
        exact ⟨.compositeLiteral, rfl, pushed .compositeLiteral⟩

theorem State.classify_in_literal (hne : t ≠ []) (hp : Plain t) (hblock : block.isLiteral = true)
    (hb : s.blocks = [⟨block, d⟩]) :
    s.classify t
      = if startsWith t "\x7d" && decide (s.depth ≤ d) then .blockClose block else .inside block := by
  have he : t.isEmpty = false := by simpa using hne
  unfold classify block? closesBlock
  rw [he, hb]
  simp only [Bool.false_eq_true, if_false, head?_cons, Option.map_some, Option.any_some,
    hp.not_startsWith_comment]
  cases block with
  | mapLiteral | compositeLiteral => rfl
  | _ => cases hblock

theorem advances_entry (h : WellNested t) (hp : Plain t) (hne : t ≠ []) (hblock : block.isLiteral = true)
    (hF : F.blocks = [⟨block, d⟩]) : Advances t F (· = F) := by
  rintro s s' rfl ht
  have hs : startsWith t "\x7d" = false := h.not_startsWith (c := '}') rfl
  have hkind : (s.countBraces t).classify t = .inside block := by
    rw [classify_in_literal (s := s.countBraces t) hne hp hblock hF, hs]
    rfl
  obtain ⟨lowered, hrun⟩ := ht.lower hkind (by rw [hs, Bool.and_false])
  have hlow : Keeps (fun _ => True) SameFrames (line (.inside block) t) := by
    cases block with
    | mapLiteral =>
      exact (spec_mapLiteralEntry t).keeps.sameFrames trivial trivial
    | compositeLiteral => exact keeps_pure (R := SameFrames) (fun _ => rfl) _
    | _ => cases hblock
  exact SameFrames.eq (hlow.ok hrun) (h.braceDepth_eq _)

theorem advances_literalEnd (hblock : block.isLiteral = true) (hd : F.depth = d + 1)
    (hF : F.blocks = [⟨block, d⟩]) : Advances "\x7d" F (· = { F with depth := d, blocks := [] }) := by
  rintro s s' rfl ht
  have hdepth : braceDepth s.depth "\x7d" = d := by
    rw [show s.depth = d + 1 from hd]
    rfl
  have hkind : (s.countBraces "\x7d").classify "\x7d" = .blockClose block := by
    rw [classify_in_literal (s := s.countBraces "\x7d") (by decide) (by decide) hblock hF,
      show (s.countBraces "\x7d").depth = d from hdepth, if_pos (by simp [startsWith])]
  obtain ⟨lowered, hrun⟩ := ht.lower hkind (by cases block <;> rfl)
  obtain ⟨lowered', hclose, _⟩ := blockClose_run block "\x7d" (s.countBraces "\x7d")
  rw [show (line (.blockClose block) "\x7d").run (s.countBraces "\x7d") = _ from hclose] at hrun
  cases hrun
  show (⟨braceDepth s.depth "\x7d", s.blocks.tail, s.switches, s.closures, s.function⟩ : Frames) = _
  rw [hdepth, show s.blocks = [⟨block, d⟩] from hF]
  rfl

end Linewise
