/-
  What lowering one statement may do to the state, and what becomes of its text.

  Two things stay behind a line: a composite literal whose brace is still open, and a closure whose
  body is still to come. Neither happens on a well-nested line. The line itself is written or dropped,
  unless it is an append of nothing.
-/
import Linewise.Proofs.Written

namespace Linewise

open Text List Stop Binding

variable {stop : Stop} {f : Fault}

/-! ## 1. Steps and relations -/

/-- The source is at fault. -/
def Stop.IsFault : Stop → Prop
  | .fault _ => True
  | .splitCharacter => False

namespace Lower

/-- From every state the step ends in a related state, or stops for a reason in `E`. -/
def Keeps {α : Type} (E : Stop → Prop) (R : State → State → Prop) (m : Lower α) : Prop :=
  ∀ s, match m.run s with
    | .ok _ s' => R s s'
    | .error stop _ => E stop

section Rules

variable {α β : Type} {E E₁ : Stop → Prop} {R R₁ R₂ : State → State → Prop}

theorem Keeps.ok {m : Lower α} (h : Keeps E R m) {s s' : State} {a : α} (hm : m.run s = .ok a s') :
    R s s' := by
  have := h s
  rw [hm] at this
  exact this

theorem Keeps.error {m : Lower α} (h : Keeps E R m) {s s' : State}
    (hm : m.run s = .error stop s') : E stop := by
  have := h s
  rw [hm] at this
  exact this

theorem Keeps.mono {m : Lower α} (h : Keeps E₁ R₁ m) (hE : ∀ stop, E₁ stop → E stop)
    (hR : ∀ s s', R₁ s s' → R s s') : Keeps E R m := by
  intro s
  cases hm : m.run s with
  | ok a s' => exact hR s s' (h.ok hm)
  | error stop s' => exact hE stop (h.error hm)

theorem Keeps.of_ok {m : Lower α} {f : State → State} {W : α → Prop}
    (h : ∀ s, ∃ a, m.run s = .ok a (f s) ∧ W a) (hf : ∀ s, R s (f s)) : Keeps E R m := by
  intro s
  obtain ⟨a, hrun, _⟩ := h s
  rw [hrun]
  exact hf s

theorem Keeps.bind_of {m : Lower α} {f : α → Lower β} (hm : Keeps E R₁ m)
    (hf : ∀ s a s', m.run s = .ok a s' → Keeps E R₂ (f a))
    (hR : ∀ s s' s'', R₁ s s' → R₂ s' s'' → R s s'') : Keeps E R (m >>= f) := by
  intro s
  cases hr : m.run s with
  | error stop s' =>
    rw [bind_error hr]
    exact hm.error hr
  | ok a s' =>
    rw [bind_ok hr]
    cases hfr : (f a).run s' with
    | error stop s'' => exact (hf s a s' hr).error hfr
    | ok b s'' => exact hR s s' s'' (hm.ok hr) ((hf s a s' hr).ok hfr)

theorem keeps_pure (hR : ∀ s, R s s) (a : α) : Keeps E R (pure a : Lower α) := fun s => hR s

theorem keeps_modify {g : State → State} (hg : ∀ s, R s (g s)) : Keeps E R (modify g : Lower Unit) :=
  fun s => hg s

theorem keeps_throw (h : E stop) : Keeps E R (throw stop : Lower α) := fun _ => h

end Rules

/-- The relation holds across steps one after the other. -/
class Composes (K : State → State → Prop) : Prop where
  refl : ∀ s, K s s
  trans : ∀ {s s' s''}, K s s' → K s' s'' → K s s''

/-- **What is said of a step**: it stops only for a reason in `E`, ends in a state related by `K`,
    only adds to what is gathered, its results have `R`, and it has nothing to do with the label
    that waits. -/
structure Meets {α : Type} (E : Stop → Prop) (K : State → State → Prop) (q : Prop) (R : α → Prop)
    (m : Lower α) : Prop where
  keeps : Keeps E K m
  gathers : Gathers q m
  yields : Yields R m
  unlabelled : Unlabelled m

namespace Meets

variable {α β : Type} {E E' : Stop → Prop} {K K' : State → State → Prop} {q q' : Prop} {R R' : β → Prop}
  {S : α → Prop}

theorem mono {m : Lower β} (h : Meets E K q R m) (hE : ∀ stop, E stop → E' stop) : Meets E' K q R m :=
  { h with keeps := h.keeps.mono hE fun _ _ => id }

theorem relax {m : Lower β} (h : Meets E K True R m) (hK : ∀ s s', K s s' → K' s s') : Meets E K' q R m :=
  ⟨h.keeps.mono (fun _ => id) hK, h.gathers.weaken fun _ => trivial, h.yields, h.unlabelled⟩

theorem imp {m : Lower β} (h : Meets E K q R m) (hR : ∀ b, R b → R' b) : Meets E K q R' m :=
  { h with yields := h.yields.mono hR }

theorem modify {g : State → State} (hk : ∀ s, K s (g s)) (hg : ∀ s, State.GathersAt q s (g s))
    (hl : ∀ label s, g (s.withLabel label) = (g s).withLabel label := by exact fun _ _ => rfl) :
    Meets E K q (fun _ => True) (modify g : Lower Unit) :=
  ⟨keeps_modify hk, hg, .trivial _, .modify hl⟩

theorem throw (h : E stop) : Meets E K q R (throw stop : Lower β) :=
  ⟨keeps_throw h, State.GathersAt.refl, .throw stop, fun _ _ => rfl⟩

theorem fail (h : E (.fault f)) : Meets E K q R (fail f : Lower β) := throw h

theorem fail_bind (h : E (.fault f)) (k : α → Lower β) : Meets E K q R (Lower.fail f >>= k) :=
  ⟨fun _ => h, State.GathersAt.refl, fun _ _ _ hrun => (by cases hrun), fun _ _ => rfl⟩

theorem get_bind {f : State → Lower β} (hl : ∀ label s, f (s.withLabel label) = f s)
    (hf : ∀ s, Meets E K q R (f s)) : Meets E K q R (get >>= f) where
  keeps s := (hf s).keeps s
  gathers s := (hf s).gathers s
  yields s := (hf s).yields s
  unlabelled := .get_bind hl fun s => (hf s).unlabelled

variable [Composes K]

theorem pure {b : β} (h : R b) : Meets E K q R (Pure.pure b : Lower β) :=
  ⟨keeps_pure Composes.refl b, .pure b, .pure h, fun _ _ => rfl⟩

theorem bind {m : Lower α} {f : α → Lower β} (hm : Meets E K q S m) (hf : ∀ a, S a → Meets E K q R (f a)) :
    Meets E K q R (m >>= f) where
  keeps := hm.keeps.bind_of (fun s a s' h => (hf a (hm.yields s a s' h)).keeps) fun _ _ _ => Composes.trans
  gathers := hm.gathers.bind fun s a s' h => (hf a (hm.yields s a s' h)).gathers
  yields := hm.yields.bind fun a h => (hf a h).yields
  unlabelled := hm.unlabelled.bind fun s a s' h => (hf a (hm.yields s a s' h)).unlabelled

theorem pure_bind {a : α} {f : α → Lower β} (h : Meets E K q R (f a)) : Meets E K q R (Pure.pure a >>= f) :=
  (pure rfl).bind fun _ e => e ▸ h

theorem next {m : Lower α} {f : α → Lower β} (hm : Meets E K q S m) (hf : ∀ a, Meets E K q R (f a)) :
    Meets E K q R (m >>= f) := hm.bind fun a _ => hf a

theorem ite_next {c : Prop} [Decidable c] {m : Lower Unit} {f : Unit → Lower β} {S : Unit → Prop}
    (hm : Meets E K q S m) (hf : ∀ u, Meets E K q R (f u)) : Meets E K q R (if c then m >>= f else f ()) := by
  split
  · exact hm.next hf
  · exact hf ()

omit [Composes K] in
theorem guard {c : Prop} [Decidable c] {k : Unit → Lower β} (h : E (.fault f))
    (hk : ¬ c → Meets E K q R (k ())) : Meets E K q R (if c then Lower.fail f >>= k else k ()) := by
  split
  · exact fail_bind h k
  · rename_i hc
    exact hk hc

theorem lift_of {x : Except Fault β} (h : ∀ f, x = .error f → E (.fault f)) :
    Meets E K q (fun b => x = .ok b) (lift x) := by
  cases x with
  | ok a => exact pure rfl
  | error f => exact throw (h f rfl)

theorem mapM {f : α → Lower β} {xs : List α} (hf : ∀ a ∈ xs, Meets E K q R (f a)) :
    Meets E K q (fun bs => bs.length = xs.length ∧ ∀ b ∈ bs, R b) (xs.mapM f) := by
  refine ⟨?_, .mapM fun a ha => (hf a ha).gathers, .mapM fun a ha => (hf a ha).yields,
    .mapM fun a ha => (hf a ha).unlabelled⟩
  induction xs with
  | nil =>
    rw [mapM_nil]
    exact keeps_pure Composes.refl []
  | cons x xs ih =>
    rw [mapM_cons]
    refine (hf x mem_cons_self).keeps.bind_of (fun _ b _ _ => ?_) fun _ _ _ => Composes.trans
    refine (ih (forall_mem_cons.mp hf).2).bind_of (fun _ bs _ _ => ?_) fun _ _ _ => Composes.trans
    exact keeps_pure Composes.refl _

end Meets

end Lower

/-! ## 2. Ordinary statements -/

/-- The part of the state that no ordinary statement changes. -/
structure Control where
  lineNumber : Nat
  depth : Nat
  depthBefore : Nat
  switches : List SwitchFrame
  function : Option FunctionFrame
  pendingLabel : Option Text
  struct : Option StructDraft
  mapValue : Option Text
  switchNames : Nat
  labelNames : Nat

/-- What of a state an ordinary statement leaves alone. -/
def State.control (s : State) : Control :=
  ⟨s.lineNumber, s.depth, s.depthBefore, s.switches, s.function, s.pendingLabel, s.struct,
    s.mapValue, s.names.switch, s.names.label⟩

/-- **What an ordinary statement may do**: leave composite literals open unless `noLiteral` holds,
    and closures unless `noClosure` does. -/
structure Opens (noLiteral noClosure : Prop) (s s' : State) : Prop where
  control : s'.control = s.control
  blocks : ∃ n, s'.blocks = List.replicate n ⟨.compositeLiteral, s.depthBefore⟩ ++ s.blocks
    ∧ (noLiteral → n = 0)
  closures : ∃ cs, s'.closures = cs ++ s.closures ∧ (noClosure → cs = [])

namespace Opens

variable {P Q P' Q' : Prop} {s s' s'' : State}

theorem of_eq (hc : s'.control = s.control) (hb : s'.blocks = s.blocks)
    (hcl : s'.closures = s.closures) : Opens P Q s s' :=
  ⟨hc, ⟨0, hb, fun _ => rfl⟩, ⟨[], hcl, fun _ => rfl⟩⟩

theorem refl (s : State) : Opens P Q s s := of_eq rfl rfl rfl

theorem depthBefore_eq (h : Opens P Q s s') : s'.depthBefore = s.depthBefore :=
  congrArg Control.depthBefore h.control

theorem trans (h : Opens P Q s s') (h' : Opens P Q s' s'') : Opens P Q s s'' := by
  obtain ⟨n, hn, hn0⟩ := h.blocks
  obtain ⟨m, hm, hm0⟩ := h'.blocks
  obtain ⟨cs, hcs, hcs0⟩ := h.closures
  obtain ⟨ds, hds, hds0⟩ := h'.closures
  refine ⟨h'.control.trans h.control, ⟨m + n, ?_, fun hp => ?_⟩, ⟨ds ++ cs, ?_, fun hq => ?_⟩⟩
  · rw [hm, hn, h.depthBefore_eq, ← append_assoc, replicate_append_replicate]
  · rw [hm0 hp, hn0 hp]
  · rw [hds, hcs, append_assoc]
  · rw [hds0 hq, hcs0 hq, append_nil]

theorem weaken (h : Opens P Q s s') (hP : P' → P) (hQ : Q' → Q) : Opens P' Q' s s' := by
  obtain ⟨n, hn, hn0⟩ := h.blocks
  obtain ⟨cs, hcs, hcs0⟩ := h.closures
  exact ⟨h.control, ⟨n, hn, fun hp => hn0 (hP hp)⟩, ⟨cs, hcs, fun hq => hcs0 (hQ hq)⟩⟩

end Opens

instance {P Q : Prop} : Lower.Composes (Opens P Q) := ⟨Opens.refl, Opens.trans⟩

namespace Lower

/-- What is said of an ordinary statement. -/
abbrev Spec {α : Type} (E : Stop → Prop) (P Q : Prop) (R : α → Prop) (m : Lower α) : Prop :=
  Meets E (Opens P Q) True R m

theorem Spec.weaken {α : Type} {E : Stop → Prop} {P Q P' Q' : Prop} {R : α → Prop} {m : Lower α}
    (h : Spec E P Q R m) (hP : P' → P) (hQ : Q' → Q) : Spec E P' Q' R m :=
  h.relax fun _ _ ho => ho.weaken hP hQ

end Lower

namespace State

theorem registerMap_eq (s : State) (name : Text) :
    ∃ known, s.registerMap name = { s with knownMaps := known } := by
  obtain ⟨known, h, _⟩ := s.registerMap_knownMaps name
  exact ⟨known, h⟩

theorem foldl_registerMap_eq {α : Type} (name : α → Text) (xs : List α) (s : State) :
    ∃ known, xs.foldl (fun s x => s.registerMap (name x)) s = { s with knownMaps := known } := by
  induction xs generalizing s with
  | nil => exact ⟨s.knownMaps, rfl⟩
  | cons x xs ih =>
    obtain ⟨known, hk⟩ := s.registerMap_eq (name x)
    rw [foldl_cons, hk]
    obtain ⟨known', hk'⟩ := ih { s with knownMaps := known }
    exact ⟨known', hk'⟩

end State

namespace Lower

/-! ## 3. Printing, constants, names -/

section Functions

open Lowered

variable {E : Stop → Prop} {P Q : Prop}

theorem spec_registerMap (name : Text) : Spec E P Q (fun _ => True) (modify (·.registerMap name)) := by
  refine .modify (fun s => ?_) (fun s => .registerMap s name) fun label s =>
    (State.sparesMaps_withLabel label).registerMap s name
  obtain ⟨known, hk⟩ := s.registerMap_eq name
  rw [hk]
  exact Opens.of_eq rfl rfl rfl

theorem spec_registerMaps {α : Type} (name : α → Text) (xs : List α) :
    Spec E P Q (fun _ => True) (modify fun s => xs.foldl (fun s x => s.registerMap (name x)) s) := by
  refine .modify (fun s => ?_) (fun s => .registerMaps name xs s) fun label =>
    (State.sparesMaps_withLabel label).registerMaps name xs
  obtain ⟨known, hk⟩ := s.foldl_registerMap_eq name xs
  rw [hk]
  exact Opens.of_eq rfl rfl rfl

theorem spec_consts (g : State → ConstGroup)
    (hl : ∀ label s, g (s.withLabel label) = g s := by exact fun _ _ => rfl) :
    Spec E P Q (fun _ => True) (modify fun s : State => { s with consts := g s }) :=
  .modify (fun _ => Opens.of_eq rfl rfl rfl) (fun _ => .of_eq rfl) fun label s =>
    congrArg (fun consts => { s with consts := consts, pendingLabel := label }) (hl label s)

theorem spec_notice (message : Text) : Spec E P Q (fun _ => True) (modify (·.notice message)) :=
  .modify (fun _ => Opens.of_eq rfl rfl rfl) fun s => .notice s message

theorem spec_passThrough (message line : Text) :
    Spec IsFault P Q (fun l => ¬ Blank line → l.Written) (passThrough message line) :=
  (spec_notice _).next fun _ => .pure written_statement

theorem spec_freshName {role : NameRole} (hs : role ≠ .switch) (hl : role ≠ .label) :
    Spec E P Q (fun _ => True) (freshName role) := by
  refine ⟨fun s => ?_, fun s => .advance s role, .trivial _, fun _ _ => rfl⟩
  refine Opens.of_eq ?_ rfl rfl
  have h1 : (s.names.advance role).switch = s.names.switch := s.names.count_advance_of_ne hs.symm
  have h2 : (s.names.advance role).label = s.names.label := s.names.count_advance_of_ne hl.symm
  simp only [State.control, h1, h2]

theorem spec_prettyPrint : Spec E P Q (fun _ => True) (modify fun s : State => { s with needsPrettyPrint := true }) :=
  .modify (fun _ => Opens.of_eq rfl rfl rfl) .usePrettyPrint

theorem spec_printStream (sink : Sink) (spacing : Spacing) (newline : Bool) (operands : List Text) :
    Spec IsFault P Q Written (printStream sink spacing newline operands) := by
  unfold printStream
  extract_lets pieces rest
  refine .ite_next spec_prettyPrint fun _ => .pure ?_
  split
  · exact written_dropped
  · rename_i hne
    exact written_line (streamStatements_ne_nil _ _ _ (.inr (by simpa using hne)))

theorem spec_printFormat (head : Text) (operands : List Text) (line : Text) :
    Spec IsFault P Q Written (printFormat head operands line) := by
  have hcall (args : Text) : (statement (head ++ args ++ ")")).Written :=
    written_of_mem (c := ')') (by simp) rfl
  unfold printFormat
  split
  · exact .fail trivial
  · split
    · extract_lets f rest
      exact .ite_next spec_prettyPrint fun _ => .pure (hcall _)
    · exact (spec_notice _).next fun _ => .pure (hcall _)

theorem spec_print (line : Text) :
    Spec IsFault P Q (fun l => ¬ Blank line → l.Written) (print line) := by
  have written {m : Lower Lowered} (h : Spec IsFault P Q Written m) :
      Spec IsFault P Q (fun l => ¬ Blank line → l.Written) m := h.imp fun _ hl _ => hl
  unfold print
  split
  · split
    · unfold printCall
      split
      · exact spec_passThrough _ _
      · exact written (spec_printStream _ _ _ _)
      · split
        · exact written (spec_printStream _ _ _ _)
        · exact spec_passThrough _ _
      · exact written (spec_printFormat _ _ _)
      · split
        · exact written (spec_printFormat _ _ _)
        · exact spec_passThrough _ _
    · exact spec_passThrough _ _
  · exact spec_passThrough _ _

theorem spec_constEntry (body line : Text) : Spec IsFault P Q (fun _ => True) (constEntry body line) := by
  unfold constEntry
  split
  · split
    extract_lets exprs template rest
    exact .guard trivial fun _ => (spec_consts _).next fun _ => .pure trivial
  · extract_lets names
    refine Meets.get_bind (fun _ _ => rfl) fun s => ?_
    split
    · exact .fail trivial
    · extract_lets rest
      exact .guard trivial fun _ => .pure trivial

theorem spec_constDeclaration (line : Text) : Spec IsFault P Q Written (constDeclaration line) := by
  refine Meets.get_bind (fun _ _ => rfl) fun s => ?_
  extract_lets rest
  refine .ite_next (spec_consts _) fun _ => (spec_constEntry _ _).next fun entry => ?_
  split
  extract_lets named rest'
  refine .guard trivial fun _ => Meets.get_bind (fun _ _ => rfl) fun s => (spec_consts _).next fun _ => .pure ?_
  split
  · exact written_dropped
  · rename_i hne
    refine written_line (unlines_ne_nil_of_forall ?_ fun p hp => ?_)
    · simpa using hne
    · obtain ⟨n, _, rfl⟩ := mem_map.mp hp
      exact cons_ne_nil _ _

/-! ## 4. Loops -/

theorem spec_discardName : Spec E P Q (fun _ => True) (freshName .discard) :=
  spec_freshName (by decide) (by decide)

theorem spec_bindingName (name : Text) : Spec E P Q (fun _ => True) (bindingName name) := by
  unfold bindingName
  split
  · exact spec_discardName
  · exact .pure trivial

theorem spec_integerRange (vars : List Text) (bound : Text) :
    Spec IsFault P Q (· ≠ []) (integerRange vars bound) := by
  unfold integerRange
  extract_lets rest
  have hrest : ∀ index, Spec IsFault P Q (· ≠ []) (rest index) := fun _ => .pure (cons_ne_nil _ _)
  split
  · exact (spec_bindingName _).next hrest
  · exact spec_discardName.next hrest

theorem spec_mapRange (first : Text) (second : Option Text) (container : Text) :
    Spec IsFault P Q (· ≠ []) (mapRange first second container) := by
  unfold mapRange
  split
  · exact (spec_bindingName _).next fun _ => spec_discardName.next fun _ => .pure (cons_ne_nil _ _)
  · split
    · exact (spec_freshName (by decide) (by decide)).next fun _ => .pure (cons_ne_nil _ _)
    · exact (spec_bindingName _).next fun _ => (spec_bindingName _).next fun _ => .pure (cons_ne_nil _ _)

theorem spec_sequenceRange (first : Text) (second : Option Text) (container : Text) :
    Spec IsFault P Q (· ≠ []) (sequenceRange first second container) := by
  unfold sequenceRange
  split
  · split
    · exact spec_discardName.next fun _ => spec_discardName.next fun _ => .pure (cons_ne_nil _ _)
    · exact .pure (cons_ne_nil _ _)
  · split
    · exact .pure (cons_ne_nil _ _)
    · exact spec_discardName.next fun _ => .pure (cons_ne_nil _ _)
    · exact .pure (cons_ne_nil _ _)
    · exact .pure (append_cons_ne_nil _)

theorem spec_rangeLoop (vars : List Text) (container : Text) :
    Spec IsFault P Q (· ≠ []) (rangeLoop vars container) := by
  unfold rangeLoop
  split
  · exact spec_integerRange _ _
  · refine Meets.get_bind (fun _ _ => rfl) fun s => ?_
    extract_lets isMap
    split
    · exact spec_discardName.next fun _ => .pure (cons_ne_nil _ _)
    · split
      · exact spec_mapRange _ _ _
      · exact spec_sequenceRange _ _ _
    · split
      · exact spec_mapRange _ _ _
      · exact spec_sequenceRange _ _ _
    · exact .fail trivial

theorem spec_clauseLoop (head line : Text) : Spec IsFault P Q (· ≠ []) (clauseLoop head line) := by
  unfold clauseLoop
  split
  · exact .pure (cons_ne_nil _ _)
  · split
    · exact .fail trivial
    · exact .pure (cons_ne_nil _ _)

/-- The text between the keyword and the brace of a loop. -/
def loopHead (line : Text) : Text := trim (stripEnd "\x7b" (trim (stripStart "for" line)))

theorem spec_forLoop (line : Text) :
    Spec (fun stop => splitRange? (loopHead line) ≠ some none → stop.IsFault) P Q Written (forLoop line) := by
  have widen {m : Lower Lowered} (h : Spec IsFault P Q Written m) :
      Spec (fun stop => splitRange? (loopHead line) ≠ some none → stop.IsFault) P Q Written m :=
    h.mono fun _ hf _ => hf
  unfold forLoop
  extract_lets head
  have hhead : loopHead line = head := rfl
  split
  · exact .pure (written_line (cons_ne_nil _ _))
  · split
    · exact widen ((spec_rangeLoop _ _).bind fun _ h => .pure (written_line h))
    · rename_i hnone
      exact .throw fun hne => absurd (hhead ▸ hnone) hne
    · exact widen ((spec_clauseLoop _ _).bind fun _ h => .pure (written_line h))

/-! ## 5. Assignments -/

theorem spec_functionLiteral (lhs : Text) (kind : Kind) (rhs : Text)
    (hQ : Q → endsWith rhs "\x7b" = false) : Spec E P Q Written (functionLiteral lhs kind rhs) := by
  unfold functionLiteral
  split
  refine (spec_registerMaps Parameter.name _).next fun _ => ?_
  by_cases hb : endsWith rhs "\x7b" = true
  · have hs (s : State) : Opens P Q s (s.enterClosure .lambda s.depthBefore) := by
      refine ⟨rfl, ⟨0, rfl, fun _ => rfl⟩, [⟨.lambda, s.depthBefore⟩], rfl, fun hq => ?_⟩
      rw [hQ hq] at hb
      cases hb
    simp only [if_pos hb]
    -- the closure is pushed onto the state that was just read
    refine ⟨hs, .get_bind fun s => .of_eq rfl, fun s l s' hrun => ?_, fun _ _ => rfl⟩
    cases hrun
    exact written_line (by simp)
  · simp only [if_neg hb]
    exact Meets.get_bind (fun _ _ => rfl) fun _ => .pure (written_line (by simp))

/-- The fault is one of a value. -/
def OfValue (f : Fault) : Prop := ∃ expr, value expr = .error f ∨ construct expr = .error f

theorem spec_value (hE : ∀ f, OfValue f → E (.fault f)) (expr : Text) :
    Spec E P Q (fun t => value expr = .ok t) (lift (value expr)) :=
  .lift_of fun f hf => hE f ⟨expr, .inl hf⟩

theorem spec_construct (hE : ∀ f, OfValue f → E (.fault f)) (expr : Text) :
    Spec E P Q (fun c => construct expr = .ok c) (lift (construct expr)) :=
  .lift_of fun f hf => hE f ⟨expr, .inr hf⟩

theorem spec_assignOne (name rhs : Text) (kind : Kind) (hE : ∀ f, OfValue f → E (.fault f))
    (hP : P → ∀ lit, Composite.split? rhs = some lit → lit.closed = true) :
    Spec E P Q (fun l => (splitTop ',' name).length ≤ 1 →
      (l.render = some [] ↔ IsIdle ⟨name, rhs, kind⟩)) (assignOne name rhs kind) := by
  have written {m : Lower Lowered} (hno : ¬ IsIdle ⟨name, rhs, kind⟩) (h : Spec E P Q Written m) :
      Spec E P Q (fun l => (splitTop ',' name).length ≤ 1 →
        (l.render = some [] ↔ IsIdle ⟨name, rhs, kind⟩)) m :=
    h.imp fun _ hl _ => iff_of_false hl hno
  unfold assignOne
  split
  · rename_i hdiscard
    refine written (fun ⟨_, hname, _⟩ => ?_)
      ((spec_value hE _).next fun _ => .pure (written_of_mem (c := '(') (by simp) rfl))
    cases hdiscard.symm.trans hname
  · rename_i hname
    split
    · rename_i args happend
      refine .pure fun hone => ⟨fun hl => ?_, fun ⟨hkind, _, _, args', hargs, hparts⟩ => ?_⟩
      · obtain ⟨hkind, hparts⟩ := (joinWith_appendStatements _ _ _).mp (Option.some.inj hl)
        exact ⟨hkind, Bool.eq_false_iff.mpr hname, hone, args, happend, hparts⟩
      · cases happend.symm.trans hargs
        exact congrArg some ((joinWith_appendStatements _ _ _).mpr ⟨hkind, hparts⟩)
    · rename_i happend
      refine written (fun ⟨_, _, _, args, hargs, _⟩ => happend args hargs) ?_
      split
      · rename_i lit hlit
        obtain ⟨hsplit, hopen⟩ := Option.filter_eq_some_iff.mp hlit
        refine Meets.next (.modify (fun s => ?_) fun s => ?_) fun _ => .pure ?_
        · refine ⟨rfl, ⟨1, rfl, fun hp => ?_⟩, ⟨[], rfl, fun _ => rfl⟩⟩
          rw [hP hp lit hsplit] at hopen
          cases hopen
        · exact (State.GathersAt.useAggregates s _).trans (.of_eq rfl)
        · refine written_line (append_ne_nil_of_left_ne_nil ?_ _)
          cases kind <;> simp
      · extract_lets plain rest
        have hplain : ∀ u, Spec E P Q Written (plain u) := fun _ => .pure (written_bindText _ _ _)
        have hrest : ∀ u, Spec E P Q Written (rest u) := by
          intro u
          refine (spec_construct hE _).bind fun c hc => ?_
          split
          · extract_lets built
            exact .ite_next (spec_registerMap _) fun _ => .pure (written_construction kind name hc)
          · exact Meets.get_bind (fun _ _ => rfl) fun s => .ite_next (spec_registerMap _) hplain
        split
        · refine (spec_construct hE _).next fun c => ?_
          split
          · exact .pure (written_bindText _ _ _)
          · exact hrest ()
        · exact hrest ()

theorem spec_destructure (names : List Text) (value : Text) (kind : Kind) (line : Text) :
    Spec E P Q Written (destructure names value kind line) := by
  unfold destructure
  extract_lets rest asIs
  have hrest : ∀ source, Spec E P Q Written (rest source) := by
    intro source
    simp only [rest]
    split
    · exact (Meets.mapM fun a _ => spec_bindingName a).next fun _ =>
        .pure (written_of_mem (c := '[') (by simp) rfl)
    · exact .pure (written_of_mem (c := '(') (by simp) rfl)
  split
  · split
    · refine Meets.get_bind (fun _ _ => rfl) fun s => ?_
      split
      · exact .pure_bind (hrest _)
      · exact .pure_bind (hrest _)
    · exact .ite_next (spec_notice _) fun _ => .pure_bind (hrest _)
  · exact .pure_bind (hrest _)

theorem spec_assignment (line : Text)
    (hP : P → ∀ b, split? line = some b → (splitTop ',' b.lhs).length ≤ 1 →
      ∀ lit, Composite.split? b.rhs = some lit → lit.closed = true)
    (hQ : Q → ∀ b, split? line = some b →
      (startsWith b.rhs "func(" || startsWith b.rhs "func (") = true → endsWith b.rhs "\x7b" = false) :
    Spec IsFault P Q (fun l => ¬ Blank line → (l.render = some [] ↔ IdleAppend line)) (assignment line) := by
  unfold assignment
  split
  · rename_i b hb
    have hidle : IdleAppend line ↔ b.IsIdle := by
      refine ⟨fun ⟨b', hb', h⟩ => ?_, fun h => ⟨b, hb, h⟩⟩
      cases hb.symm.trans hb'
      exact h
    rw [hidle]
    have written {m : Lower Lowered} (hno : ¬ b.IsIdle) (h : Spec IsFault P Q Written m) :
        Spec IsFault P Q (fun l => ¬ Blank line → (l.render = some [] ↔ b.IsIdle)) m :=
      h.imp fun _ hl _ => iff_of_false hl hno
    split
    · rename_i hfunc
      refine written ?_ (spec_functionLiteral _ _ _ fun hq => hQ hq b hb hfunc)
      intro ⟨_, _, _, args, hargs, _⟩
      obtain ⟨r, hr, _⟩ := Option.bind_eq_some_iff.mp hargs
      exact absurd hfunc (Bool.eq_false_iff.mp
        (isLiteral_of_head? (c := 'a') (by rw [eq_append_of_stripStart? hr]; rfl) (by decide)))
    · extract_lets names
      split
      · rename_i hlen
        exact (spec_assignOne _ _ _ (fun _ _ => trivial) fun hp => hP hp b hb hlen).imp fun _ hl _ => hl hlen
      · rename_i hlen
        refine written (fun ⟨_, _, h, _⟩ => hlen h) ?_
        split
        · exact spec_destructure _ _ _ _
        · split
          · exact .fail trivial
          · rename_i hcount
            refine Meets.bind (.lift_of fun _ _ => trivial) fun values hvalues =>
              .pure (written_assignParallel ?_ ?_ _)
            · rintro hnil
              rw [hnil] at hlen
              exact hlen (Nat.zero_le 1)
            · rw [length_of_mapM hvalues]
              simpa using hcount
  · rename_i hnone
    exact .pure fun hline => iff_of_false (written_statement hline) fun ⟨b, hb, _⟩ => hnone b hb

theorem spec_assignment_wellNested (line : Text) :
    Spec IsFault (WellNested line) (WellNested line)
      (fun l => ¬ Blank line → (l.render = some [] ↔ IdleAppend line)) (assignment line) :=
  spec_assignment line
    (fun h _ hb _ _ hl => (h.binding_rhs hb).composite_closed hl)
    (fun h _ hb _ => (h.binding_rhs hb).not_endsWith rfl)

theorem spec_initClause (clause : Text) :
    Spec IsFault (WellNested clause) (WellNested clause) (fun _ => True) (initClause clause) := by
  unfold initClause
  extract_lets trimmed rest
  have hrest : ∀ text, Spec IsFault (WellNested clause) (WellNested clause) (fun _ => True)
      (pure text >>= rest) := fun _ => .pure_bind (.pure trivial)
  split
  · have hl := (spec_assignment_wellNested trimmed).weaken
      (fun h : WellNested clause => h.trim) (fun h : WellNested clause => h.trim)
    exact hl.next fun _ => hrest _
  · exact hrest _

/-! ## 6. Conditions, returns, deferred calls -/

theorem spec_condition (head : Text) :
    Spec IsFault (WellNested (headText head)) (WellNested (headText head)) (fun _ => True) (condition head) := by
  unfold condition
  extract_lets trimmed
  split
  · rename_i i hi
    have hinit := (spec_initClause (trimmed.take i)).weaken
      (fun h : WellNested trimmed => (h.topIndex hi rfl (by decide)).1)
      (fun h : WellNested trimmed => (h.topIndex hi rfl (by decide)).1)
    exact hinit.next fun _ => .pure trivial
  · exact .pure trivial

theorem spec_ifStatement (line : Text) :
    Spec IsFault (WellNested (headText (stripStart "if" line))) (WellNested (headText (stripStart "if" line)))
      Written (ifStatement line) :=
  (spec_condition _).next fun _ => .pure (written_line (cons_ne_nil _ _))

theorem spec_elseIf (line : Text) :
    Spec IsFault (WellNested (headText (stripStart "\x7d else if" line)))
      (WellNested (headText (stripStart "\x7d else if" line))) Written (elseIf line) :=
  (spec_condition _).next fun _ => .pure (written_line (cons_ne_nil _ _))

theorem spec_returnStatement (line : Text) :
    Spec IsFault P Q (fun l => ¬ Blank line → l.Written) (returnStatement line) := by
  have hreturn (rest : Text) : (statement ("return" ++ rest)).Written :=
    written_of_mem (c := 'r') (by simp) rfl
  refine Meets.get_bind (fun _ _ => rfl) fun s => ?_
  extract_lets rest values
  split
  · exact .pure written_statement
  · split
    · exact .pure written_statement
    · split
      · refine .pure fun _ => ?_
        split
        · exact hreturn " 0"
        · exact hreturn []
      · split
        · exact Meets.next (.lift_of fun _ _ => trivial) fun _ => .pure fun _ => by simpa using hreturn _
        · exact Meets.next (.lift_of fun _ _ => trivial) fun _ => .pure fun _ => hreturn _

theorem spec_simpleStatement (statement : Text) :
    Spec IsFault (WellNested statement) (WellNested statement) (fun _ => True) (simpleStatement statement) := by
  unfold simpleStatement
  extract_lets trimmed rest
  have hrest : ∀ lowered, Spec IsFault (WellNested statement) (WellNested statement) (fun _ => True)
      (rest lowered) := fun _ => .pure trivial
  split
  · exact (spec_print _).next hrest
  · have ha := (spec_assignment_wellNested trimmed).weaken
      (fun h : WellNested statement => h.trim) (fun h : WellNested statement => h.trim)
    exact ha.next hrest
  · exact .pure_bind (hrest _)
  · exact (spec_passThrough _ _).next hrest
  · exact .pure_bind (hrest _)
  · exact (spec_passThrough _ _).next hrest

theorem spec_deferOpener : Spec IsFault P Q (· ≠ []) deferOpener :=
  (spec_freshName (by decide) (by decide)).next fun _ => .pure (cons_ne_nil _ _)

theorem spec_deferInline (statements : List Text)
    (hP : P → ∀ t ∈ statements, WellNested t) (hQ : Q → ∀ t ∈ statements, WellNested t) :
    Spec IsFault P Q Written (deferInline statements) := by
  have hbody := Meets.mapM fun t ht =>
    (spec_simpleStatement t).weaken (fun hp => hP hp t ht) (fun hq => hQ hq t ht)
  exact hbody.next fun _ => spec_deferOpener.next fun _ =>
    .pure (written_line (append_cons_ne_nil _))

theorem wellNested_calledBody {literal body : Text} (h : WellNested literal)
    (hb : calledBody? literal = some body) : WellNested body := by
  unfold calledBody? at hb
  split at hb
  · rename_i hs
    obtain ⟨r, rfl⟩ := startsWith_iff.mp hs
    obtain ⟨a, b, _, he, ha, _⟩ := WellNested.enclosed rfl h
    obtain ⟨⟨inside, after⟩, hi, hb⟩ := Option.bind_eq_some_iff.mp hb
    rw [show enclosed? ("\x7b" ++ r) = some (a, b) from he] at hi
    cases hi
    dsimp only at hb
    split at hb
    · cases hb
      exact ha
    · cases hb
  · cases hb

theorem spec_deferStatement (line : Text) :
    Spec IsFault (WellNested line) (WellNested line) (fun l => ¬ Blank line → l.Written)
      (deferStatement line) := by
  have written {m : Lower Lowered} (h : Spec IsFault (WellNested line) (WellNested line) Written m) :
      Spec IsFault (WellNested line) (WellNested line) (fun l => ¬ Blank line → l.Written) m :=
    h.imp fun _ hl _ => hl
  have hcall : WellNested line → WellNested (trim (stripStart "defer" line)) := fun h =>
    (h.stripStart (by decide) (by decide)).trim
  unfold deferStatement
  extract_lets call
  split
  · split
    · exact spec_passThrough _ _
    · refine written (spec_deferInline _ (fun h t ht => ?_) (fun h t ht => ?_)) <;>
      · rw [mem_singleton.mp ht]
        exact hcall h
  · rename_i literal hl
    have hlit : WellNested line → WellNested (trimStart literal) := by
      intro h
      have hc := hcall h
      rw [show trim (stripStart "defer" line) = "func()" ++ literal from eq_append_of_stripStart? hl]
        at hc
      exact (hc.of_append (by decide) (by decide)).trimStart
    extract_lets body
    split
    · rename_i hopen
      refine spec_deferOpener.bind fun _ hne => ?_
      refine Meets.next (.modify (fun s => ?_) fun _ => .of_eq rfl) fun _ => .pure fun _ => written_line hne
      refine ⟨rfl, ⟨0, rfl, fun _ => rfl⟩, [⟨.deferred, s.depthBefore⟩], rfl, fun h => ?_⟩
      have hbad := (hlit h).not_endsWith (c := '{') rfl
      rw [show trimStart literal = "\x7b" from by simpa using hopen] at hbad
      cases hbad
    · split
      · rename_i inner hinner
        have hpart : WellNested line → ∀ t ∈ (splitTop ';' inner).filter (!·.isEmpty), WellNested t :=
          fun h t ht => wellNested_of_mem_splitTop (wellNested_calledBody (hlit h) hinner) rfl (by decide)
            (mem_filter.mp ht).1
        exact written (spec_deferInline _ hpart hpart)
      · exact spec_passThrough _ _

/-! ## 7. Variables -/

theorem spec_varOne (type : Option Text) (name rhs : Text) (hE : ∀ f, OfValue f → E (.fault f)) :
    Spec E P Q (· ≠ []) (varOne type name rhs) := by
  have hend (t : Text) : t ++ (";" : Text) ≠ [] := append_cons_ne_nil t
  unfold varOne
  split
  · exact (spec_value hE _).next fun _ => .pure (cons_ne_nil _ _)
  · split
    · exact (spec_value hE _).next fun _ => .pure (hend _)
    · refine (spec_construct hE _).next fun c => ?_
      split
      · extract_lets rest
        exact .ite_next (spec_registerMap _) fun _ => .pure (hend _)
      · refine Meets.get_bind (fun _ _ => rfl) fun s => ?_
        extract_lets rest
        exact .ite_next (spec_registerMap _) fun _ => (spec_value hE _).next fun _ => .pure (hend _)

theorem spec_varValues (type : Option Text) (names values : List Text)
    (hE : ∀ f, OfValue f → E (.fault f)) (hQ : Q → ∀ v ∈ values, endsWith v "\x7b" = false) :
    Spec E P Q (fun l => names ≠ [] → values.length = names.length → l.Written) (varValues type names values) := by
  unfold varValues
  split
  · split
    · exact (spec_functionLiteral _ _ _ fun hq => hQ hq _ mem_cons_self).imp fun _ hl _ _ => hl
    · exact (spec_varOne _ _ _ hE).bind fun _ h => .pure fun _ _ => written_line h
  · refine (Meets.mapM fun (p : Text × Text) _ => spec_varOne type p.1 p.2 hE).bind fun texts h =>
      .pure fun hne hpaired => ?_
    refine written_line (unlines_ne_nil_of_forall (fun hnil => hne ?_) h.2)
    have hlen := h.1
    rw [hnil, length_zip, hpaired, Nat.min_self] at hlen
    exact length_eq_zero_iff.mp hlen.symm

theorem spec_destructuringVar {names : List Text} (hid : ∀ n ∈ names, isIdentifier n = true)
    (hlen : 1 < names.length) (value : Text) (hQ : Q → WellNested value) :
    Spec IsFault P Q Written (assignment (joinWith ", " names ++ " := " ++ value)) := by
  have hsplit := split?_define (bare_names hid)
    (not_mem_names hid rfl (by decide)) value
  have hline : ¬ Blank (joinWith ", " names ++ (" := " ++ value)) := fun hblank =>
    absurd (hblank ':' (by simp)) (by decide)
  rw [append_assoc]
  refine (spec_assignment _ (fun _ b hb hle => ?_) (fun hq b hb _ => ?_)).imp fun l hl hempty => ?_
  · rw [hsplit] at hb
    cases hb
    have := two_le_length_splitTop hid hlen
    simp only at hle
    omega
  · rw [hsplit] at hb
    cases hb
    exact (hQ hq).trim.not_endsWith rfl
  · obtain ⟨b, hb, hkind, _⟩ := (hl hline).mp hempty
    rw [hsplit] at hb
    cases hb
    cases hkind

theorem spec_varDeclaration (line : Text) :
    Spec IsFault P (WellNested line) Written (varDeclaration line) := by
  have hbody : WellNested line → WellNested (trim (stripStart "var " line)) := fun h =>
    (h.stripStart (by decide) (by decide)).trim
  have hvalues : ∀ {b : Binding}, split? (trim (stripStart "var " line)) = some b →
      WellNested line → ∀ v ∈ splitTop ',' b.rhs, WellNested v := fun hb h v hv =>
    wellNested_of_mem_splitTop ((hbody h).binding_rhs hb) rfl (by decide) hv
  unfold varDeclaration
  extract_lets body
  split
  rename_i declared values hdv
  have hw : WellNested line → ∀ v ∈ values, WellNested v := by
    intro h v hv
    split at hdv
    · rename_i b hb
      cases hdv
      exact hvalues hb h v hv
    · cases hdv
      cases hv
  split
  rename_i names goType _
  extract_lets type after before
  clear_value type
  by_cases hn : areNames names = true
  · obtain ⟨hne, hid⟩ := areNames_iff.mp hn
    have hafter : ∀ u, Spec IsFault P (WellNested line) Written (after u) := by
      intro u
      simp only [after]
      split
      · split
        · refine .pure (written_line (unlines_ne_nil_of_forall ?_ fun p hp => ?_))
          · rwa [Ne, map_eq_nil_iff]
          · obtain ⟨n, _, rfl⟩ := mem_map.mp hp
            exact append_cons_ne_nil _
        · exact .fail trivial
      · split
        · rename_i hone
          have hlen : 1 < names.length := by
            simpa using (Bool.and_eq_true_iff.mp hone).2
          refine spec_destructuringVar hid hlen _ fun h => ?_
          cases values with
          | nil => exact wellNested_nil
          | cons v vs => exact hw h v mem_cons_self
        · split
          · exact .fail trivial
          · rename_i hcount
            exact (spec_varValues _ _ _ (fun _ _ => trivial) fun h v hv => (hw h v hv).not_endsWith rfl).imp
              fun _ hl => hl hne (by simpa using hcount)
    rw [if_neg (by simp [hn])]
    exact .ite_next (spec_registerMaps id _) hafter
  · rw [if_pos (by simp [hn])]
    exact .fail_bind trivial _

theorem spec_mapLiteralEntry (line : Text) :
    Spec IsFault P Q (fun l => line ≠ [] → SolidEnd line → l.Written)
      (mapLiteralEntry line) :=
  Meets.get_bind (fun _ _ => rfl) fun _ => Meets.bind (.lift_of fun _ _ => trivial) fun _ h =>
    .pure fun hne hlast => written_line (mapEntries_written h hne hlast)

end Functions

end Lower

/-! ## 8. Lines -/

theorem WellNested.headText {s : Text} (h : WellNested s) : WellNested (Lower.headText s) := by
  have hopen : endsWith (Text.trim s) "\x7b" = false := h.trim.not_endsWith rfl
  rw [Lower.headText, stripEnd_eq_self hopen]
  exact h.trim.trim

/-- A line that opens or closes nothing itself. -/
def StatementKind.isPlain : StatementKind → Bool
  | blockOpen _ | blockClose _ | functionSignature | switch | caseClause | defaultClause | fallthrough
  | closureEnd | typeDeclaration | structField | mapLiteralOpen => false
  | _ => true

/-- A line that leaves a label or places one. -/
def StatementKind.usesLabel : StatementKind → Bool
  | caseClause | defaultClause | fallthrough => true
  | _ => false

/-- **A line is written or dropped, unless it is an append of nothing.** -/
def Lowered.Shown (kind : StatementKind) (t : Text) (l : Lowered) : Prop :=
  t ≠ [] → (∀ c, t.getLast? = some c → isBlank c = false) → kind ≠ .blank →
    (l.render = some [] ↔ kind = .assignment ∧ IdleAppend t)

theorem not_blank_of_last {t : Text} (hne : t ≠ []) (hlast : SolidEnd t) : ¬ Blank t := by
  intro hblank
  cases hend : t.getLast? with
  | none => exact hne (getLast?_eq_none_iff.mp hend)
  | some c =>
    have hc := hblank c (mem_of_getLast? hend)
    rw [hlast c hend] at hc
    cases hc

theorem Lowered.Shown.of_written {kind : StatementKind} {t : Text} {l : Lowered} (hk : kind ≠ .assignment)
    (h : t ≠ [] → SolidEnd t → l.Written) : l.Shown kind t :=
  fun hne hlast _ => iff_of_false (h hne hlast) fun hidle => hk hidle.1

/-- A plain line leaves open what stands open in it. -/
theorem Lower.spec_line (t : Text) {kind : StatementKind} (hk : kind.isPlain = true) :
    Spec (fun stop => (kind = .forLoop → splitRange? (loopHead t) ≠ some none) → stop.IsFault)
      (WellNested t) (WellNested t) (Lowered.Shown kind t) (line kind t) := by
  have plain {R : Lowered → Prop} {m : Lower Lowered} (hkind : kind ≠ .assignment)
      (h : Spec IsFault (WellNested t) (WellNested t) R m)
      (hR : ∀ l, R l → t ≠ [] → SolidEnd t → l.Written) :
      Spec (fun stop => (kind = .forLoop → splitRange? (loopHead t) ≠ some none) → stop.IsFault)
        (WellNested t) (WellNested t) (Lowered.Shown kind t) m :=
    (h.mono fun _ hf _ => hf).imp fun l hl => .of_written hkind (hR l hl)
  have solid {l : Lowered} (h : ¬ Blank t → l.Written) (hne : t ≠ [])
      (hlast : SolidEnd t) : l.Written := h (not_blank_of_last hne hlast)
  cases kind with
  | forLoop =>
    exact ((spec_forLoop t).mono fun _ hf hne => hf (hne rfl)).imp fun _ hl => .of_written nofun fun _ _ => hl
  | returnStatement => exact plain nofun (spec_returnStatement t) fun _ => solid
  | print => exact plain nofun (spec_print t) fun _ => solid
  | defer => exact plain nofun (spec_deferStatement t) fun _ => solid
  | ifStatement =>
    have hif : WellNested t → WellNested (headText (stripStart "if" t)) := fun h =>
      (h.stripStart (by decide) (by decide)).headText
    exact plain nofun ((spec_ifStatement t).weaken hif hif) fun _ hl _ _ => hl
  | elseIf =>
    have helse : WellNested t → WellNested (headText (stripStart "\x7d else if" t)) := by
      intro h
      have hs : startsWith t "\x7d else if" = false := h.not_startsWith rfl
      rw [stripStart_eq_self hs]
      exact h.headText
    exact plain nofun ((spec_elseIf t).weaken helse helse) fun _ hl _ _ => hl
  | varDeclaration => exact plain nofun (spec_varDeclaration t) fun _ hl _ _ => hl
  | constDeclaration => exact plain nofun (spec_constDeclaration t) fun _ hl _ _ => hl
  | mapLiteralEntry => exact plain nofun (spec_mapLiteralEntry t) fun _ => id
  | assignment =>
    exact ((spec_assignment_wellNested t).mono fun _ hf _ => hf).imp fun l hl hne hlast _ =>
      (hl (not_blank_of_last hne hlast)).trans (and_iff_right rfl).symm
  | unsupported what => exact plain nofun (spec_passThrough _ t) fun _ => solid
  | blank => exact .pure fun _ _ h => absurd rfl h
  | comment | verbatim => exact .pure (.of_written nofun fun hne _ => Lowered.written_line hne)
  | packageClause | importSpec | importEntry | interfaceMember =>
    exact .pure (.of_written nofun fun _ _ => Lowered.written_dropped)
  | compositeLiteralEntry =>
    exact .pure (.of_written nofun fun hne hlast =>
      Lowered.written_line (elements_ne_nil (not_blank_of_last hne hlast)))
  | expression => exact .pure (.of_written nofun (solid written_expression))
  | _ => cases hk

end Linewise
