/-
  A simple statement does not see where it stands.

  It reads the names known to hold maps, whether a function is open, and the next name for a discarded
  value. States that agree on these come to the same text or to the same stop.
-/
import Linewise.Proofs.Bindings

namespace Linewise

open Text List

/-! ## 1. One step from two states -/

namespace Lower

/-- A step from two states has one result, of which `P` holds, in related states, or one stop. -/
inductive SameEnd {α : Type} (R : State → State → Prop) (P : α → Prop) :
    EStateM.Result Stop State α → EStateM.Result Stop State α → Prop where
  | ok {a : α} {s u : State} (hP : P a) (hR : R s u) : SameEnd R P (.ok a s) (.ok a u)
  | error (stop : Stop) (s u : State) : SameEnd R P (.error stop s) (.error stop u)

/-- The step does not tell related states apart. -/
def Blind {α : Type} (R : State → State → Prop) (P : α → Prop) (m : Lower α) : Prop :=
  ∀ s u, R s u → SameEnd R P (m.run s) (m.run u)

namespace Blind

variable {α β : Type} {R : State → State → Prop} {P : β → Prop} {Q : α → Prop}

theorem pure {b : β} (h : P b) : Blind R P (Pure.pure b : Lower β) := fun _ _ hR => .ok h hR

theorem fail (f : Fault) : Blind R P (Lower.fail f : Lower β) := fun s u _ => .error (.fault f) s u

theorem lift (x : Except Fault β) : Blind R (fun b => x = .ok b) (Lower.lift x) := by
  cases x with
  | ok b => exact pure rfl
  | error f => exact fail f

theorem bind {m : Lower α} {f : α → Lower β} (hm : Blind R Q m) (hf : ∀ a, Q a → Blind R P (f a)) :
    Blind R P (m >>= f) := by
  intro s u hR
  rw [EStateM.run_bind, EStateM.run_bind]
  have hend := hm s u hR
  generalize m.run s = x, m.run u = y at hend
  cases hend with
  | ok hQ hR' => exact hf _ hQ _ _ hR'
  | error stop s' u' => exact .error stop s' u'

theorem modify {g : State → State} (hg : ∀ s u, R s u → R (g s) (g u)) :
    Blind R (fun _ => True) (modify g : Lower Unit) :=
  fun s u hR => .ok trivial (hg s u hR)


theorem get_bind {f : State → Lower β} (hf : ∀ s u, R s u → f s = f u) (hb : ∀ s, Blind R P (f s)) :
    Blind R P (get >>= f) := by
  intro s u hR
  show SameEnd R P ((f s).run s) ((f u).run u)
  rw [← hf s u hR]
  exact hb s s u hR

theorem mapM {f : α → Lower β} (hf : ∀ a, Blind R P (f a)) (xs : List α) :
    Blind R (fun bs => ∀ b ∈ bs, P b) (xs.mapM f) := by
  induction xs with
  | nil =>
    rw [mapM_nil]
    exact pure nofun
  | cons x xs ih =>
    rw [mapM_cons]
    refine (hf x).bind fun b hb => ih.bind fun bs hbs => pure fun c hc => ?_
    rcases mem_cons.mp hc with rfl | hc
    · exact hb
    · exact hbs c hc

end Blind

end Lower

/-- A relation that simple statements do not look behind: related states agree on what is read and
    stay related. -/
structure Unseen (R : State → State → Prop) : Prop where
  knownMaps : ∀ {s u : State}, R s u → s.knownMaps = u.knownMaps
  function : ∀ {s u : State}, R s u → s.function.isSome = u.function.isSome
  discard : ∀ {s u : State}, R s u → s.names.next .discard = u.names.next .discard
  setMaps : ∀ {s u : State} (known : List Text), R s u →
    R { s with knownMaps := known } { u with knownMaps := known }
  notice : ∀ {s u : State} (message : Text), R s u → R (s.notice message) (u.notice message)
  prettyPrint : ∀ {s u : State}, R s u → R { s with needsPrettyPrint := true } { u with needsPrettyPrint := true }
  draw : ∀ {s u : State}, R s u →
    R { s with names := s.names.advance .discard } { u with names := u.names.advance .discard }

namespace Unseen

variable {R : State → State → Prop} {s u : State}

theorem registerMap (h : Unseen R) (name : Text) (hR : R s u) : R (s.registerMap name) (u.registerMap name) := by
  unfold State.registerMap
  rw [← h.knownMaps hR]
  split
  · exact hR
  · exact h.setMaps _ hR

theorem registerParams (h : Unseen R) (params : List Parameter) (hR : R s u) :
    R (s.registerParams params) (u.registerParams params) := by
  unfold State.registerParams
  generalize params.filter (isMapType ·.type) = ps
  induction ps generalizing s u with
  | nil => exact hR
  | cons p ps ih => exact ih (h.registerMap p.name hR)

theorem isKnownMap (h : Unseen R) (expr : Text) (hR : R s u) : s.isKnownMap expr = u.isKnownMap expr := by
  unfold State.isKnownMap
  rw [h.knownMaps hR]

end Unseen

/-! ## 2. How a text ends -/

theorem solidEnd_nil : SolidEnd [] := nofun

theorem solidEnd_joinWith {sep : Text} {parts : List Text} {c : Char} (hc : isBlank c = false)
    (h : ∀ p ∈ parts, p.getLast? = some c) : SolidEnd (joinWith sep parts) := by
  intro d hd
  have hne : ∀ p ∈ parts, p ≠ [] := by
    rintro p hp rfl
    cases h [] hp
  obtain ⟨p, hp, hlast⟩ := getLast?_joinWith hne hd
  rw [h p hp] at hlast
  exact Option.some.inj hlast ▸ hc

theorem solidEnd_terminate (t : Text) : SolidEnd (terminate t) := by
  have htrim : SolidEnd (trimEnd t) := fun c hc => getLast?_trimEnd hc
  have hsemicolon : SolidEnd (trimEnd t ++ ";") := solidEnd_of_last getLast?_concat rfl
  unfold terminate
  dsimp only
  split
  · exact htrim
  · split
    · exact hsemicolon
    · split
      · exact htrim
      · split
        · exact htrim
        · exact hsemicolon

theorem getLast?_flush (sink : Text) (run : List Text) : ∀ p ∈ flush sink run, p.getLast? = some ';' := by
  intro p hp
  unfold flush at hp
  split at hp
  · cases hp
  · rw [mem_singleton.mp hp]
    exact getLast?_concat

theorem getLast?_streamStatements (sink : Text) (run : List Text) (pieces : List Piece) :
    ∀ p ∈ streamStatements sink run pieces, p.getLast? = some ';' := by
  induction pieces generalizing run with
  | nil => exact getLast?_flush sink run
  | cons piece pieces ih =>
    cases piece with
    | direct text => exact ih _
    | formatted expr =>
      intro p hp
      rcases mem_append.mp hp with hp | hp
      · exact getLast?_flush sink run p hp
      · rcases mem_cons.mp hp with rfl | hp
        · exact getLast?_append_of_ne_nil _ (by decide)
        · exact ih _ p hp

theorem Lower.getLast?_appendStatements (name args : Text) (kind : Binding.Kind) :
    ∀ p ∈ Lower.appendStatements name args kind, p.getLast? = some ';' := by
  intro p hp
  rcases mem_append.mp hp with hp | hp
  · split at hp
    · rw [mem_singleton.mp hp]
      exact getLast?_concat
    · cases hp
  · obtain ⟨v, _, rfl⟩ := mem_map.mp hp
    split
    · exact getLast?_append_of_ne_nil _ (by decide)
    · exact getLast?_append_of_ne_nil _ (by decide)

namespace Lowered

/-- The text that is emitted does not end with white space. -/
def Ends (l : Lowered) : Prop := SolidEnd l.renderD

theorem ends_statement (t : Text) : (statement t).Ends := solidEnd_terminate t

theorem ends_dropped : dropped.Ends := solidEnd_nil

end Lowered

/-! ## 3. Printing -/

namespace Lower

open Lowered

section Functions

variable {R : State → State → Prop} (hU : Unseen R)

include hU

theorem blind_notice (message : Text) : Blind R (fun _ => True) (modify (·.notice message)) :=
  .modify fun _ _ => hU.notice message

theorem blind_prettyPrint : Blind R (fun _ => True) (modify fun s : State => { s with needsPrettyPrint := true }) :=
  .modify fun _ _ => hU.prettyPrint

theorem blind_registerMap (name : Text) : Blind R (fun _ => True) (modify (·.registerMap name)) :=
  .modify fun _ _ => hU.registerMap name

theorem blind_discardName : Blind R (fun _ => True) (freshName .discard) := by
  intro s u hR
  show SameEnd R _ (.ok (s.names.next .discard) _) (.ok (u.names.next .discard) _)
  rw [hU.discard hR]
  exact .ok trivial (hU.draw hR)

theorem blind_passThrough (message line : Text) : Blind R Ends (passThrough message line) :=
  (blind_notice hU _).bind fun _ _ => .pure (ends_statement line)

theorem blind_printStream (sink : Sink) (spacing : Spacing) (newline : Bool) (operands : List Text) :
    Blind R Ends (printStream sink spacing newline operands) := by
  unfold printStream
  extract_lets pieces rest
  have hrest : ∀ x, Blind R Ends (rest x) := by
    intro x
    refine .pure ?_
    split
    · exact ends_dropped
    · exact solidEnd_joinWith rfl (getLast?_streamStatements _ _ _)
  split
  · exact (blind_prettyPrint hU).bind fun x _ => hrest x
  · exact hrest ()

theorem blind_printFormat (head : Text) (operands : List Text) (line : Text) :
    Blind R Ends (printFormat head operands line) := by
  unfold printFormat
  split
  · exact .fail _
  · split
    · extract_lets f rest
      have hrest : ∀ x, Blind R Ends (rest x) := fun _ => .pure (ends_statement _)
      split
      · exact (blind_prettyPrint hU).bind fun x _ => hrest x
      · exact hrest ()
    · exact (blind_notice hU _).bind fun _ _ => .pure (ends_statement _)

theorem blind_print (line : Text) : Blind R Ends (print line) := by
  unfold print
  split
  · split
    · unfold printCall
      split
      · exact blind_passThrough hU _ _
      · exact blind_printStream hU _ _ _ _
      · split
        · exact blind_printStream hU _ _ _ _
        · exact blind_passThrough hU _ _
      · exact blind_printFormat hU _ _ _
      · split
        · exact blind_printFormat hU _ _ _
        · exact blind_passThrough hU _ _
    · exact blind_passThrough hU _ _
  · exact blind_passThrough hU _ _

/-! ## 4. Assignments -/

theorem blind_functionLiteral (lhs : Text) (kind : Binding.Kind) {rhs : Text} (h : endsWith rhs "\x7b" = false) :
    Blind R Ends (functionLiteral lhs kind rhs) := by
  unfold functionLiteral
  split
  rename_i params results _
  refine (Blind.modify fun _ _ => hU.registerParams params).bind fun _ _ => ?_
  simp only [h, Bool.false_eq_true, if_false]
  refine .get_bind (fun s u hR => ?_) fun s => .pure ?_
  · rw [hU.function hR]
  · exact solidEnd_of_last (getLast?_append_of_ne_nil _ (by decide)) rfl

theorem blind_assignOne (name : Text) {rhs : Text} (kind : Binding.Kind)
    (hclosed : ∀ lit, Composite.split? rhs = some lit → lit.closed = true) :
    Blind R Ends (assignOne name rhs kind) := by
  unfold assignOne
  split
  · exact (Blind.lift _).bind fun _ _ => .pure (ends_statement _)
  · split
    · exact .pure (solidEnd_joinWith rfl (getLast?_appendStatements _ _ _))
    · split
      · rename_i lit hlit
        obtain ⟨hsplit, hopen⟩ := Option.filter_eq_some_iff.mp hlit
        rw [hclosed lit hsplit] at hopen
        cases hopen
      · extract_lets plain rest
        have hplain : ∀ x, Blind R Ends (plain x) := fun _ => .pure (ends_statement _)
        have hrest : ∀ x, Blind R Ends (rest x) := by
          intro x
          refine (Blind.lift _).bind fun c _ => ?_
          split
          · extract_lets built
            have hbuilt : ∀ x, Blind R Ends (built x) := fun _ => .pure (ends_statement _)
            split
            · exact (blind_registerMap hU _).bind fun x _ => hbuilt x
            · exact hbuilt ()
          · refine .get_bind (fun s u hR => ?_) fun s => ?_
            · rw [hU.isKnownMap _ hR]
            · split
              · exact (blind_registerMap hU _).bind fun x _ => hplain x
              · exact hplain ()
        split
        · refine (Blind.lift _).bind fun c _ => ?_
          split
          · exact .pure (ends_statement _)
          · exact hrest ()
        · exact hrest ()

theorem blind_bindingName (name : Text) : Blind R (fun _ => True) (bindingName name) := by
  unfold bindingName
  split
  · exact blind_discardName hU
  · exact .pure trivial

theorem blind_destructure (names : List Text) (value : Text) (kind : Binding.Kind) (line : Text) :
    Blind R Ends (destructure names value kind line) := by
  unfold destructure
  extract_lets rest asIs
  have hrest : ∀ source, Blind R Ends (rest source) := by
    intro source
    simp only [rest]
    split
    · exact (Blind.mapM (blind_bindingName hU) names).bind fun _ _ => .pure (ends_statement _)
    · exact .pure (ends_statement _)
  have hpure : ∀ source : Text, Blind R Ends (Pure.pure source >>= rest) := fun source =>
    (Blind.pure (P := fun _ => True) trivial).bind fun x _ => hrest x
  split
  · split
    · refine .get_bind (fun s u hR => ?_) fun s => ?_
      · rw [hU.isKnownMap _ hR]
      · split
        · exact hpure _
        · exact hpure _
    · have hasIs : ∀ x, Blind R Ends (asIs x) := fun _ => hpure _
      split
      · exact (blind_notice hU _).bind fun x _ => hasIs x
      · exact hasIs ()
  · exact hpure _

omit hU in
theorem ends_assignParallel (names values : List Text) (kind : Binding.Kind) :
    (assignParallel names values kind).Ends := by
  unfold assignParallel
  split
  · refine solidEnd_joinWith (c := ';') rfl fun p hp => ?_
    rw [← map_uncurry_zip_eq_zipWith] at hp
    obtain ⟨⟨name, value⟩, _, rfl⟩ := mem_map.mp hp
    unfold Function.uncurry defineOne
    split
    · exact getLast?_append_of_ne_nil _ (by decide)
    · exact getLast?_concat
  · exact ends_statement _

theorem blind_assignment {line : Text} (h : WellNested line) : Blind R Ends (assignment line) := by
  unfold assignment
  split
  · rename_i b hb
    have hrhs := h.binding_rhs hb
    split
    · exact blind_functionLiteral hU _ _ (hrhs.not_endsWith rfl)
    · extract_lets names
      split
      · exact blind_assignOne hU _ _ fun _ => hrhs.composite_closed
      · split
        · exact blind_destructure hU _ _ _ _
        · split
          · exact .fail _
          · exact (Blind.lift _).bind fun _ _ => .pure (ends_assignParallel _ _ _)
  · exact .pure (ends_statement _)

/-! ## 5. All simple statements -/

omit hU in
theorem ends_expression (line : Text) : (expression line).Ends := by
  unfold expression
  split
  · exact ends_statement _
  · exact ends_statement _

/-- A simple statement does not see where it stands. -/
theorem blind_simpleStatement {t : Text} (ht : trim t = t) (h : WellNested t) :
    Blind R SolidEnd (simpleStatement t) := by
  unfold simpleStatement
  extract_lets statement rest
  have hrest : ∀ l, Lowered.Ends l → Blind R SolidEnd (rest l) := fun _ hl => .pure hl
  have hstatement : statement = t := ht
  rw [hstatement]
  split
  · exact (blind_print hU t).bind hrest
  · exact (blind_assignment hU h).bind hrest
  · exact (Blind.pure (ends_expression t)).bind hrest
  · exact (blind_passThrough hU _ t).bind hrest
  · exact (Blind.pure (ends_statement t)).bind hrest
  · exact (blind_passThrough hU _ t).bind hrest

end Functions

end Lower

end Linewise
