/-
  What is read before and what after a name is bound.

  A definition of several names and an `append` read all their values and then bind. Both become
  statements that run one after the other:

      a, b := b, a             auto a = b;  auto b = a;
      xs = append(ys, xs...)   xs = ys;  xs.insert(xs.end(), std::begin(xs), std::end(xs));

  What an expression denotes is left open, except that it hangs on the identifiers in it.
-/
import Mathlib.Algebra.GroupWithZero.Nat
import Linewise.Proofs.Bindings

namespace Linewise

open Text List Lower Binding

variable {x y : Text} {ds : List Declared}

/-! ## 1. Environments -/

/-- What every variable holds. -/
abbrev Env (α : Type) := Text → α

/-- What an expression denotes in an environment. -/
abbrev Meaning (α β : Type) := Text → Env α → β

section

variable {α β : Type}

/-- The variable holds another value. -/
def Env.set (ρ : Env α) (x : Text) (v : α) : Env α := fun y => if y = x then v else ρ y

@[simp] theorem Env.set_self (ρ : Env α) (x : Text) (v : α) : ρ.set x v x = v := if_pos rfl

theorem Env.set_of_ne (ρ : Env α) (h : y ≠ x) (v : α) : ρ.set x v y = ρ y := if_neg h

theorem Env.set_get (ρ : Env α) (x : Text) : ρ.set x (ρ x) = ρ := by
  funext y
  by_cases h : y = x
  · rw [h, set_self]
  · exact ρ.set_of_ne h _

/-- The identifiers in a text, those in its literals left out. -/
def identifiers (s : Text) : List Text := (pieces (!isWordChar ·) (mask s)).filter (!·.isEmpty)

/-- What an expression denotes hangs on the identifiers that occur in it. -/
def Meaning.Local (m : Meaning α β) : Prop := ∀ e ρ σ, (∀ x ∈ identifiers e, ρ x = σ x) → m e ρ = m e σ

end

/-! ## 2. Definitions one after the other -/

/-- A name with the text that initializes it. -/
structure Declared where
  name : Text
  init : Text
  deriving DecidableEq, Repr

/-- The statement that defines the name. -/
def Declared.text (d : Declared) : Text := defineOne d.name d.init

section

variable {α : Type} (m : Meaning α α)

/-- The value is read, and bound unless the name is the blank one. -/
def Declared.run (ρ : Env α) (d : Declared) : Env α :=
  if isDiscard d.name then ρ else ρ.set d.name (m d.init ρ)

/-- The definitions run one after the other. -/
def runDeclared (ρ : Env α) (ds : List Declared) : Env α := ds.foldl (Declared.run m) ρ

variable {m}

theorem runDeclared_append (ρ : Env α) (ds es : List Declared) :
    runDeclared m ρ (ds ++ es) = runDeclared m (runDeclared m ρ ds) es := foldl_append

theorem runDeclared_of_forall (h : ∀ d ∈ ds, isDiscard d.name = false → d.name ≠ x) (ρ : Env α) :
    runDeclared m ρ ds x = ρ x := by
  induction ds generalizing ρ with
  | nil => rfl
  | cons d ds ih =>
    have hd : d.run m ρ x = ρ x := by
      unfold Declared.run
      split
      · rfl
      · rename_i hname
        exact ρ.set_of_ne (h d mem_cons_self (Bool.eq_false_iff.mpr hname)).symm _
    calc runDeclared m ρ (d :: ds) x
        = runDeclared m (d.run m ρ) ds x := rfl
      _ = d.run m ρ x := ih (forall_mem_cons.mp h).2 _
      _ = ρ x := hd

theorem runDeclared_middle {before after : List Declared} {d : Declared}
    (hnodup : ((before ++ d :: after).map Declared.name).Nodup) (hname : isDiscard d.name = false) (ρ : Env α) :
    runDeclared m ρ (before ++ d :: after) d.name = m d.init (runDeclared m ρ before) := by
  have hlater : ∀ e ∈ after, isDiscard e.name = false → e.name ≠ d.name := by
    intro e he _ heq
    rw [map_append, map_cons, nodup_append, nodup_cons] at hnodup
    exact hnodup.2.1.1 (heq ▸ mem_map_of_mem he)
  rw [runDeclared_append]
  calc runDeclared m (runDeclared m ρ before) (d :: after) d.name
      = runDeclared m (d.run m (runDeclared m ρ before)) after d.name := rfl
    _ = d.run m (runDeclared m ρ before) d.name := runDeclared_of_forall hlater _
    _ = m d.init (runDeclared m ρ before) := by
      rw [Declared.run, if_neg (Bool.eq_false_iff.mp hname), Env.set_self]

end

/-- **No value mentions a name that was bound before it.** What is bound to the blank name does not
    matter. -/
def Unmixed (ds : List Declared) : Prop :=
  ds.Pairwise fun d e => isDiscard d.name = true ∨ isDiscard e.name = true ∨ d.name ∉ identifiers e.init

instance (ds : List Declared) : Decidable (Unmixed ds) := inferInstanceAs (Decidable (Pairwise _ ds))

/-- Unmixed definitions bind the values from before. -/
theorem Unmixed.runDeclared_eq {α : Type} {m : Meaning α α} (hm : m.Local) (h : Unmixed ds)
    (hnodup : (ds.map Declared.name).Nodup) (ρ : Env α) {d : Declared} (hd : d ∈ ds)
    (hname : isDiscard d.name = false) : runDeclared m ρ ds d.name = m d.init ρ := by
  obtain ⟨before, after, rfl⟩ := append_of_mem hd
  rw [runDeclared_middle hnodup hname]
  refine hm d.init _ _ fun x hx => runDeclared_of_forall (fun e he hbound heq => ?_) ρ
  have hpair := (pairwise_append.mp h).2.2 e he d mem_cons_self
  rcases hpair with hblank | hblank | hmention
  · rw [hbound] at hblank
    cases hblank
  · rw [hname] at hblank
    cases hblank
  · exact hmention (heq ▸ hx)

theorem exists_of_not_pairwise {α : Type} {R : α → α → Prop} {l : List α} (h : ¬ l.Pairwise R) :
    ∃ before a between b after, l = before ++ a :: (between ++ b :: after) ∧ ¬ R a b := by
  induction l with
  | nil => exact absurd .nil h
  | cons a l ih =>
    by_cases hl : l.Pairwise R
    · have hno : ¬ ∀ b ∈ l, R a b := fun hall => h (.cons hall hl)
      obtain ⟨b, hno⟩ := Classical.not_forall.mp hno
      obtain ⟨hb, hR⟩ := Classical.not_imp.mp hno
      obtain ⟨between, after, rfl⟩ := append_of_mem hb
      exact ⟨[], a, between, b, after, rfl, hR⟩
    · obtain ⟨before, c, between, b, after, rfl, hR⟩ := ih hl
      exact ⟨a :: before, c, between, b, after, rfl, hR⟩

/-- One more than a variable holds, for the expressions that mention it. -/
def successorOf (x : Text) : Meaning Nat Nat := fun e ρ => if x ∈ identifiers e then ρ x + 1 else 0

theorem local_successorOf (x : Text) : (successorOf x).Local := by
  intro e ρ σ h
  unfold successorOf
  split
  · rename_i hx
    rw [h x hx]
  · rfl

/-- Mixed definitions bind something else, for some meaning. -/
theorem exists_runDeclared_ne (h : ¬ Unmixed ds) (hnodup : (ds.map Declared.name).Nodup) :
    ∃ m : Meaning Nat Nat, m.Local ∧ ∃ ρ, ∃ d ∈ ds, isDiscard d.name = false ∧
      runDeclared m ρ ds d.name ≠ m d.init ρ := by
  obtain ⟨before, d, between, e, after, rfl, hmixed⟩ := exists_of_not_pairwise h
  simp only [not_or, Bool.not_eq_true, Classical.not_not] at hmixed
  obtain ⟨hd, he, hmention⟩ := hmixed
  refine ⟨successorOf d.name, local_successorOf _, fun _ => 1, e, by simp, he, ?_⟩
  have hfirst : before ++ d :: (between ++ e :: after) = (before ++ d :: between) ++ e :: after := by simp
  rw [hfirst] at hnodup ⊢
  rw [runDeclared_middle hnodup he]
  -- when the turn of `e` comes, `d` does not hold what it held
  have hnodup' : ((before ++ d :: between).map Declared.name).Nodup := by
    rw [map_append] at hnodup
    exact (nodup_append.mp hnodup).1
  have hbefore : runDeclared (successorOf d.name) (fun _ => 1) before d.name = 1 := by
    refine runDeclared_of_forall (fun b hb _ heq => ?_) _
    rw [map_append, map_cons, nodup_append] at hnodup'
    exact hnodup'.2.2 _ (mem_map_of_mem hb) _ mem_cons_self heq
  have hchanged : runDeclared (successorOf d.name) (fun _ => 1) (before ++ d :: between) d.name ≠ 1 := by
    rw [runDeclared_middle hnodup' hd, successorOf, hbefore]
    split <;> decide
  simp only [successorOf, if_pos hmention]
  omega

/-! ## 3. A definition of several names -/

/-- `a, b := e, f`: two names or more, all of them different, and as many values. -/
structure ParallelDefinition where
  names : List Ident
  exprs : List Text
  several : 2 ≤ names.length
  paired : names.length = exprs.length
  distinct : (names.map Ident.text).Nodup
  elements : ∀ e ∈ exprs, IsElement e

namespace ParallelDefinition

variable (d : ParallelDefinition)

/-- The definition as it is written. -/
def go : Text := joinWith ", " (d.names.map Ident.text) ++ (" := " ++ joinWith ", " d.exprs)

/-- What the line is read as. -/
def binding : Binding := ⟨joinWith ", " (d.names.map Ident.text), joinWith ", " d.exprs, .define⟩

/-- The names with the texts that initialize them. -/
def declared (inits : List Text) : List Declared := zipWith Declared.mk (d.names.map Ident.text) inits

theorem isElement_name : ∀ n ∈ d.names.map Ident.text, IsElement n := by
  intro n hn
  obtain ⟨i, _, rfl⟩ := mem_map.mp hn
  exact i.isElement

theorem isIdentifier_name : ∀ n ∈ d.names.map Ident.text, isIdentifier n = true := by
  intro n hn
  obtain ⟨i, _, rfl⟩ := mem_map.mp hn
  exact i.valid

theorem split?_go : split? d.go = some d.binding := by
  have hequal := not_mem_names d.isIdentifier_name (d := '=') rfl (by decide)
  rw [go, split?_define (bare_names d.isIdentifier_name) hequal,
    trim_eq_self_of_solid (solid_list d.isElement_name), trim_eq_self_of_solid (solid_list d.elements)]
  rfl

theorem map_name_declared {inits : List Text} (h : inits.length = d.names.length) :
    (d.declared inits).map Declared.name = d.names.map Ident.text := by
  unfold declared
  rw [map_zipWith, ← map_uncurry_zip_eq_zipWith]
  exact map_fst_zip (Nat.le_of_eq (by rw [length_map, h]))

theorem assignment_go (s : State) :
    (d.binding.isLiteral = true →
      (assignment d.go).run s = (functionLiteral d.binding.lhs .define d.binding.rhs).run s) ∧
    (d.binding.isLiteral = false → (assignment d.go).run s
      = match d.exprs.mapM value with
        | .ok inits => .ok (.line (unlines ((d.declared inits).map Declared.text))) s
        | .error f => .error (.fault f) s) := by
  refine ⟨fun h => ?_, fun h => ?_⟩
  · rw [assignment_literal d.split?_go h]
    rfl
  · have hlhs : splitTop ',' d.binding.lhs = d.names.map Ident.text := splitTop_list d.isElement_name
    have hrhs : splitTop ',' d.binding.rhs = d.exprs := splitTop_list d.elements
    have hlen : 1 < (splitTop ',' d.binding.lhs).length := by
      rw [hlhs, length_map]
      exact d.several
    have hpaired : (splitTop ',' d.binding.lhs).length = (splitTop ',' d.binding.rhs).length := by
      rw [hlhs, hrhs, length_map, d.paired]
    rw [assignment_parallel d.split?_go h hlen hpaired, hlhs, hrhs]
    cases d.exprs.mapM value with
    | error f => rfl
    | ok inits =>
      have htexts : (d.declared inits).map Declared.text
          = zipWith defineOne (d.names.map Ident.text) inits := map_zipWith
      exact congrArg (fun texts => EStateM.Result.ok (Lowered.line (unlines texts)) s) htexts.symm

end ParallelDefinition

/-- **What a definition of several names binds.** Unless a function literal stands in front, the
    names are defined one after the other with their own values; the line fails if a value does. If
    no value mentions a name bound before it, every name gets what its value was before the line. If
    one does, under some meaning of the values some name does not. -/
theorem parallelDefinition_values (d : ParallelDefinition) (s : State) :
    (d.binding.isLiteral = true →
      (Lower.assignment d.go).run s = (Lower.functionLiteral d.binding.lhs .define d.binding.rhs).run s) ∧
    (d.binding.isLiteral = false →
      (∀ f, d.exprs.mapM value = .error f → (Lower.assignment d.go).run s = .error (.fault f) s) ∧
      ∀ inits, d.exprs.mapM value = .ok inits →
        (Lower.assignment d.go).run s = .ok (.line (unlines ((d.declared inits).map Declared.text))) s ∧
        (d.declared inits).map Declared.name = d.names.map Ident.text ∧
        (Unmixed (d.declared inits) → ∀ {α : Type} (m : Meaning α α), m.Local → ∀ ρ, ∀ x ∈ d.declared inits,
          isDiscard x.name = false → runDeclared m ρ (d.declared inits) x.name = m x.init ρ) ∧
        (¬ Unmixed (d.declared inits) → ∃ m : Meaning Nat Nat, m.Local ∧ ∃ ρ, ∃ x ∈ d.declared inits,
          isDiscard x.name = false ∧ runDeclared m ρ (d.declared inits) x.name ≠ m x.init ρ)) := by
  obtain ⟨hliteral, hplain⟩ := d.assignment_go s
  refine ⟨hliteral, fun h => ⟨fun f hf => ?_, fun inits hinits => ?_⟩⟩
  · rw [hplain h, hf]
  · have hnames := d.map_name_declared ((length_of_mapM hinits).trans d.paired.symm)
    have hnodup : ((d.declared inits).map Declared.name).Nodup := by
      rw [hnames]
      exact d.distinct
    refine ⟨by rw [hplain h, hinits], hnames, fun hunmixed α m hm ρ x hx hname => ?_, fun hmixed => ?_⟩
    · exact hunmixed.runDeclared_eq hm hnodup ρ hx hname
    · exact exists_runDeclared_ne hmixed hnodup

instance (s : Text) : Decidable (IsElement s) := decidable_of_iff _ (isElement_iff ..).symm

/-- `a, b := b, a` -/
def swapped : ParallelDefinition :=
  ⟨[⟨"a", rfl⟩, ⟨"b", rfl⟩], ["b", "a"], by decide, rfl, by decide, by decide⟩

/-- What a variable holds, for an expression that is one. -/
def lookup : Meaning Nat Nat := fun e ρ => if identifiers e = [e] then ρ e else 0

theorem local_lookup : lookup.Local := by
  intro e ρ σ h
  unfold lookup
  split
  · rename_i he
    exact h e (he ▸ mem_singleton_self e)
  · rfl

/-- **A swap is none**: `b` gets its own value back. -/
theorem swapped_mixed :
    (match (Lower.assignment swapped.go).run {} with
      | .ok lowered _ => lowered.render
      | .error _ _ => none) = some ("auto a = b;\nauto b = a;" : Text) ∧
    runDeclared lookup (fun x => if x = "a" then 1 else 2) (swapped.declared ["b", "a"]) "b" = 2 ∧
    lookup "a" (fun x => if x = "a" then 1 else 2) = 1 ∧ lookup.Local := by
  exact ⟨by decide +kernel, rfl, rfl, local_lookup⟩

/-! ## 4. The statements of an append -/

/-- A statement on a variable that holds a sequence. -/
inductive AppendStep where
  /-- the name holds what the source holds -/
  | copy (kind : Kind) (name source : Text)
  /-- one value more -/
  | push (name value : Text)
  /-- the values of a sequence more -/
  | insert (name spread : Text)
  deriving DecidableEq, Repr

namespace AppendStep

/-- The statement. -/
def text : AppendStep → Text
  | copy kind name source => bindText kind name source ++ ";"
  | push name value => name ++ ".push_back(" ++ value ++ ");"
  | insert name spread =>
    name ++ ".insert(" ++ name ++ ".end(), std::begin(" ++ spread ++ "), std::end(" ++ spread ++ "));"

/-- What the statement does to an environment. -/
def run {β : Type} (m : Meaning (List β) β) (ρ : Env (List β)) : AppendStep → Env (List β)
  | copy _ name source => ρ.set name (ρ source)
  | push name value => ρ.set name (ρ name ++ [m value ρ])
  | insert name spread => ρ.set name (ρ name ++ ρ spread)

end AppendStep

/-- An argument behind the first: an expression, or the sequence `v...`. -/
inductive Argument where
  | value (text : Text) (element : IsElement text) (one : stripEnd? "..." text = none)
  | spread (v : Ident)

namespace Argument

/-- The argument as it is written. -/
def text : Argument → Text
  | value t _ _ => t
  | spread v => v.text ++ "..."

/-- The statement that an argument becomes. -/
def step (name : Text) : Argument → AppendStep
  | value t _ _ => .push name (element t)
  | spread v => .insert name v.text

/-- The values it stands for. -/
def denote {β : Type} (m : Meaning (List β) β) (ρ : Env (List β)) : Argument → List β
  | value t _ _ => [m (element t) ρ]
  | spread v => ρ v.text

/-- The argument reads the name. -/
def Reads (x : Text) : Argument → Prop
  | value t _ _ => x ∈ identifiers (element t)
  | spread v => x = v.text

instance (x : Text) : (a : Argument) → Decidable (a.Reads x)
  | value _ _ _ => inferInstanceAs (Decidable (_ ∈ _))
  | spread _ => inferInstanceAs (Decidable (_ = _))

theorem isElement_text : ∀ a : Argument, IsElement a.text
  | value _ h _ => h
  | spread v => by
    refine ⟨isPart_bare ((bare_of_isIdentifier v.valid).append (by decide)) ?_,
      ⟨SolidStart.append v.isElement.solid.1 v.isElement.ne_nil _, (solidEnd_of_last (c := '.') rfl rfl).append (by decide) _⟩,
      by simp [text]⟩
    exact not_mem_append (not_mem_of_isIdentifier v.valid rfl) (by decide)

end Argument

/-- `name = append(source, …)` or `name := append(source, …)`. -/
structure AppendCall where
  kind : Kind
  name : Ident
  named : isDiscard name.text = false
  source : Ident
  args : List Argument

namespace AppendCall

variable (c : AppendCall)

/-- The source and the arguments as they are written. -/
def parts : List Text := c.source.text :: c.args.map Argument.text

/-- What the line is read as. -/
def binding : Binding := ⟨c.name.text, "append" ++ ("(" ++ (joinWith ", " c.parts ++ ")")), c.kind⟩

/-- The line as it is written. -/
def go : Text :=
  match c.kind with
  | .define => c.name.text ++ (" := " ++ c.binding.rhs)
  | .assign => c.name.text ++ (" = " ++ c.binding.rhs)

/-- The statements for it. A variable that is appended to itself is not copied. -/
def steps : List AppendStep :=
  (if c.source.text != c.name.text || c.kind == .define then [.copy c.kind c.name.text c.source.text] else [])
    ++ c.args.map (Argument.step c.name.text)

theorem isElement_parts : ∀ p ∈ c.parts, IsElement p := by
  intro p hp
  rcases mem_cons.mp hp with rfl | hp
  · exact c.source.isElement
  · obtain ⟨a, _, rfl⟩ := mem_map.mp hp
    exact a.isElement_text

theorem split?_go : split? c.go = some c.binding := by
  have hbare := bare_of_isIdentifier c.name.valid
  have hequal := not_mem_of_isIdentifier c.name.valid (d := '=') rfl
  have hname : trim c.name.text = c.name.text := c.name.isElement.trim_eq
  have hrhs : trim c.binding.rhs = c.binding.rhs := by
    have hlast : c.binding.rhs.getLast? = some ')' := getLast?_bracketed "append" (joinWith ", " c.parts) '(' ')'
    exact trim_eq_self_of_solid ⟨solidStart_cons rfl _, solidEnd_of_last hlast rfl⟩
  unfold go
  split
  · rename_i hkind
    rw [split?_define hbare hequal, hname, hrhs, ← hkind]
    rfl
  · rename_i hkind
    rw [split?_assign hbare hequal, hname, hrhs, ← hkind]
    rfl

theorem callArguments?_go : callArguments? "append" c.binding.rhs = some (joinWith ", " c.parts) := by
  have hnested := wellNested_list fun p hp => (c.isElement_parts p hp).part
  have hinside : enclosed? ("(" ++ (joinWith ", " c.parts ++ ")")) = some (joinWith ", " c.parts, []) :=
    enclosed?_eq (o := '(') rfl hnested []
  have hcall : stripStart? "append" c.binding.rhs = some ("(" ++ (joinWith ", " c.parts ++ ")")) :=
    stripStart?_append "append" _
  unfold callArguments?
  rw [hcall, Option.bind_some, if_pos (startsWith_append "(" _), hinside]
  rfl

theorem text_step (name : Text) (a : Argument) : (a.step name).text =
    match stripEnd? "..." a.text with
    | some spread =>
      name ++ ".insert(" ++ name ++ ".end(), std::begin(" ++ spread ++ "), std::end(" ++ spread ++ "));"
    | none => name ++ ".push_back(" ++ element a.text ++ ");" := by
  cases a with
  | value t _ hone =>
    rw [Argument.text, hone]
    rfl
  | spread v =>
    rw [Argument.text, stripEnd?_append]
    rfl

theorem appendStatements_eq :
    appendStatements c.name.text (joinWith ", " c.parts) c.kind = c.steps.map AppendStep.text := by
  have hargs := map_congr_left fun (a : Argument) (_ : a ∈ c.args) => text_step c.name.text a
  have hlist : appendStatements c.name.text (joinWith ", " c.parts) c.kind
      = (if c.source.text != c.name.text || c.kind == .define then
          [bindText c.kind c.name.text c.source.text ++ ";"] else [])
        ++ c.args.map fun a => (a.step c.name.text).text := by
    unfold appendStatements
    rw [splitTop_list c.isElement_parts, hargs]
    exact congrArg (_ ++ ·) map_map
  rw [hlist, steps, map_append, map_map]
  split <;> rfl

theorem assignment_go (s : State) :
    (assignment c.go).run s = .ok (.line (joinWith " " (c.steps.map AppendStep.text))) s := by
  have hnames : splitTop ',' c.binding.lhs = [c.name.text] := by
    have hone : ∀ p ∈ [c.name.text], IsElement p := fun p hp => mem_singleton.mp hp ▸ c.name.isElement
    have hsplit := splitTop_list hone
    rwa [joinWith_singleton] at hsplit
  have hliteral : c.binding.isLiteral = false := isLiteral_of_head? rfl (by decide)
  rw [assignment_one c.split?_go hliteral (by rw [hnames]; exact Nat.le_refl 1)]
  unfold assignOne
  rw [c.callArguments?_go, ← c.appendStatements_eq, show isDiscard c.binding.lhs = false from c.named]
  rfl

end AppendCall

/-! ## 5. What an append leaves -/

section

variable {β : Type} {m : Meaning (List β) β} {x : Text} {ρ σ : Env (List β)}

theorem Argument.run_step (m : Meaning (List β) β) (ρ : Env (List β)) (x : Text) (a : Argument) :
    (a.step x).run m ρ = ρ.set x (ρ x ++ a.denote m ρ) := by
  cases a <;> rfl

theorem Argument.denote_congr (hm : m.Local) {a : Argument} (h : ¬ a.Reads x) (hσ : ∀ y, y ≠ x → σ y = ρ y) :
    a.denote m σ = a.denote m ρ := by
  cases a with
  | value t _ _ =>
    refine congrArg (fun v => [v]) (hm _ _ _ fun y hy => hσ y fun heq => ?_)
    exact h (show x ∈ identifiers (element t) from heq ▸ hy)
  | spread v => exact hσ v.text fun heq => h heq.symm

/-- The statements for arguments, one after the other. -/
def runArguments (m : Meaning (List β) β) (x : Text) (ρ : Env (List β)) (args : List Argument) : Env (List β) :=
  args.foldl (fun ρ a => (a.step x).run m ρ) ρ

theorem runArguments_cons (m : Meaning (List β) β) (x : Text) (ρ : Env (List β)) (a : Argument)
    (args : List Argument) :
    runArguments m x ρ (a :: args) = runArguments m x (ρ.set x (ρ x ++ a.denote m ρ)) args := by
  rw [← a.run_step]
  rfl

theorem runArguments_of_ne (hy : y ≠ x) (ρ : Env (List β)) (args : List Argument) :
    runArguments m x ρ args y = ρ y := by
  induction args generalizing ρ with
  | nil => rfl
  | cons a args ih => rw [runArguments_cons, ih, ρ.set_of_ne hy]

theorem runArguments_unread (hm : m.Local) {args : List Argument} (h : ∀ a ∈ args, ¬ a.Reads x)
    (hσ : ∀ y, y ≠ x → σ y = ρ y) :
    runArguments m x σ args x = σ x ++ args.flatMap (Argument.denote m ρ) := by
  induction args generalizing σ with
  | nil => exact (append_nil _).symm
  | cons a args ih =>
    have hnext : ∀ y, y ≠ x → σ.set x (σ x ++ a.denote m σ) y = ρ y := fun y hy =>
      (σ.set_of_ne hy _).trans (hσ y hy)
    rw [runArguments_cons, ih (forall_mem_cons.mp h).2 hnext, Env.set_self,
      Argument.denote_congr hm (h a mem_cons_self) hσ, append_assoc, flatMap_cons]

end

namespace AppendCall

variable (c : AppendCall) {β : Type} (m : Meaning (List β) β) (ρ : Env (List β))

/-- The statements run one after the other. -/
def run : Env (List β) := c.steps.foldl (AppendStep.run m) ρ

/-- What the target is to hold: what the source held, and what the arguments denoted. -/
def result : List β := ρ c.source.text ++ c.args.flatMap (Argument.denote m ρ)

/-- The arguments read after the target has changed: all but the first if the target is its own
    source, else all. -/
def late : List Argument := if c.source.text = c.name.text then c.args.drop 1 else c.args

/-- **No argument is disturbed**: none that is read late mentions the target. -/
def Undisturbed : Prop := ∀ a ∈ c.late, ¬ a.Reads c.name.text

instance : Decidable c.Undisturbed := inferInstanceAs (Decidable (∀ a ∈ c.late, ¬ a.Reads c.name.text))

theorem run_eq : c.run m ρ = runArguments m c.name.text (ρ.set c.name.text (ρ c.source.text)) c.args := by
  unfold run steps runArguments
  rw [foldl_append, foldl_map]
  refine congrArg (fun σ => c.args.foldl _ σ) ?_
  split
  · rfl
  · rename_i hsame
    rw [Bool.or_eq_true, not_or, Bool.not_eq_true, bne_eq_false_iff_eq] at hsame
    rw [hsame.1]
    exact (ρ.set_get c.name.text).symm

variable {m ρ}

theorem run_of_ne (hy : y ≠ c.name.text) : c.run m ρ y = ρ y := by
  rw [run_eq, runArguments_of_ne hy, ρ.set_of_ne hy]

/-- An append that disturbs no argument is right. -/
theorem run_undisturbed (hm : m.Local) (h : c.Undisturbed) : c.run m ρ c.name.text = c.result m ρ := by
  rw [run_eq]
  unfold Undisturbed late at h
  unfold result
  split at h
  · rename_i hself
    rw [hself, ρ.set_get]
    cases hargs : c.args with
    | nil => exact (append_nil _).symm
    | cons a args =>
      have hunread : ∀ b ∈ args, ¬ b.Reads c.name.text := by rwa [hargs] at h
      rw [runArguments_cons, runArguments_unread hm hunread fun y hy => ρ.set_of_ne hy (_ ++ _), Env.set_self,
        append_assoc, flatMap_cons]
  · rw [runArguments_unread hm h fun y hy => ρ.set_of_ne hy (ρ c.source.text), Env.set_self]

end AppendCall

/-- One for each value of a sequence, and the value. -/
def weight (l : List Nat) : Nat := (l.map (· + 1)).sum

theorem weight_append (a b : List Nat) : weight (a ++ b) = weight a + weight b := by
  unfold weight
  rw [map_append, sum_append]

/-- The weight of a variable, for the expressions that mention it. -/
def weightOf (x : Text) : Meaning (List Nat) Nat := fun e ρ => if x ∈ identifiers e then weight (ρ x) else 0

theorem local_weightOf (x : Text) : (weightOf x).Local := by
  intro e ρ σ h
  unfold weightOf
  split
  · rename_i hx
    rw [h x hx]
  · rfl

theorem Argument.weight_denote {ρ σ : Env (List Nat)} (hσ : ∀ y, y ≠ x → σ y = ρ y)
    (hx : weight (ρ x) < weight (σ x)) (a : Argument) :
    weight (a.denote (weightOf x) ρ) + (if a.Reads x then 1 else 0) ≤ weight (a.denote (weightOf x) σ) := by
  by_cases h : a.Reads x
  · rw [if_pos h]
    cases a with
    | value t _ _ =>
      have hvalue (τ : Env (List Nat)) : weightOf x (element t) τ = weight (τ x) := if_pos h
      simp only [denote, hvalue, weight, map_cons, map_nil, sum_cons, sum_nil]
      exact Nat.succ_le_succ hx
    | spread v =>
      obtain rfl : x = v.text := h
      exact hx
  · rw [if_neg h, denote_congr (local_weightOf x) h hσ]
    exact Nat.le_refl _

theorem weight_runArguments {ρ σ : Env (List Nat)} (hσ : ∀ y, y ≠ x → σ y = ρ y)
    (hx : weight (ρ x) < weight (σ x)) (args : List Argument) :
    weight (σ x) + weight (args.flatMap (Argument.denote (weightOf x) ρ)) + args.countP (·.Reads x)
      ≤ weight (runArguments (weightOf x) x σ args x) := by
  induction args generalizing σ with
  | nil => exact Nat.le_refl _
  | cons a args ih =>
    have hnext : ∀ y, y ≠ x → σ.set x (σ x ++ a.denote (weightOf x) σ) y = ρ y := fun y hy =>
      (σ.set_of_ne hy _).trans (hσ y hy)
    have hrest := ih hnext (by rw [Env.set_self, weight_append]; omega)
    have hone := a.weight_denote hσ hx
    rw [Env.set_self, weight_append] at hrest
    rw [runArguments_cons, flatMap_cons, weight_append, countP_cons]
    simp only [decide_eq_true_eq]
    omega

namespace AppendCall

/-- The target holds less than any other variable. -/
def probe (c : AppendCall) : Env (List Nat) := fun y => if y = c.name.text then [0] else [1]

theorem weight_probe (c : AppendCall) (y : Text) :
    weight (c.probe y) = if y = c.name.text then 1 else 2 := by
  unfold probe
  split <;> rfl

theorem weight_denote_probe_pos (c : AppendCall) (m : Meaning (List Nat) Nat) (a : Argument) :
    0 < weight (a.denote m c.probe) := by
  cases a with
  | value t _ _ => exact Nat.succ_pos _
  | spread v =>
    rw [Argument.denote, weight_probe]
    split <;> decide

/-- One that does is wrong, for some meaning. -/
theorem run_disturbed (c : AppendCall) (h : ¬ c.Undisturbed) :
    c.run (weightOf c.name.text) c.probe c.name.text ≠ c.result (weightOf c.name.text) c.probe := by
  have hcount : 0 < c.late.countP (·.Reads c.name.text) := by
    obtain ⟨a, ha⟩ := Classical.not_forall.mp h
    obtain ⟨hlate, hreads⟩ := Classical.not_imp.mp ha
    exact countP_pos_iff.mpr ⟨a, hlate, decide_eq_true (Classical.not_not.mp hreads)⟩
  have hname : weight (c.probe c.name.text) = 1 := by rw [weight_probe, if_pos rfl]
  intro heq
  have hweight := congrArg weight heq
  rw [run_eq, result, weight_append] at hweight
  unfold late at hcount
  split at hcount
  · -- the first argument makes the target heavier before the others are read
    rename_i hself
    rw [hself, Env.set_get] at hweight
    cases hargs : c.args with
    | nil =>
      rw [hargs] at hcount
      cases hcount
    | cons a args =>
      rw [hargs] at hcount
      rw [hargs, runArguments_cons, flatMap_cons, weight_append] at hweight
      have hfirst := c.weight_denote_probe_pos (weightOf c.name.text) a
      have hmore := weight_runArguments (ρ := c.probe)
        (σ := c.probe.set c.name.text (c.probe c.name.text ++ a.denote (weightOf c.name.text) c.probe))
        (fun y hy => c.probe.set_of_ne hy _) (by rw [Env.set_self, weight_append]; omega) args
      rw [Env.set_self, weight_append] at hmore
      have hreads : 0 < args.countP (·.Reads c.name.text) := hcount
      omega
  · -- the copy does
    rename_i hother
    have hsource : weight (c.probe c.source.text) = 2 := by rw [weight_probe, if_neg hother]
    have hmore := weight_runArguments (ρ := c.probe) (σ := c.probe.set c.name.text (c.probe c.source.text))
      (fun y hy => c.probe.set_of_ne hy _) (by rw [Env.set_self]; omega) c.args
    rw [Env.set_self] at hmore
    omega

end AppendCall

/-- **What an append leaves in its target.** The line becomes the statements in order, and they change no
    other variable. If no argument that is read late mentions the target, it holds what the source held and
    then what the arguments denoted before the line. If one does, there is a meaning of the arguments under
    which it does not. -/
theorem appendCall_values (c : AppendCall) :
    (∀ s, (Lower.assignment c.go).run s = .ok (.line (joinWith " " (c.steps.map AppendStep.text))) s) ∧
    (∀ {β : Type} (m : Meaning (List β) β) (ρ : Env (List β)), ∀ y, y ≠ c.name.text → c.run m ρ y = ρ y) ∧
    (c.Undisturbed → ∀ {β : Type} (m : Meaning (List β) β), m.Local → ∀ ρ, c.run m ρ c.name.text = c.result m ρ) ∧
    (¬ c.Undisturbed → ∃ m : Meaning (List Nat) Nat, m.Local ∧ ∃ ρ, c.run m ρ c.name.text ≠ c.result m ρ) := by
  refine ⟨c.assignment_go, fun m ρ y hy => c.run_of_ne hy, fun h β m hm ρ => c.run_undisturbed hm h, fun h => ?_⟩
  exact ⟨weightOf c.name.text, local_weightOf _, c.probe, c.run_disturbed h⟩

/-- `xs = append(ys, xs...)` -/
def appendToOther : AppendCall := ⟨.assign, ⟨"xs", rfl⟩, rfl, ⟨"ys", rfl⟩, [.spread ⟨"xs", rfl⟩]⟩

/-- **The old values are lost**: `ys` is appended to itself. -/
theorem appendToOther_disturbed :
    (match (Lower.assignment appendToOther.go).run {} with
      | .ok lowered _ => lowered.render
      | .error _ _ => none)
        = some ("xs = ys; xs.insert(xs.end(), std::begin(xs), std::end(xs));" : Text) ∧
    appendToOther.run (fun _ _ => 0) (fun x => if x = "xs" then [1] else [2]) "xs" = [2, 2] ∧
    appendToOther.result (fun _ _ => 0) (fun x => if x = "xs" then [1] else [2]) = [2, 1] := by
  decide +kernel

end Linewise
